import KeyValueServer.Connection.Event
import Mathlib.Data.Nat.Bitwise

/-!
# The names of connections

A token is put together from a place and a generation and can be taken apart again, as long as
places are named by 32 bits. Every token is the name of some place and generation.
-/

namespace KeyValueServer.ConnectionToken

theorem toNat_encode {index : Nat} (h : index < UInt32.size) (generation : UInt32) :
    (encode index generation).toNat = UInt32.size * generation.toNat + index := by
  have hgeneration : generation.toNat < 2 ^ 32 := generation.toNat_lt
  have hplace : index < 2 ^ 32 := h
  have hindex : (UInt64.ofNat index).toNat = index := by
    rw [UInt64.toNat_ofNat']
    exact Nat.mod_eq_of_lt (by omega)
  have hor := Nat.two_pow_add_eq_or_of_lt hplace generation.toNat
  rw [encode, UInt64.toNat_or, UInt64.toNat_shiftLeft, hindex, UInt32.toNat_toUInt64,
    Nat.shiftLeft_eq]
  simp only [UInt64.toNat_ofNat, Nat.reducePow, Nat.reduceMod, UInt32.size] at hor ⊢
  rw [Nat.mod_eq_of_lt (by omega), Nat.mul_comm, ← hor]

theorem index_encode {index : Nat} (h : index < UInt32.size) (generation : UInt32) :
    (encode index generation).index = index := by
  rw [ConnectionToken.index, toNat_encode h, Nat.mul_add_mod, Nat.mod_eq_of_lt h]

theorem toNat_generation (token : ConnectionToken) :
    token.generation.toNat = token.toNat / UInt32.size := by
  have htoken : token.toNat < 2 ^ 64 := token.toNat_lt
  rw [ConnectionToken.generation, UInt64.toNat_toUInt32, UInt64.toNat_shiftRight,
    Nat.shiftRight_eq_div_pow]
  simp only [UInt64.toNat_ofNat, Nat.reducePow, Nat.reduceMod, UInt32.size] at htoken ⊢
  omega

theorem generation_encode {index : Nat} (h : index < UInt32.size) (generation : UInt32) :
    (encode index generation).generation = generation := by
  have hplace : index < 2 ^ 32 := h
  apply UInt32.toNat_inj.mp
  rw [toNat_generation, toNat_encode h]
  simp only [UInt32.size]
  omega

theorem index_lt (token : ConnectionToken) : token.index < UInt32.size :=
  Nat.mod_lt _ (by decide)

theorem encode_index_generation (token : ConnectionToken) :
    encode token.index token.generation = token := by
  apply UInt64.toNat_inj.mp
  rw [toNat_encode token.index_lt, toNat_generation, ConnectionToken.index]
  exact Nat.div_add_mod _ _

end KeyValueServer.ConnectionToken
