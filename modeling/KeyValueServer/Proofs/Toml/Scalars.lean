import KeyValueServer.Proofs.Command.Words
import KeyValueServer.Toml.Document
import Mathlib.Data.List.Basic

/-!
# Numbers and truth values that were written

A number or a word for truth that was written at the end of a line can be read back. What has to be
shown beside its value is that it is not taken for something else: a date or a time, a number to
another base, or one with leading zeros.
-/

namespace KeyValueServer.Toml

/-! ## No date or time -/

namespace DateTime

variable {width low high n : Nat} {after digits : List Char}

theorem part?_cons_of_not_isDigit {c : Char} (hc : c.isDigit = false) (hwidth : 0 < width)
    (low high : Nat) (s : List Char) : part? width low high (c :: s) = none := by
  obtain ⟨count, rfl⟩ := Nat.exists_eq_add_of_lt hwidth
  simp [part?, List.take_succ_cons, hc]

/-- A part takes some of the digits at the end of a line. -/
theorem exists_digits_of_part? (hdigits : ∀ d ∈ digits, d.isDigit = true) {rest : List Char}
    (h : part? width low high (digits ++ '\n' :: rest) = some (n, after)) :
    ∃ more, (∀ d ∈ more, d.isDigit = true) ∧ after = more ++ '\n' :: rest := by
  unfold part? at h
  dsimp only at h
  split at h
  next hpart =>
    obtain rfl := (Prod.mk.inj (Option.some.inj h)).2
    have hwidth : width ≤ digits.length := by
      by_contra hshort
      have hmem : '\n' ∈ (digits ++ '\n' :: rest).take width := by
        obtain ⟨count, hcount⟩ := Nat.exists_eq_add_of_lt (not_le.mp hshort)
        rw [List.take_append, List.mem_append, show width - digits.length = count + 1 by omega]
        exact .inr List.mem_cons_self
      exact absurd (List.all_eq_true.mp hpart.2.1 '\n' hmem) (by decide)
    refine ⟨digits.drop width, fun d hd => hdigits d (List.mem_of_mem_drop hd), ?_⟩
    rw [List.drop_append_of_le_length hwidth]
  · contradiction

theorem after?_of_digits {c : Char} (hc : c.isDigit = false) (hnewline : '\n' ≠ c)
    (hdigits : ∀ d ∈ digits, d.isDigit = true) (rest : List Char) :
    after? c (digits ++ '\n' :: rest) = none := by
  cases digits with
  | nil => exact if_neg hnewline
  | cons d digits =>
      refine if_neg ?_
      rintro rfl
      rw [hdigits d List.mem_cons_self] at hc
      contradiction

/-- A text that begins with no digit is no date and no time. -/
theorem read?_cons_of_not_isDigit {c : Char} (hc : c.isDigit = false) (s : List Char) :
    read? (c :: s) = none := by
  have hdate : date? (c :: s) = none := by
    rw [date?, part?_cons_of_not_isDigit hc (by decide)]
    rfl
  rw [read?, hdate]
  simp only
  rw [time?, part?_cons_of_not_isDigit hc (by decide)]
  rfl

/-- Neither are digits at the end of a line. -/
theorem read?_of_digits (hdigits : ∀ d ∈ digits, d.isDigit = true) (rest : List Char) :
    read? (digits ++ '\n' :: rest) = none := by
  have hdate : date? (digits ++ '\n' :: rest) = none := by
    unfold date?
    rcases hpart : part? 4 0 9999 (digits ++ '\n' :: rest) with _ | ⟨year, after⟩
    · rfl
    · obtain ⟨more, hmore, rfl⟩ := exists_digits_of_part? hdigits hpart
      have hdash : after? '-' (more ++ '\n' :: rest) = none :=
        after?_of_digits (by decide) (by decide) hmore rest
      simp [hdash]
  rw [read?, hdate]
  simp only
  unfold time?
  rcases hpart : part? 2 0 23 (digits ++ '\n' :: rest) with _ | ⟨hour, after⟩
  · rfl
  · obtain ⟨more, hmore, rfl⟩ := exists_digits_of_part? hdigits hpart
    have hcolon : after? ':' (more ++ '\n' :: rest) = none :=
      after?_of_digits (by decide) (by decide) hmore rest
    simp [hcolon]

end DateTime

/-! ## Decimal digits -/

section Digits

theorem isDigit_of_mem_toDigits {n : Nat} {c : Char} (h : c ∈ Nat.toDigits 10 n) :
    c.isDigit = true :=
  Nat.isDigit_of_mem_toDigits (by decide) (by decide) h

theorem head?_toDigits_ne {n : Nat} (h : n ≠ 0) : (Nat.toDigits 10 n).head? ≠ some '0' := by
  induction n using Nat.strong_induction_on with
  | _ n ih =>
      rw [Nat.toDigits_eq_if (by decide)]
      split
      · simpa using h
      next hlarge =>
        have hfirst := ih (n / 10) (by omega) (by omega)
        obtain ⟨c, rest, hcons⟩ :=
          List.exists_cons_of_ne_nil (Nat.toDigits_ne_nil (n := n / 10) (b := 10))
        rw [hcons] at hfirst ⊢
        exact hfirst

theorem valueOf_toDigits (n : Nat) : valueOf 10 (Nat.toDigits 10 n) = n := by
  have hvalue : valueOf 10 (Nat.toDigits 10 n) = Nat.ofDigitChars 10 (Nat.toDigits 10 n) 0 := by
    rw [valueOf, Nat.ofDigitChars_eq_foldl]
    refine List.foldl_ext _ _ _ fun value c hc => ?_
    rw [if_pos (isDigit_of_mem_toDigits hc), Nat.mul_comm]
    rfl
  rw [hvalue, Nat.ofDigitChars_ten_toDigits]

theorem digits?_toDigits (n : Nat) :
    digits? Char.isDigit (Nat.toDigits 10 n) = some (Nat.toDigits 10 n) := by
  have hpieces : pieces (· == '_') (Nat.toDigits 10 n) = [Nat.toDigits 10 n] :=
    pieces_of_forall_not fun c hc => by
      rw [beq_eq_false_iff_ne]
      rintro rfl
      exact absurd (isDigit_of_mem_toDigits hc) (by decide)
  have hall : (Nat.toDigits 10 n).all Char.isDigit = true :=
    List.all_eq_true.mpr fun c hc => isDigit_of_mem_toDigits hc
  simp only [digits?, hpieces]
  simp [hall]

/-- There are no leading zeros to refuse. -/
theorem plainDigits?_toDigits (n : Nat) :
    plainDigits? (Nat.toDigits 10 n) = some (Nat.toDigits 10 n) := by
  unfold plainDigits?
  rw [digits?_toDigits]
  split
  next c rest heq =>
    have hdigits := Option.some.inj heq
    have hzero : n = 0 := Classical.not_not.mp fun hne =>
      head?_toDigits_ne hne (by rw [hdigits, List.head?_cons])
    rw [hzero, Nat.toDigits_zero] at hdigits
    simp at hdigits
  · rfl

end Digits

/-! ## Integers -/

section Integers

variable {n : Int}

/-- How an integer is written. -/
theorem toList_toString (n : Int) : (toString n).toList =
    if 0 ≤ n then Nat.toDigits 10 n.toNat else '-' :: Nat.toDigits 10 (-n).toNat := by
  rw [Int.toString_eq_repr, Int.repr_eq_if]
  split
  · rw [Nat.toList_repr]
  · rw [String.toList_append, Nat.toList_repr]
    rfl

theorem isDigit_or_eq_of_mem_toString {c : Char} (h : c ∈ (toString n).toList) :
    c.isDigit = true ∨ c = '-' := by
  rw [toList_toString] at h
  split at h
  · exact .inl (isDigit_of_mem_toDigits h)
  · obtain rfl | h := List.mem_cons.mp h
    · exact .inr rfl
    · exact .inl (isDigit_of_mem_toDigits h)

theorem signed_toDigits (m : Nat) : signed (Nat.toDigits 10 m) = (false, Nat.toDigits 10 m) := by
  have hdigit : ∀ c ∈ Nat.toDigits 10 m, c.isDigit = true := fun _ => isDigit_of_mem_toDigits
  unfold signed
  split
  next heq => exact absurd (hdigit '-' (heq ▸ List.mem_cons_self)) (by decide)
  next heq => exact absurd (hdigit '+' (heq ▸ List.mem_cons_self)) (by decide)
  · rfl

/-- Digits alone name no other base. -/
theorem number?_toDigits (m : Nat) : number? (Nat.toDigits 10 m) = integer m := by
  have hdigit : ∀ c ∈ Nat.toDigits 10 m, c.isDigit = true := fun _ => isDigit_of_mem_toDigits
  unfold number?
  split
  next heq => exact absurd (hdigit 'x' (by simp [heq])) (by decide)
  next heq => exact absurd (hdigit 'o' (by simp [heq])) (by decide)
  next heq => exact absurd (hdigit 'b' (by simp [heq])) (by decide)
  · simp only [signed_toDigits, plainDigits?_toDigits, valueOf_toDigits, Bool.false_eq_true,
      if_false]

theorem number?_toString (n : Int) : number? (toString n).toList = integer n := by
  rw [toList_toString]
  split
  next hn => rw [number?_toDigits, Int.toNat_of_nonneg hn]
  next hn =>
    simp only [number?, signed, plainDigits?_toDigits, valueOf_toDigits, if_true]
    rw [Int.toNat_of_nonneg (by omega), Int.neg_neg]
    rfl

theorem integer_of_le (hlow : Int64.minValue.toInt ≤ n) (hhigh : n ≤ Int64.maxValue.toInt) :
    integer n = some (.integer n) :=
  if_pos ⟨hlow, hhigh⟩

theorem read?_toString (n : Int) (rest : List Char) :
    DateTime.read? ((toString n).toList ++ '\n' :: rest) = none := by
  rw [toList_toString]
  split
  · exact DateTime.read?_of_digits (fun _ => isDigit_of_mem_toDigits) rest
  · exact DateTime.read?_cons_of_not_isDigit (by decide) _

/-- An integer at the end of a line reads back. -/
theorem scalar?_toString (hlow : Int64.minValue.toInt ≤ n) (hhigh : n ≤ Int64.maxValue.toInt)
    (rest : List Char) :
    scalar? ((toString n).toList ++ '\n' :: rest) = some (.integer n, '\n' :: rest) := by
  have hword : ∀ c ∈ (toString n).toList, isWordChar c = true := by
    intro c hc
    obtain hc | rfl := isDigit_or_eq_of_mem_toString hc
    · simp [isWordChar, Char.isAlphanum, hc]
    · decide
  have hno : ∀ c, c.isDigit = false → c ≠ '-' → c ∉ (toString n).toList := by
    intro c hc hdash hmem
    rw [(isDigit_or_eq_of_mem_toString hmem).resolve_right hdash] at hc
    contradiction
  have htrue : (toString n).toList ≠ "true".toList := fun heq =>
    hno 't' (by decide) (by decide) (heq ▸ by decide)
  have hfalse : (toString n).toList ≠ "false".toList := fun heq =>
    hno 'f' (by decide) (by decide) (heq ▸ by decide)
  have hend : ¬isWordChar '\n' = true := by decide
  unfold scalar?
  rw [read?_toString]
  simp only [List.takeWhile_append_of_pos hword, List.dropWhile_append_of_pos hword,
    List.takeWhile_cons_of_neg hend, List.dropWhile_cons_of_neg hend, List.append_nil, if_neg htrue,
    if_neg hfalse, number?_toString, integer_of_le hlow hhigh, Option.map_some]

end Integers

/-- So does a word for truth. -/
theorem scalar?_boolean (value : Bool) (rest : List Char) :
    scalar? ((if value then "true" else "false").toList ++ '\n' :: rest) =
      some (.boolean value, '\n' :: rest) := by
  have hread :
      DateTime.read? ((if value then "true" else "false").toList ++ '\n' :: rest) = none := by
    cases value <;> exact DateTime.read?_cons_of_not_isDigit (by decide) _
  unfold scalar?
  rw [hread]
  cases value <;> rfl

end KeyValueServer.Toml
