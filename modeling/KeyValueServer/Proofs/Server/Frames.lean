import KeyValueServer.Proofs.Wire.Grammar
import KeyValueServer.Wire.Request

/-!
# Requests in a run of bytes

What a client sends in one go is cut into requests: as many as follow each other from the start, and
a rest that does not begin with a request. There is exactly one way to do this.
-/

namespace KeyValueServer

open Token

/-- The frames of a request: the integer token of its command, then its byte strings. -/
inductive IsFrame : Request → Bytes → Prop
  | get {key code keyToken : Bytes} (hcode : IsNat 1 code) (hkey : IsString key keyToken) :
      IsFrame (.get key) (code ++ keyToken)
  | set {key value code keyToken valueToken : Bytes} (hcode : IsNat 2 code)
      (hkey : IsString key keyToken) (hvalue : IsString value valueToken) :
      IsFrame (.set key value) (code ++ (keyToken ++ valueToken))

/-- Whether bytes begin with a request. -/
def BeginsWithFrame (bytes : Bytes) : Prop :=
  ∃ request frame rest, IsFrame request frame ∧ bytes = frame ++ rest

/-- Bytes are the frames of these requests and a rest that does not begin with a request. -/
inductive IsCut : Bytes → List Request → Bytes → Prop
  | rest {rest : Bytes} (hrest : ¬BeginsWithFrame rest) : IsCut rest [] rest
  | frame {request : Request} {frame bytes rest : Bytes} {requests : List Request}
      (hframe : IsFrame request frame) (hcut : IsCut bytes requests rest) :
      IsCut (frame ++ bytes) (request :: requests) rest

theorem IsFrame.length_pos {request : Request} {frame : Bytes} (h : IsFrame request frame) :
    0 < frame.length := by
  cases h with
  | get hcode =>
      have hpos := hcode.length_pos
      rw [List.length_append]
      omega
  | set hcode =>
      have hpos := hcode.length_pos
      rw [List.length_append]
      omega

/-- Bytes begin with at most one request. -/
theorem IsFrame.unique {request request' : Request} {frame frame' rest rest' : Bytes}
    (h : IsFrame request frame) (h' : IsFrame request' frame')
    (heq : frame ++ rest = frame' ++ rest') :
    request = request' ∧ frame = frame' ∧ rest = rest' := by
  cases h with
  | get hcode hkey =>
      cases h' with
      | get hcode' hkey' =>
          simp only [List.append_assoc] at heq
          obtain ⟨-, rfl, hafter⟩ := hcode.unique hcode' heq
          obtain ⟨rfl, rfl, rfl⟩ := hkey.unique hkey' hafter
          exact ⟨rfl, rfl, rfl⟩
      | set hcode' =>
          simp only [List.append_assoc] at heq
          obtain ⟨hcodes, -⟩ := hcode.unique hcode' heq
          contradiction
  | set hcode hkey hvalue =>
      cases h' with
      | get hcode' =>
          simp only [List.append_assoc] at heq
          obtain ⟨hcodes, -⟩ := hcode.unique hcode' heq
          contradiction
      | set hcode' hkey' hvalue' =>
          simp only [List.append_assoc] at heq
          obtain ⟨-, rfl, hafter⟩ := hcode.unique hcode' heq
          obtain ⟨rfl, rfl, hlast⟩ := hkey.unique hkey' hafter
          obtain ⟨rfl, rfl, rfl⟩ := hvalue.unique hvalue' hlast
          exact ⟨rfl, rfl, rfl⟩

/-- Every run of bytes can be cut. -/
theorem exists_isCut (bytes : Bytes) : ∃ requests rest, IsCut bytes requests rest := by
  -- A frame is not empty, so what follows it is shorter.
  induction hlength : bytes.length using Nat.strong_induction_on generalizing bytes with
  | _ length ih =>
      by_cases hbegins : BeginsWithFrame bytes
      · obtain ⟨request, frame, rest, hframe, rfl⟩ := hbegins
        have hpos := hframe.length_pos
        rw [List.length_append] at hlength
        obtain ⟨requests, last, hcut⟩ := ih rest.length (by omega) rest rfl
        exact ⟨request :: requests, last, .frame hframe hcut⟩
      · exact ⟨[], bytes, .rest hbegins⟩

/-- Bytes can be cut in no more than one way. -/
theorem IsCut.unique {bytes rest rest' : Bytes} {requests requests' : List Request}
    (h : IsCut bytes requests rest) (h' : IsCut bytes requests' rest') :
    requests' = requests ∧ rest' = rest := by
  -- On the first cut. The second begins with the same frame, since bytes begin with at most one.
  induction h generalizing requests' rest' with
  | rest hrest =>
      cases h' with
      | rest => exact ⟨rfl, rfl⟩
      | frame hframe => exact absurd ⟨_, _, _, hframe, rfl⟩ hrest
  | @frame request frame bytes rest requests hframe hcut ih =>
      generalize hbytes : frame ++ bytes = whole at h'
      cases h' with
      | rest hrest => exact absurd ⟨_, _, _, hframe, hbytes.symm⟩ hrest
      | frame hframe' hcut' =>
          obtain ⟨rfl, -, rfl⟩ := hframe.unique hframe' hbytes
          obtain ⟨rfl, rfl⟩ := ih hcut'
          exact ⟨rfl, rfl⟩

end KeyValueServer
