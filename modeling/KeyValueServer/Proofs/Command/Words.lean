import KeyValueServer.Bytes
import Mathlib.Data.List.TakeWhile

/-!
# The words of a line

Which words a line has is said here without a reader: they are its longest runs of bytes that are no
separators, in their order. Between two of them stands a gap of one or more separators, and there
may be gaps at both ends of the line. A reader that cuts the line at every single separator and
drops what is empty finds exactly these words.
-/

namespace KeyValueServer

/-! ## Pieces -/

section Pieces

variable {α : Type} {isSeparator : α → Bool}

theorem pieces_ne_nil (items : List α) : pieces isSeparator items ≠ [] := by
  cases items with
  | nil => simp [pieces]
  | cons a rest =>
      rw [pieces]
      split
      · simp
      · split <;> simp

theorem pieces_of_forall_not {piece : List α} (h : ∀ a ∈ piece, isSeparator a = false) :
    pieces isSeparator piece = [piece] := by
  induction piece with
  | nil => rfl
  | cons a rest ih =>
      obtain ⟨ha, hrest⟩ := List.forall_mem_cons.mp h
      simp [pieces, ha, ih hrest]

/-- A separator ends one piece and begins the next. -/
theorem pieces_append_cons {separator : α} (h : isSeparator separator = true)
    (first second : List α) :
    pieces isSeparator (first ++ separator :: second) =
      pieces isSeparator first ++ pieces isSeparator second := by
  induction first with
  | nil => simp [pieces, h]
  | cons a first ih =>
      rw [List.cons_append, pieces, pieces, ih]
      by_cases ha : isSeparator a = true
      · rw [if_pos ha, if_pos ha, List.cons_append]
      · rw [if_neg ha, if_neg ha]
        cases hfirst : pieces isSeparator first with
        | nil => exact absurd hfirst (pieces_ne_nil first)
        | cons piece others => rfl

theorem pieces_congr {first second : α → Bool} {items : List α}
    (h : ∀ a ∈ items, first a = second a) : pieces first items = pieces second items := by
  induction items with
  | nil => rfl
  | cons a rest ih =>
      obtain ⟨ha, hrest⟩ := List.forall_mem_cons.mp h
      rw [pieces, pieces, ha, ih hrest]

end Pieces

/-! ## Words -/

section Words

variable {isSeparator : UInt8 → Bool} {line : Bytes}

theorem words_of_forall_not {word : Bytes} (hne : word ≠ [])
    (h : ∀ b ∈ word, isSeparator b = false) : words isSeparator word = [word] := by
  rw [words, pieces_of_forall_not h]
  simpa using hne

theorem words_append_cons {separator : UInt8} (h : isSeparator separator = true)
    (first second : Bytes) :
    words isSeparator (first ++ separator :: second) =
      words isSeparator first ++ words isSeparator second := by
  rw [words, pieces_append_cons h, List.filter_append]
  rfl

theorem words_gap_append {gap : Bytes} (h : ∀ b ∈ gap, isSeparator b = true) (rest : Bytes) :
    words isSeparator (gap ++ rest) = words isSeparator rest := by
  induction gap with
  | nil => rfl
  | cons b gap ih =>
      obtain ⟨hb, hgap⟩ := List.forall_mem_cons.mp h
      rw [List.cons_append, ← List.nil_append (b :: (gap ++ rest)), words_append_cons hb, ih hgap]
      rfl

theorem words_of_gap {gap : Bytes} (h : ∀ b ∈ gap, isSeparator b = true) :
    words isSeparator gap = [] := by
  have hgap := words_gap_append h []
  rwa [List.append_nil] at hgap

/-- Words on both sides of a gap do not run together. -/
theorem words_append_gap {gap : Bytes} (hne : gap ≠ []) (h : ∀ b ∈ gap, isSeparator b = true)
    (first second : Bytes) :
    words isSeparator (first ++ (gap ++ second)) =
      words isSeparator first ++ words isSeparator second := by
  obtain ⟨b, gap, rfl⟩ := List.exists_cons_of_ne_nil hne
  obtain ⟨hb, hgap⟩ := List.forall_mem_cons.mp h
  rw [List.cons_append, words_append_cons hb, words_gap_append hgap]

theorem words_append_of_gap {gap : Bytes} (h : ∀ b ∈ gap, isSeparator b = true) (first : Bytes) :
    words isSeparator (first ++ gap) = words isSeparator first := by
  rcases eq_or_ne gap [] with rfl | hne
  · rw [List.append_nil]
  · rw [← List.append_nil gap, words_append_gap hne h]
    exact List.append_nil _

theorem words_congr {first second : UInt8 → Bool} (h : ∀ b ∈ line, first b = second b) :
    words first line = words second line := by
  rw [words, words, pieces_congr h]

end Words

/-- The words of a line, where `separators` are the bytes that stand between words: a gap, a longest
run of other bytes, and so on. What follows a word is nothing or begins with a separator. -/
inductive HasWords (separators : Bytes) : Bytes → List Bytes → Prop
  | gap {gap : Bytes} (hgap : gap ⊆ separators) : HasWords separators gap []
  | word {gap word rest : Bytes} {words : List Bytes} (hgap : gap ⊆ separators)
      (hne : word ≠ []) (hword : ∀ b ∈ word, b ∉ separators)
      (hend : ∀ b ∈ rest.head?, b ∈ separators) (hrest : HasWords separators rest words) :
      HasWords separators (gap ++ (word ++ rest)) (word :: words)

namespace HasWords

variable {isSeparator : UInt8 → Bool} {separators line : Bytes} {found : List Bytes}

/-- Each word is found, because a separator follows it or nothing does. -/
theorem words_eq (h : HasWords separators line found)
    (hseparator : ∀ b, isSeparator b = true ↔ b ∈ separators) :
    words isSeparator line = found := by
  induction h with
  | gap hgap => exact words_of_gap fun b hb => (hseparator b).mpr (hgap hb)
  | @word gap word rest found hgap hne hword hend _ ih =>
      have hfree : ∀ b ∈ word, isSeparator b = false := by
        intro b hb
        rw [← Bool.not_eq_true, hseparator]
        exact hword b hb
      rw [words_gap_append fun b hb => (hseparator b).mpr (hgap hb)]
      cases rest with
      | nil =>
          have hfound : words isSeparator [] = [] := rfl
          rw [hfound] at ih
          rw [List.append_nil, words_of_forall_not hne hfree, ← ih]
      | cons b rest =>
          have hb : isSeparator b = true := (hseparator b).mpr (hend b rfl)
          have hgap : words isSeparator (b :: rest) = words isSeparator rest :=
            words_gap_append (List.forall_mem_singleton.mpr hb) rest
          rw [words_append_cons hb, words_of_forall_not hne hfree, ← hgap, ih]
          rfl

/-- Every line has words: its first gap, its first word, and what follows them. -/
theorem exists_words (separators line : Bytes) : ∃ found, HasWords separators line found := by
  induction hlength : line.length using Nat.strong_induction_on generalizing line with
  | _ length ih =>
      subst hlength
      have hline := List.takeWhile_append_dropWhile (p := (· ∈ separators)) (l := line)
      have hgap : line.takeWhile (· ∈ separators) ⊆ separators := fun b hb => by
        simpa using List.mem_takeWhile_imp hb
      have hstop := List.head?_dropWhile_not (· ∈ separators) line
      generalize line.takeWhile (· ∈ separators) = gap at hline hgap
      generalize line.dropWhile (· ∈ separators) = rest at hline hstop
      cases rest with
      | nil => exact ⟨[], by rw [← hline, List.append_nil]; exact .gap hgap⟩
      | cons b rest =>
          have hb : b ∉ separators := by simpa using hstop
          have hrest := List.takeWhile_append_dropWhile (p := (· ∉ separators)) (l := b :: rest)
          have hword : ∀ c ∈ (b :: rest).takeWhile (· ∉ separators), c ∉ separators :=
            fun c hc => by simpa using List.mem_takeWhile_imp hc
          have hend := List.head?_dropWhile_not (· ∉ separators) (b :: rest)
          have hne : (b :: rest).takeWhile (· ∉ separators) ≠ [] := by simp [hb]
          generalize (b :: rest).takeWhile (· ∉ separators) = word at hrest hword hne
          generalize (b :: rest).dropWhile (· ∉ separators) = after at hrest hend
          have hshorter : after.length < line.length := by
            have hpos := List.length_pos_iff.mpr hne
            rw [← hline, ← hrest, List.length_append, List.length_append]
            omega
          obtain ⟨found, hfound⟩ := ih _ hshorter after rfl
          refine ⟨word :: found, ?_⟩
          rw [← hline, ← hrest]
          refine .word hgap hne hword (fun c hc => ?_) hfound
          rw [Option.mem_def.mp hc] at hend
          simpa using hend

/-- A line has the words that the reader finds, and no others. -/
theorem iff_words_eq (hseparator : ∀ b, isSeparator b = true ↔ b ∈ separators) :
    HasWords separators line found ↔ words isSeparator line = found := by
  refine ⟨fun h => h.words_eq hseparator, ?_⟩
  rintro rfl
  obtain ⟨found, hfound⟩ := exists_words separators line
  rwa [hfound.words_eq hseparator]

/-- With one more separator, the words of a line are those of its words. -/
theorem words_cons {separator : UInt8} (h : HasWords separators line found)
    (hseparator : ∀ b, isSeparator b = true ↔ b = separator ∨ b ∈ separators) :
    words isSeparator line = found.flatMap (words (· == separator)) := by
  have hgaps : ∀ gap : Bytes, gap ⊆ separators → ∀ b ∈ gap, isSeparator b = true :=
    fun gap hgap b hb => (hseparator b).mpr (.inr (hgap hb))
  induction h with
  | gap hgap => rw [words_of_gap (hgaps _ hgap), List.flatMap_nil]
  | @word gap word rest found hgap hne hword hend hrest ih =>
      have hinner : words isSeparator word = words (· == separator) word := by
        refine words_congr fun b hb => ?_
        rw [Bool.eq_iff_iff, hseparator b, beq_iff_eq, or_iff_left (hword b hb)]
      rw [words_gap_append (hgaps gap hgap), List.flatMap_cons, ← hinner]
      cases rest with
      | nil =>
          rw [List.append_nil, ← ih]
          exact (List.append_nil _).symm
      | cons b rest =>
          have hb : isSeparator b = true := (hseparator b).mpr (.inr (hend b rfl))
          have hgap : words isSeparator (b :: rest) = words isSeparator rest :=
            words_gap_append (List.forall_mem_singleton.mpr hb) rest
          rw [words_append_cons hb, ← hgap, ih]

/-- Words are never empty and hold no separator. -/
theorem of_mem (h : HasWords separators line found) {word : Bytes} (hword : word ∈ found) :
    word ≠ [] ∧ ∀ b ∈ word, b ∉ separators := by
  induction h with
  | gap => contradiction
  | word _ hne hfree _ _ ih =>
      rcases List.mem_cons.mp hword with rfl | hlater
      · exact ⟨hne, hfree⟩
      · exact ih hlater

end HasWords

end KeyValueServer
