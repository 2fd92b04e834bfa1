import KeyValueServer.Toml.Quoting
import Mathlib.Data.List.TakeWhile

/-!
# Strings that were written

Every text can be read back from the string that was written for it, whichever form it was written
in. The readers go over a string character by character, so what has to be known about a form is how
one character stands in it and where its closing quotes are found.
-/

namespace KeyValueServer.Toml

/-! ## Runs of quotes -/

section Runs

variable {q : Char} {text : List Char}

theorem quoteRun_cons (q : Char) (s : List Char) : quoteRun q (q :: s) = quoteRun q s + 1 := by
  simp [quoteRun]

theorem quoteRun_cons_of_ne {c : Char} (h : c ≠ q) (s : List Char) : quoteRun q (c :: s) = 0 := by
  simp [quoteRun, h]

theorem quoteRun_replicate_append (q : Char) (count : Nat) (s : List Char) :
    quoteRun q (List.replicate count q ++ s) = count + quoteRun q s := by
  simp [quoteRun, List.takeWhile_append_of_pos]

theorem quoteRun_replicate (q : Char) (count : Nat) :
    quoteRun q (List.replicate count q) = count := by
  simp [quoteRun]

theorem quoteRun_append_of_ne (h : ∃ c ∈ text, c ≠ q) (s : List Char) :
    quoteRun q (text ++ s) = quoteRun q text := by
  induction text with
  | nil => simp at h
  | cons c text ih =>
      rw [List.cons_append]
      by_cases hc : c = q
      · subst hc
        obtain ⟨d, hd, hne⟩ := h
        rw [quoteRun_cons, quoteRun_cons, ih ⟨d, (List.mem_cons.mp hd).resolve_left hne, hne⟩]
      · rw [quoteRun_cons_of_ne hc, quoteRun_cons_of_ne hc]

/-- Behind an opening quote, a text that does not begin with a quote is not taken for one of several
lines. -/
theorem quoteRun_append_cons_lt {rest : List Char} (htext : quoteRun q text = 0)
    (hrest : quoteRun q rest = 0) : quoteRun q (text ++ q :: rest) < 2 := by
  cases text with
  | nil => rw [List.nil_append, quoteRun_cons, hrest]; decide
  | cons c text =>
      have hc : c ≠ q := by
        rintro rfl
        rw [quoteRun_cons] at htext
        contradiction
      rw [List.cons_append, quoteRun_cons_of_ne hc]
      decide

/-- Quotes with something else behind them close no string if they are fewer than three. -/
theorem quoteRun_lt_three (hrun : quoteRun q text ≤ 2) (h : ∃ c ∈ text, c ≠ q)
    (s : List Char) : ¬3 ≤ quoteRun q (text ++ s) := by
  rw [quoteRun_append_of_ne h]
  omega

theorem replicate_or_exists_ne (q : Char) (text : List Char) :
    (∃ count, text = List.replicate count q) ∨ ∃ c ∈ text, c ≠ q := by
  by_cases h : ∃ c ∈ text, c ≠ q
  · exact .inr h
  · refine .inl ⟨text.length, List.eq_replicate_iff.mpr ⟨rfl, fun c hc => ?_⟩⟩
    exact Classical.not_not.mp fun hne => h ⟨c, hc, hne⟩

theorem foldl_max_le_iff {bound start : Nat} {counts : List Nat} :
    counts.foldl max start ≤ bound ↔ start ≤ bound ∧ ∀ count ∈ counts, count ≤ bound := by
  induction counts generalizing start with
  | nil => simp
  | cons count counts ih => rw [List.foldl_cons, ih, Nat.max_le, List.forall_mem_cons, and_assoc]

theorem longestRun_le_iff {bound : Nat} :
    longestRun q text ≤ bound ↔ ∀ piece ∈ pieces (· != q) text, piece.length ≤ bound := by
  simp [longestRun, foldl_max_le_iff]

theorem head?_pieces (q : Char) (text : List Char) :
    (pieces (· != q) text).head? = some (text.takeWhile (· == q)) := by
  induction text with
  | nil => rfl
  | cons c text ih =>
      rw [pieces, List.takeWhile_cons]
      by_cases hc : c = q
      · subst hc
        simp only [bne_self_eq_false, Bool.false_eq_true, if_false, beq_self_eq_true, if_true]
        cases hpieces : pieces (· != c) text with
        | nil => rw [hpieces] at ih; simp at ih
        | cons piece others =>
            rw [hpieces] at ih
            simpa using ih
      · simp [hc]

/-- Where a text has no long run it begins with none, and neither does what follows its first
character. -/
theorem quoteRun_le_and_longestRun_le {c : Char} {bound : Nat}
    (h : longestRun q (c :: text) ≤ bound) :
    quoteRun q (c :: text) ≤ bound ∧ longestRun q text ≤ bound := by
  rw [longestRun_le_iff] at h ⊢
  refine ⟨h _ (List.mem_of_mem_head? (head?_pieces q (c :: text))), fun piece hpiece => ?_⟩
  rw [pieces] at h
  split at h
  · exact h piece (List.mem_cons_of_mem _ hpiece)
  · cases hpieces : pieces (· != q) text with
    | nil => rw [hpieces] at hpiece; simp at hpiece
    | cons first others =>
        rw [hpieces] at h hpiece
        obtain rfl | hpiece := List.mem_cons.mp hpiece
        · exact (Nat.le_succ _).trans (h (c :: piece) List.mem_cons_self)
        · exact h piece (List.mem_cons_of_mem _ hpiece)

theorem not_mem_of_longestRun (h : longestRun q text = 0) : q ∉ text := by
  induction text with
  | nil => simp
  | cons c text ih =>
      obtain ⟨hrun, hrest⟩ := quoteRun_le_and_longestRun_le h.le
      intro hmem
      obtain rfl | hmem := List.mem_cons.mp hmem
      · rw [quoteRun_cons] at hrun
        contradiction
      · exact ih (Nat.le_zero.mp hrest) hmem

end Runs

/-! ## Escapes -/

theorem hexDigit?_upperHexDigit {n : Nat} (h : n < 16) : hexDigit? (upperHexDigit n) = some n := by
  revert n
  decide

/-- How a character other than a quote is written between double quotes. -/
def written (quotes : Nat) (c : Char) : List Char :=
  if c = '\\' then ['\\', '\\']
  else if c = '\t' then ['\\', 't']
  else if c = '\n' then (if quotes = 0 then ['\\', 'n'] else ['\n'])
  else if c = '\r' then ['\\', 'r']
  else if c.toNat = 8 then ['\\', 'b']
  else if c.toNat = 12 then ['\\', 'f']
  else if c < ' ' ∨ c.toNat = 0x7F then escapedCodePoint c
  else [c]

theorem escaped_cons_of_ne {c : Char} (h : c ≠ '"') (quotes run : Nat) (text : List Char) :
    escaped quotes run (c :: text) = written quotes c ++ escaped quotes 0 text := by
  rw [escaped, if_neg h]
  rfl

/-- What may stand for a character between double quotes: the character itself, if it shows, the
end of a line, where the string runs over several, or an escape. -/
inductive Stands (quotes : Nat) : Char → List Char → Prop
  | shown {c : Char} (hshown : isShown c = true) (hquote : c ≠ '"') (hbackslash : c ≠ '\\') :
      Stands quotes c [c]
  | newline (h : quotes ≠ 0) : Stands quotes '\n' ['\n']
  | escape {c d : Char} {code : List Char} (hd : d ≠ '\n' ∧ d ≠ '\r' ∧ isSpace d = false)
      (h : ∀ after, escape? (d :: (code ++ after)) = some (c, after)) :
      Stands quotes c ('\\' :: d :: code)

theorem Stands.exists_eq_cons {quotes : Nat} {c : Char} {code : List Char}
    (h : Stands quotes c code) : ∃ d rest, code = d :: rest ∧ d ≠ '"' := by
  cases h with
  | shown _ hquote _ => exact ⟨_, _, rfl, hquote⟩
  | newline _ => exact ⟨_, _, rfl, by decide⟩
  | escape _ _ => exact ⟨_, _, rfl, by decide⟩

theorem stands_quote (quotes : Nat) : Stands quotes '"' ['\\', '"'] :=
  .escape (d := '"') (by decide) fun _ => rfl

theorem escape?_codePoint {c : Char} (h : c.toNat < 128) (after : List Char) :
    escape? ('u' :: ('0' :: '0' :: upperHexDigit (c.toNat / 16) :: upperHexDigit (c.toNat % 16) ::
      after)) = some (c, after) := by
  have hhigh := hexDigit?_upperHexDigit (show c.toNat / 16 < 16 by omega)
  have hlow := hexDigit?_upperHexDigit (show c.toNat % 16 < 16 by omega)
  have hvalue : (c.toNat / 16) * 16 + c.toNat % 16 = c.toNat := by omega
  have hvalid : c.toNat.isValidChar := c.valid
  have hzero : hexDigit? '0' = some 0 := by decide
  simp [escape?, codePoint?, hhigh, hlow, hzero, hvalue, hvalid]

theorem stands_written {c : Char} (h : c ≠ '"') (quotes : Nat) :
    Stands quotes c (written quotes c) := by
  unfold written
  split
  next hc =>
    subst hc
    exact .escape (by decide) fun _ => rfl
  split
  next hc =>
    subst hc
    exact .escape (by decide) fun _ => rfl
  split
  next hc =>
    subst hc
    split
    · exact .escape (by decide) fun _ => rfl
    next hquotes => exact .newline hquotes
  split
  next hc =>
    subst hc
    exact .escape (by decide) fun _ => rfl
  split
  next hc =>
    refine .escape (by decide) fun after => ?_
    rw [← Char.ofNat_toNat c, hc]
    rfl
  split
  next hc =>
    refine .escape (by decide) fun after => ?_
    rw [← Char.ofNat_toNat c, hc]
    rfl
  split
  next hc =>
    refine .escape (by decide) fun after => escape?_codePoint ?_ after
    rcases hc with hc | hc
    · exact Nat.lt_trans hc (by decide)
    · omega
  next hbackslash _ _ _ _ _ hc =>
    refine .shown ?_ h hbackslash
    rw [not_or, Char.not_lt] at hc
    simp [isShown, hc]

/-! ## Basic strings -/

section Basic

variable {c : Char} {code after rest : List Char}

/-- A character in front of what a reader returns. -/
def prepend (c : Char) (result : List Char × List Char) : List Char × List Char :=
  (c :: result.1, result.2)

theorem basic?_of_stands (h : Stands 0 c code) (after : List Char) :
    basic? (code ++ after) = (basic? after).map (prepend c) := by
  cases h with
  | shown hshown hquote hbackslash =>
      rw [List.singleton_append, basic?, if_neg hquote, if_neg hbackslash, if_pos hshown]
      rfl
  | newline h => exact absurd rfl h
  | @escape c d code hd h =>
      have hlength : after.length ≤ (d :: (code ++ after)).length := by
        rw [List.length_cons, List.length_append]
        omega
      rw [List.cons_append, List.cons_append, basic?, if_neg (by decide), if_pos rfl, h]
      simp only [if_pos hlength]
      rfl

theorem basic?_escaped (run : Nat) (text rest : List Char) :
    basic? (escaped 0 run text ++ '"' :: rest) = some (text, rest) := by
  induction text generalizing run with
  | nil => rw [escaped, List.nil_append, basic?, if_pos rfl]
  | cons c text ih =>
      by_cases hc : c = '"'
      · subst hc
        rw [escaped, if_pos rfl, if_neg (Nat.not_lt_zero run)]
        have hread := basic?_of_stands (stands_quote 0) (escaped 0 0 text ++ '"' :: rest)
        rw [ih] at hread
        exact hread
      · rw [escaped_cons_of_ne hc, List.append_assoc, basic?_of_stands (stands_written hc 0), ih]
        rfl

theorem literal?_append {text : List Char} (h : ∀ c ∈ text, isShown c = true ∧ c ≠ '\'')
    (rest : List Char) : literal? (text ++ '\'' :: rest) = some (text, rest) := by
  induction text with
  | nil => simp [literal?]
  | cons c text ih =>
      obtain ⟨⟨hshown, hquote⟩, htext⟩ := List.forall_mem_cons.mp h
      rw [List.cons_append, literal?, if_neg hquote, if_pos hshown, ih htext]
      rfl

end Basic

/-! ## Strings of several lines -/

section Lines

variable {c : Char} {code after rest text : List Char}

theorem newline?_cons {c : Char} (hc : c ≠ '\n') (hc' : c ≠ '\r') (s : List Char) :
    newline? (c :: s) = none := by
  unfold newline?
  split
  next heq => exact absurd (List.cons.inj heq).1 hc
  next heq => exact absurd (List.cons.inj heq).1 hc'
  next => rfl

theorem newline?_of_isShown {c : Char} (hc : isShown c = true) (s : List Char) :
    newline? (c :: s) = none := by
  refine newline?_cons ?_ ?_ s <;> rintro rfl <;> exact absurd hc (by decide)

theorem newline?_of_stands {quotes : Nat} (h : Stands quotes c code) (hc : c ≠ '\n')
    (after : List Char) :
    newline? (code ++ after) = none := by
  cases h with
  | shown hshown _ _ => exact newline?_of_isShown hshown _
  | newline _ => exact absurd rfl hc
  | escape _ _ => exact newline?_cons (by decide) (by decide) _

theorem skipSpaces_cons {c : Char} (hc : isSpace c = false) (s : List Char) :
    skipSpaces (c :: s) = c :: s := by
  simp [skipSpaces, hc]

theorem lines?_of_stands {quotes : Nat} (h : Stands quotes c code) (after : List Char) :
    lines? (code ++ after) = (lines? after).map (prepend c) := by
  cases h with
  | shown hshown hquote hbackslash =>
      rw [List.singleton_append, lines?, if_neg hquote, if_neg hbackslash, if_pos hshown]
      rfl
  | newline h =>
      rw [List.singleton_append, lines?, if_neg (by decide), if_neg (by decide),
        if_neg (by decide)]
      simp only [newline?, Nat.le_refl, if_true]
      rfl
  | @escape c d code hd h =>
      obtain ⟨hn, hr, hspace⟩ := hd
      have hfold : skipFold? (d :: (code ++ after)) = none := by
        rw [skipFold?, skipSpaces_cons hspace, newline?_cons hn hr, Option.map_none]
      have hlength : after.length ≤ (d :: (code ++ after)).length := by
        rw [List.length_cons, List.length_append]
        omega
      rw [List.cons_append, List.cons_append, lines?, if_neg (by decide), if_pos rfl, hfold, h]
      simp only [if_pos hlength]
      rfl

/-- Three quotes, which close a string of several lines. -/
def closing (q : Char) : List Char := [q, q, q]

/-- Up to two quotes in front of the closing ones are the last ones of the string. -/
theorem exists_eq_cons_of_replicate (q : Char) {count : Nat} (hcount : count ≤ 2)
    (hrest : quoteRun q rest = 0) :
    ∃ s, List.replicate count q ++ (closing q ++ rest) = q :: s ∧ 3 ≤ quoteRun q (q :: s) ∧
      List.replicate (min (quoteRun q (q :: s) - 3) 2) q = List.replicate count q ∧
      (q :: s).drop (min (quoteRun q (q :: s)) 5) = rest := by
  have hall : List.replicate count q ++ (closing q ++ rest) =
      List.replicate (count + 3) q ++ rest := by
    rw [← List.replicate_append_replicate, List.append_assoc]
    rfl
  have hrun : quoteRun q (List.replicate (count + 3) q ++ rest) = count + 3 := by
    rw [quoteRun_replicate_append, hrest, Nat.add_zero]
  refine ⟨List.replicate (count + 2) q ++ rest, hall, ?_⟩
  have hcons : q :: (List.replicate (count + 2) q ++ rest) =
      List.replicate (count + 3) q ++ rest := rfl
  rw [hcons, hrun, Nat.add_sub_cancel, Nat.min_eq_left hcount, Nat.min_eq_left (by omega)]
  exact ⟨Nat.le_add_left 3 count, rfl, List.drop_left' (List.length_replicate ..)⟩

theorem quoteRun_escaped_le (quotes run : Nat) (text : List Char) :
    quoteRun '"' (escaped quotes run text) ≤ quotes - run := by
  induction text generalizing run with
  | nil => exact Nat.zero_le _
  | cons c text ih =>
      by_cases hc : c = '"'
      · subst hc
        rw [escaped, if_pos rfl]
        split
        · have hrest := ih (run + 1)
          rw [quoteRun_cons]
          omega
        · exact Nat.zero_le _
      · obtain ⟨d, code, hcode, hd⟩ := (stands_written hc quotes).exists_eq_cons
        rw [escaped_cons_of_ne hc, hcode, List.cons_append, quoteRun_cons_of_ne hd]
        exact Nat.zero_le _

/-- Only quotes are written as quotes alone. -/
theorem escaped_eq_of_forall (quotes run : Nat) (text : List Char)
    (h : ∀ d ∈ escaped quotes run text, d = '"') : escaped quotes run text = text := by
  induction text generalizing run with
  | nil => rfl
  | cons c text ih =>
      by_cases hc : c = '"'
      · subst hc
        rw [escaped, if_pos rfl] at h ⊢
        split at h
        next hrun =>
          rw [if_pos hrun, ih (run + 1) fun d hd => h d (List.mem_cons_of_mem _ hd)]
        next => exact absurd (h '\\' List.mem_cons_self) (by decide)
      · obtain ⟨d, code, hcode, hd⟩ := (stands_written hc quotes).exists_eq_cons
        rw [escaped_cons_of_ne hc, hcode] at h
        exact absurd (h d List.mem_cons_self) hd

theorem lines?_of_closing {count : Nat} (hcount : count ≤ 2) (hrest : quoteRun '"' rest = 0) :
    lines? (List.replicate count '"' ++ (closing '"' ++ rest)) =
      some (List.replicate count '"', rest) := by
  obtain ⟨s, heq, hclosed, htext, hafter⟩ := exists_eq_cons_of_replicate '"' hcount hrest
  rw [heq, lines?, if_pos rfl]
  simp only [if_pos hclosed, htext, hafter]

theorem lines?_quote (h : ¬3 ≤ quoteRun '"' ('"' :: after)) :
    lines? ('"' :: after) = (lines? after).map (prepend '"') := by
  rw [lines?, if_pos rfl]
  simp only [if_neg h]
  rfl

/-- No run of quotes that is written is taken for the closing ones: it is too short, or it stands at
the end, where the quotes in front of the last three belong to the text. -/
theorem lines?_escaped (hrest : quoteRun '"' rest = 0) (run : Nat) (text : List Char) :
    lines? (escaped 2 run text ++ (closing '"' ++ rest)) = some (text, rest) := by
  induction text generalizing run with
  | nil => exact lines?_of_closing (Nat.zero_le 2) hrest
  | cons c text ih =>
      have hrun := quoteRun_escaped_le 2 run (c :: text)
      -- Only where nothing but quotes is left can the reader be at the end of the string.
      obtain ⟨count, hall⟩ | hne := replicate_or_exists_ne '"' (escaped 2 run (c :: text))
      · have htext := escaped_eq_of_forall 2 run (c :: text)
          (hall ▸ fun d hd => (List.mem_replicate.mp hd).2)
        have hcount : count ≤ 2 - run := by rwa [hall, quoteRun_replicate] at hrun
        rw [hall, lines?_of_closing (hcount.trans (Nat.sub_le 2 run)) hrest, ← hall, htext]
      by_cases hc : c = '"'
      · subst hc
        have hopen := quoteRun_lt_three (hrun.trans (Nat.sub_le 2 run)) hne (closing '"' ++ rest)
        rw [escaped, if_pos rfl] at hopen ⊢
        split
        next hraw =>
          rw [if_pos hraw, List.cons_append] at hopen
          rw [List.cons_append, lines?_quote hopen, ih]
          rfl
        next =>
          have hread := lines?_of_stands (stands_quote 2)
            (escaped 2 0 text ++ (closing '"' ++ rest))
          rw [ih] at hread
          exact hread
      · rw [escaped_cons_of_ne hc, List.append_assoc, lines?_of_stands (stands_written hc 2), ih]
        rfl

theorem literalLines?_of_closing {count : Nat} (hcount : count ≤ 2)
    (hrest : quoteRun '\'' rest = 0) :
    literalLines? (List.replicate count '\'' ++ (closing '\'' ++ rest)) =
      some (List.replicate count '\'', rest) := by
  obtain ⟨s, heq, hclosed, htext, hafter⟩ := exists_eq_cons_of_replicate '\'' hcount hrest
  rw [heq, literalLines?, if_pos rfl]
  simp only [if_pos hclosed, htext, hafter]

theorem literalLines?_append (hrest : quoteRun '\'' rest = 0) (hruns : longestRun '\'' text ≤ 2)
    (htext : ∀ c ∈ text, isShown c = true ∨ c = '\n') :
    literalLines? (text ++ (closing '\'' ++ rest)) = some (text, rest) := by
  induction text with
  | nil => exact literalLines?_of_closing (Nat.zero_le 2) hrest
  | cons c text ih =>
      obtain ⟨hrun, hfewer⟩ := quoteRun_le_and_longestRun_le hruns
      obtain ⟨hc, htext⟩ := List.forall_mem_cons.mp htext
      obtain ⟨count, hall⟩ | hne := replicate_or_exists_ne '\'' (c :: text)
      · rw [hall, quoteRun_replicate] at hrun
        rw [hall, literalLines?_of_closing hrun hrest]
      have hopen := quoteRun_lt_three hrun hne (closing '\'' ++ rest)
      have hread := ih hfewer htext
      rw [List.cons_append] at hopen ⊢
      rw [literalLines?, hread]
      by_cases hquote : c = '\''
      · subst hquote
        simp only [if_neg hopen]
        rfl
      rw [if_neg hquote]
      split
      · rfl
      next hshown =>
        obtain rfl := hc.resolve_left hshown
        simp only [newline?, Nat.le_refl, if_true, hread]
        rfl

end Lines

/-! ## The form that was chosen -/

theorem isShown_of_isHidden {c : Char} (h : isHidden c = false) : isShown c = true ∨ c = '\n' := by
  simp only [isHidden, Bool.or_eq_false_iff, Bool.and_eq_false_iff, decide_eq_false_iff_not,
    Char.not_lt, bne_eq_false_iff_eq, beq_eq_false_iff_ne] at h
  obtain ⟨(hspace | htab) | hnewline, hdelete⟩ := h
  · exact .inl (by simp [isShown, hspace, hdelete])
  · exact .inl (by simp [isShown, htab])
  · exact .inr hnewline

/-- Literal forms are chosen only for texts that they take. -/
theorem ofText_cases (text : List Char) :
    Quoting.ofText text = .basic ∨
    (Quoting.ofText text = .literal ∧ ∀ c ∈ text, isShown c = true ∧ c ≠ '\'') ∨
    Quoting.ofText text = .lines ∨
    (Quoting.ofText text = .literalLines ∧ longestRun '\'' text ≤ 2 ∧
      ∀ c ∈ text, isShown c = true ∨ c = '\n') := by
  have hshown : text.any isHidden = false → ∀ c ∈ text, isShown c = true ∨ c = '\n' :=
    fun h c hc => isShown_of_isHidden (by simpa using List.any_eq_false.mp h c hc)
  unfold Quoting.ofText
  dsimp only
  split
  · exact .inl rfl
  split
  next h =>
    simp only [Bool.and_eq_true, Bool.not_eq_true', beq_iff_eq] at h
    obtain ⟨⟨hhidden, hsingle⟩, hnewline⟩ := h
    refine .inr (.inl ⟨rfl, fun c hc => ⟨(hshown hhidden c hc).resolve_right ?_, ?_⟩⟩)
    · rintro rfl
      rw [List.contains_iff_mem.mpr hc] at hnewline
      contradiction
    · rintro rfl
      exact not_mem_of_longestRun hsingle hc
  split
  · exact .inr (.inr (.inl rfl))
  split
  next h =>
    simp only [Bool.and_eq_true, Bool.not_eq_true', decide_eq_true_eq] at h
    exact .inr (.inr (.inr ⟨rfl, h.2, hshown h.1⟩))
  split
  · exact .inr (.inr (.inl rfl))
  · exact .inl rfl

section Forms

variable {s text : List Char}

theorem string?_of_quoteRun (h : quoteRun '"' s < 2) : string? ('"' :: s) = basic? s := by
  unfold string?
  split
  next heq =>
    obtain rfl := (List.cons.inj heq).2
    rw [quoteRun_cons, quoteRun_cons] at h
    omega
  next heq => rw [(List.cons.inj heq).2]
  next heq => exact absurd (List.cons.inj heq).1 (by decide)
  next heq => exact absurd (List.cons.inj heq).1 (by decide)
  next hbasic _ _ => exact absurd rfl (hbasic s)

theorem string?_of_single (h : quoteRun '\'' s < 2) : string? ('\'' :: s) = literal? s := by
  unfold string?
  split
  next heq => exact absurd (List.cons.inj heq).1 (by decide)
  next heq => exact absurd (List.cons.inj heq).1 (by decide)
  next heq =>
    obtain rfl := (List.cons.inj heq).2
    rw [quoteRun_cons, quoteRun_cons] at h
    omega
  next heq => rw [(List.cons.inj heq).2]
  next _ _ _ hliteral => exact absurd rfl (hliteral s)

/-- The end of line that was put behind the quotes is not taken for a part of the text, and no other
one is passed over. -/
theorem skipFirstNewline_append (h : '\n' ∉ text → newline? s = none) :
    skipFirstNewline (leadingNewline text ++ s) = s := by
  unfold leadingNewline
  split
  · rfl
  next hnewline =>
    rw [List.nil_append, skipFirstNewline, h (by simpa using hnewline)]
    rfl

theorem newline?_escaped (h : '\n' ∉ text) (rest : List Char) :
    newline? (escaped 2 0 text ++ '"' :: rest) = none := by
  cases text with
  | nil => rfl
  | cons c text =>
      by_cases hquote : c = '"'
      · subst hquote
        rfl
      · rw [escaped_cons_of_ne hquote, List.append_assoc]
        refine newline?_of_stands (stands_written hquote 2) ?_ _
        rintro rfl
        exact h List.mem_cons_self

/-- A string that was written reads back as its text. What follows it must begin with no quote. -/
theorem string?_writeString (text : List Char) {rest : List Char} (hdouble : quoteRun '"' rest = 0)
    (hsingle : quoteRun '\'' rest = 0) :
    string? (writeString text ++ rest) = some (text, rest) := by
  unfold writeString
  obtain hform | ⟨hform, htext⟩ | hform | ⟨hform, hruns, htext⟩ := ofText_cases text
  · have hrun := Nat.le_zero.mp (quoteRun_escaped_le 0 0 text)
    simp only [hform, List.cons_append, List.nil_append, List.append_assoc]
    rw [string?_of_quoteRun (quoteRun_append_cons_lt hrun hdouble), basic?_escaped]
  · have hrun : quoteRun '\'' text = 0 := by
      cases text with
      | nil => rfl
      | cons c text => exact quoteRun_cons_of_ne (htext c List.mem_cons_self).2 text
    simp only [hform, List.cons_append, List.nil_append, List.append_assoc]
    rw [string?_of_single (quoteRun_append_cons_lt hrun hsingle), literal?_append htext]
  · simp only [hform, List.cons_append, List.nil_append, List.append_assoc]
    rw [string?, skipFirstNewline_append fun h => newline?_escaped h _]
    exact lines?_escaped hdouble 0 text
  · have hnewline : '\n' ∉ text → newline? (text ++ '\'' :: '\'' :: '\'' :: rest) = none := by
      intro hnot
      cases text with
      | nil => rfl
      | cons c text =>
          refine newline?_of_isShown ((htext c List.mem_cons_self).resolve_right ?_) _
          rintro rfl
          exact hnot List.mem_cons_self
    simp only [hform, List.cons_append, List.nil_append, List.append_assoc]
    rw [string?, skipFirstNewline_append hnewline]
    exact literalLines?_append hsingle hruns htext

end Forms

end KeyValueServer.Toml
