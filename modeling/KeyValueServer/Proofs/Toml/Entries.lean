import KeyValueServer.Proofs.Toml.Scalars
import KeyValueServer.Proofs.Toml.Strings

/-!
# Documents of plain entries

A document whose lines are entries under bare keys, each name used once, is read back entry by
entry. The text of a value only has to be one that is read as this value at the end of a line.
-/

namespace KeyValueServer.Toml

/-! ## Bare keys -/

/-- A name that can be a key without quotes. -/
structure IsBare (name : Key) : Prop where
  ne_nil : name ≠ []
  all : ∀ c ∈ name, isBareKey c = true

section Bare

variable {c d : Char} {name : Key}

theorem ne_of_isBareKey (hc : isBareKey c = true) (hd : isBareKey d = false) : c ≠ d := by
  rintro rfl
  rw [hc] at hd
  contradiction

theorem isSpace_of_isBareKey (hc : isBareKey c = true) : isSpace c = false := by
  have hspace := ne_of_isBareKey hc (show isBareKey ' ' = false by decide)
  have htab := ne_of_isBareKey hc (show isBareKey '\t' = false by decide)
  simp [isSpace, hspace, htab]

theorem newline?_of_isBareKey (hc : isBareKey c = true) (s : List Char) :
    newline? (c :: s) = none :=
  newline?_cons (ne_of_isBareKey hc (by decide)) (ne_of_isBareKey hc (by decide)) s

theorem skipComment_of_isBareKey (hc : isBareKey c = true) (s : List Char) :
    skipComment (c :: s) = c :: s := by
  unfold skipComment
  split
  next heq => exact absurd (List.cons.inj heq).1 (ne_of_isBareKey hc (by decide))
  · rfl

theorem lineEnd?_of_isBareKey (hc : isBareKey c = true) (s : List Char) :
    lineEnd? (c :: s) = none := by
  rw [lineEnd?, skipSpaces_cons (isSpace_of_isBareKey hc), skipComment_of_isBareKey hc]
  exact newline?_of_isBareKey hc s

theorem skipLines_of_isBareKey (hc : isBareKey c = true) (s : List Char) :
    skipLines (c :: s) = c :: s := by
  rw [skipLines, isSpace_of_isBareKey hc, skipComment_of_isBareKey hc, newline?_of_isBareKey hc]
  rfl

theorem IsBare.exists_eq_cons (h : IsBare name) :
    ∃ c rest, name = c :: rest ∧ isBareKey c = true := by
  obtain ⟨c, rest, rfl⟩ := List.exists_cons_of_ne_nil h.ne_nil
  exact ⟨c, rest, rfl, h.all c List.mem_cons_self⟩

theorem keyPart?_of_isBare (h : IsBare name) (s : List Char) :
    keyPart? (name ++ ' ' :: s) = some (name, ' ' :: s) := by
  have hspace : ¬isBareKey ' ' = true := by decide
  have htake : (name ++ ' ' :: s).takeWhile isBareKey = name := by
    rw [List.takeWhile_append_of_pos h.all, List.takeWhile_cons_of_neg hspace, List.append_nil]
  have hdrop : (name ++ ' ' :: s).dropWhile isBareKey = ' ' :: s := by
    rw [List.dropWhile_append_of_pos h.all, List.dropWhile_cons_of_neg hspace]
  obtain ⟨c, rest, rfl, hc⟩ := h.exists_eq_cons
  unfold keyPart?
  split
  next heq => exact absurd (List.cons.inj heq).1 (ne_of_isBareKey hc (by decide))
  next heq => exact absurd (List.cons.inj heq).1 (ne_of_isBareKey hc (by decide))
  · rw [htake, hdrop]
    rfl

theorem key?_of_isBare (h : IsBare name) (s : List Char) :
    key? (name ++ ' ' :: '=' :: s) = some (([], name), '=' :: s) := by
  have hparts : keyParts? (name ++ ' ' :: '=' :: s) = some ([name], '=' :: s) := by
    have hskip : skipSpaces (name ++ ' ' :: '=' :: s) = name ++ ' ' :: '=' :: s := by
      obtain ⟨c, rest, rfl, hc⟩ := h.exists_eq_cons
      exact skipSpaces_cons (isSpace_of_isBareKey hc) _
    rw [keyParts?, hskip, keyPart?_of_isBare h]
    rfl
  rw [key?, hparts]
  rfl

end Bare

/-! ## Values -/

/-- A text that is read as a value at the end of a line. -/
structure ReadsAs (text : List Char) (node : Node) : Prop where
  skipSpaces_eq : ∀ s, skipSpaces (text ++ s) = text ++ s
  value?_eq : ∀ depth rest, value? depth (text ++ '\n' :: rest) = some (node, '\n' :: rest)

theorem value?_of_head {c : Char} (hc : c ∉ ['"', '\'', '[', '{']) (depth : Nat) (s : List Char) :
    value? depth (c :: s) = scalar? (c :: s) := by
  unfold value?
  split
  next heq => exact absurd ((List.cons.inj heq).1 ▸ hc) (by decide)
  next heq => exact absurd ((List.cons.inj heq).1 ▸ hc) (by decide)
  next heq => exact absurd ((List.cons.inj heq).1 ▸ hc) (by decide)
  next heq => exact absurd ((List.cons.inj heq).1 ▸ hc) (by decide)
  · rfl

/-- Numbers and words are not taken for strings, arrays or tables. -/
theorem ReadsAs.of_scalar {c : Char} {text : List Char} {node : Node}
    (hspace : isSpace c = false) (hc : c ∉ ['"', '\'', '[', '{'])
    (h : ∀ rest, scalar? (c :: text ++ '\n' :: rest) = some (node, '\n' :: rest)) :
    ReadsAs (c :: text) node where
  skipSpaces_eq _ := skipSpaces_cons hspace _
  value?_eq depth rest := (value?_of_head hc depth _).trans (h rest)

theorem exists_writeString_eq_cons (text : List Char) :
    ∃ q s, writeString text = q :: s ∧ (q = '"' ∨ q = '\'') := by
  unfold writeString
  cases Quoting.ofText text with
  | basic => exact ⟨_, _, rfl, .inl rfl⟩
  | literal => exact ⟨_, _, rfl, .inr rfl⟩
  | lines => exact ⟨_, _, rfl, .inl rfl⟩
  | literalLines => exact ⟨_, _, rfl, .inr rfl⟩

theorem readsAs_writeString (text : List Char) : ReadsAs (writeString text) (.string text) := by
  have hread := fun rest => @string?_writeString text ('\n' :: rest) rfl rfl
  obtain ⟨q, s, hcons, hq⟩ := exists_writeString_eq_cons text
  rw [hcons] at hread ⊢
  constructor
  · rcases hq with rfl | rfl <;> exact fun _ => rfl
  · intro depth rest
    have hrest := hread rest
    rw [List.cons_append] at hrest ⊢
    unfold value?
    rcases hq with rfl | rfl <;> simp only [hrest, Option.map_some]

theorem readsAs_toString {n : Int} (hlow : Int64.minValue.toInt ≤ n)
    (hhigh : n ≤ Int64.maxValue.toInt) : ReadsAs (toString n).toList (.integer n) := by
  have hread := scalar?_toString hlow hhigh
  obtain ⟨c, text, hcons⟩ : ∃ c text, (toString n).toList = c :: text := by
    rw [toList_toString]
    split
    · exact List.exists_cons_of_ne_nil Nat.toDigits_ne_nil
    · exact ⟨'-', _, rfl⟩
  have hother : ∀ d : Char, d.isDigit = false → d ≠ '-' → c ≠ d := by
    rintro d hdigit hdash rfl
    obtain hc | hc := isDigit_or_eq_of_mem_toString (n := n) (hcons ▸ List.mem_cons_self)
    · rw [hdigit] at hc
      contradiction
    · exact hdash hc
  rw [hcons] at hread ⊢
  refine .of_scalar ?_ ?_ hread
  · simp [isSpace, hother ' ' (by decide) (by decide), hother '\t' (by decide) (by decide)]
  · simp only [List.mem_cons, List.not_mem_nil, or_false, not_or]
    exact ⟨hother _ (by decide) (by decide), hother _ (by decide) (by decide),
      hother _ (by decide) (by decide), hother _ (by decide) (by decide)⟩

theorem readsAs_boolean (value : Bool) :
    ReadsAs (if value then "true" else "false").toList (.boolean value) := by
  have hread := scalar?_boolean value
  cases value with
  | false => exact .of_scalar (by decide) (by decide) hread
  | true => exact .of_scalar (by decide) (by decide) hread

/-! ## Lines -/

/-- The line of an entry. -/
inductive IsEntryLine : List Char → Key × Node → Prop
  | intro {name : Key} {text : List Char} {node : Node} (hname : IsBare name)
      (htext : ReadsAs text node) :
      IsEntryLine (name ++ " = ".toList ++ text ++ ['\n']) (name, node)

theorem Entries.assign_of_find? {entries : Entries} {key : Key} (h : entries.find? key = none)
    (node : Node) :
    Entries.assign [] key node .declared entries = some (entries ++ [(key, node)]) := by
  simp [Entries.assign, Entries.within, h]

namespace IsEntryLine

variable {line : List Char} {entry : Key × Node}

theorem exists_eq_cons (h : IsEntryLine line entry) :
    ∃ c rest, line = c :: rest ∧ isBareKey c = true := by
  obtain ⟨hname, -⟩ := h
  obtain ⟨c, rest, rfl, hc⟩ := hname.exists_eq_cons
  exact ⟨c, _, rfl, hc⟩

theorem entry?_eq (h : IsEntryLine line entry) (depth : Nat) (rest : List Char) :
    entry? (value? depth) (line ++ rest) = some (([], entry.1, entry.2), '\n' :: rest) := by
  obtain ⟨hname, htext⟩ := h
  rename_i name text node
  have hline : name ++ " = ".toList ++ text ++ ['\n'] ++ rest =
      name ++ ' ' :: '=' :: (' ' :: (text ++ '\n' :: rest)) := by
    simp
  have hskip : skipSpaces (' ' :: (text ++ '\n' :: rest)) = text ++ '\n' :: rest :=
    htext.skipSpaces_eq _
  rw [hline, entry?, key?_of_isBare hname]
  simp only [Option.bind_eq_bind, Option.bind_some, hskip, htext.value?_eq]
  rfl

/-- The line adds its entry to those of the document. -/
theorem line?_eq (h : IsEntryLine line entry) {root : Entries}
    (hnew : root.find? entry.1 = none) (rest : List Char) :
    line? ⟨[], root⟩ (line ++ rest) = some (⟨[], root ++ [entry]⟩, rest) := by
  have hentry := h.entry?_eq (nestingLimit - 1) rest
  obtain ⟨c, tail, rfl, hc⟩ := h.exists_eq_cons
  unfold line?
  split
  next heq => exact absurd (List.cons.inj heq).1 (ne_of_isBareKey hc (by decide))
  next heq => exact absurd (List.cons.inj heq).1 (ne_of_isBareKey hc (by decide))
  · rw [hentry]
    have hend : lineEnd? ('\n' :: rest) = some rest := rfl
    simp only [Option.bind_eq_bind, Option.bind_some, hend, Entries.within,
      Entries.assign_of_find? hnew]
    rfl

end IsEntryLine

theorem find?_eq_none_of_not_mem {entries : Entries} {key : Key}
    (h : key ∉ entries.map Prod.fst) : entries.find? key = none := by
  rw [Entries.find?, List.lookup_eq_none_iff]
  intro entry hentry
  rw [bne_iff_ne]
  rintro rfl
  exact h (List.mem_map_of_mem hentry)

/-- Lines under distinct names are read in their order. -/
theorem lines_of_entryLines {texts : List (List Char)} {entries root : Entries}
    (h : List.Forall₂ IsEntryLine texts entries)
    (hnodup : ((root ++ entries).map Prod.fst).Nodup) :
    lines ⟨[], root⟩ texts.flatten = some (root ++ entries) := by
  induction h generalizing root with
  | nil => simp [lines, skipLines, lineEnd?, skipSpaces, skipComment]
  | @cons line entry texts entries hline hrest ih =>
      have hnew : root.find? entry.1 = none := by
        refine find?_eq_none_of_not_mem fun hmem => ?_
        rw [List.map_append, List.map_cons, List.nodup_append] at hnodup
        exact hnodup.2.2 _ hmem _ List.mem_cons_self rfl
      have hread := hline.line?_eq hnew texts.flatten
      have hassoc : root ++ entry :: entries = root ++ [entry] ++ entries := by simp
      rw [hassoc] at hnodup ⊢
      obtain ⟨c, tail, rfl, hc⟩ := hline.exists_eq_cons
      rw [List.flatten_cons]
      rw [List.cons_append] at hread ⊢
      have hlength : texts.flatten.length < (c :: (tail ++ texts.flatten)).length := by
        rw [List.length_cons, List.length_append]
        omega
      rw [lines, skipLines_of_isBareKey hc, lineEnd?_of_isBareKey hc, if_neg nofun, hread]
      simp only [if_pos hlength, ih hnodup]

/-- A document begins with a name, so that there is no byte order mark to pass over. -/
theorem read?_of_entryLines {texts : List (List Char)} {entries : Entries}
    (h : List.Forall₂ IsEntryLine texts entries) (hnodup : (entries.map Prod.fst).Nodup) :
    read? texts.flatten = some entries := by
  have hlines : lines ⟨[], []⟩ texts.flatten = some entries := lines_of_entryLines h hnodup
  cases h with
  | nil => rfl
  | @cons line entry texts entries hline hrest =>
      obtain ⟨c, tail, rfl, hc⟩ := hline.exists_eq_cons
      have hmark : c.toNat ≠ 0xFEFF := by
        intro hc'
        rw [← Char.ofNat_toNat c, hc'] at hc
        exact absurd hc (by decide)
      rw [List.flatten_cons, List.cons_append] at hlines ⊢
      rw [read?, if_neg hmark, hlines]

end KeyValueServer.Toml
