import KeyValueServer.Command.Line
import KeyValueServer.Proofs.Command.Words
import Mathlib.Data.List.Forall2

/-!
# The grammar of command lines

A line is judged by its words alone. What the words stand for is said here by the letters of the
first one and the number of the others; a line whose words stand for no command is rejected with its
first word and the class of that word.
-/

namespace KeyValueServer

/-! ## Letters -/

/-- A byte is lower-cased to a lower-case letter if it is that letter in either case. -/
theorem lowerAscii_eq_iff {b c : UInt8} (hlow : 97 ≤ c) (hhigh : c ≤ 122) :
    lowerAscii b = c ↔ b = c ∨ b = c - 32 := by
  have hfirst : ascii 'A' = 65 := rfl
  have hlast : ascii 'Z' = 90 := rfl
  rw [lowerAscii, hfirst, hlast]
  grind

def Command.arguments : Command → List Bytes
  | get key => [key]
  | set key value => [key, value]
  | quit => []

namespace Line

/-- The bytes that stand between words. -/
def separators : Bytes := asciiBytes [' ', '\t', '\r', '\n']

theorem isSeparator_iff (b : UInt8) : isSeparator b = true ↔ b ∈ separators := by
  simp [isSeparator, separators, asciiBytes, or_assoc]

theorem hasWords_iff {line : Bytes} {found : List Bytes} :
    HasWords separators line found ↔ words isSeparator line = found :=
  HasWords.iff_words_eq isSeparator_iff

/-! ## First words -/

/-- The word begins with one of these letters. -/
def BeginsWith (letters word : Bytes) : Prop := ∃ b rest, word = b :: rest ∧ b ∈ letters

/-- The word is `set`, each letter in either case. -/
def IsSet (word : Bytes) : Prop :=
  List.Forall₂ (· ∈ ·) word
    [asciiBytes ['s', 'S'], asciiBytes ['e', 'E'], asciiBytes ['t', 'T']]

/-- The class of a first word. Where there is no word it is that of an empty one. -/
inductive HasClass (word : Bytes) : CommandCode → Prop
  | get (h : BeginsWith (asciiBytes ['g', 'G']) word) : HasClass word .get
  | set (h : IsSet word) : HasClass word .set
  | quit (h : BeginsWith (asciiBytes ['q', 'Q']) word) : HasClass word .quit
  | unknown (hget : ¬BeginsWith (asciiBytes ['g', 'G']) word) (hset : ¬IsSet word)
      (hquit : ¬BeginsWith (asciiBytes ['q', 'Q']) word) : HasClass word .unknown

variable {word line : Bytes} {code : CommandCode} {found : List Bytes} {command : Command}

theorem beginsWith_iff {letters : Bytes} {b : UInt8} {rest : Bytes} :
    BeginsWith letters (b :: rest) ↔ b ∈ letters := by
  constructor
  · rintro ⟨c, tail, heq, hc⟩
    rwa [(List.cons.inj heq).1]
  · exact fun hb => ⟨b, rest, rfl, hb⟩

theorem not_beginsWith_nil (letters : Bytes) : ¬BeginsWith letters [] := by
  rintro ⟨b, rest, heq, -⟩
  contradiction

theorem mem_letters_iff {b : UInt8} {lower upper : Char} (hlow : 97 ≤ ascii lower)
    (hhigh : ascii lower ≤ 122) (hupper : ascii upper = ascii lower - 32) :
    b ∈ asciiBytes [lower, upper] ↔ lowerAscii b = ascii lower := by
  rw [lowerAscii_eq_iff hlow hhigh, ← hupper]
  simp [asciiBytes]

theorem isSet_iff : IsSet word ↔ word.map lowerAscii = asciiBytes ['s', 'e', 't'] := by
  have hs : ∀ b, b ∈ asciiBytes ['s', 'S'] ↔ lowerAscii b = ascii 's' := fun b =>
    mem_letters_iff (by decide) (by decide) (by decide)
  have he : ∀ b, b ∈ asciiBytes ['e', 'E'] ↔ lowerAscii b = ascii 'e' := fun b =>
    mem_letters_iff (by decide) (by decide) (by decide)
  have ht : ∀ b, b ∈ asciiBytes ['t', 'T'] ↔ lowerAscii b = ascii 't' := fun b =>
    mem_letters_iff (by decide) (by decide) (by decide)
  have hset : asciiBytes ['s', 'e', 't'] = [ascii 's', ascii 'e', ascii 't'] := rfl
  rw [IsSet, hset]
  rcases word with _ | ⟨b, _ | ⟨c, _ | ⟨d, _ | ⟨e, rest⟩⟩⟩⟩ <;> simp [hs, he, ht]

theorem not_isSet_nil : ¬IsSet [] := by simp [IsSet]

theorem lowerAscii_of_isSet {b : UInt8} {rest : Bytes} (h : IsSet (b :: rest)) :
    lowerAscii b = ascii 's' := by
  have hword : _ = [ascii 's', ascii 'e', ascii 't'] := isSet_iff.mp h
  exact (List.cons.inj hword).1

/-- The classes exclude each other: a word has the one that the reader gives it. -/
theorem hasClass_iff : HasClass word code ↔ classify word = code := by
  cases word with
  | nil =>
      constructor
      · rintro (h | h | h | -)
        · exact absurd h (not_beginsWith_nil _)
        · exact absurd h not_isSet_nil
        · exact absurd h (not_beginsWith_nil _)
        · rfl
      · rintro rfl
        exact .unknown (not_beginsWith_nil _) not_isSet_nil (not_beginsWith_nil _)
  | cons b rest =>
      have hget : BeginsWith (asciiBytes ['g', 'G']) (b :: rest) ↔ lowerAscii b = ascii 'g' :=
        beginsWith_iff.trans (mem_letters_iff (by decide) (by decide) (by decide))
      have hquit : BeginsWith (asciiBytes ['q', 'Q']) (b :: rest) ↔ lowerAscii b = ascii 'q' :=
        beginsWith_iff.trans (mem_letters_iff (by decide) (by decide) (by decide))
      constructor
      · rintro (h | h | h | ⟨hg, hs, hq⟩)
        · rw [classify, if_pos (hget.mp h)]
        · have hb : lowerAscii b ≠ ascii 'g' := by
            rw [lowerAscii_of_isSet h]
            decide
          rw [classify, if_neg hb, if_pos (isSet_iff.mp h)]
        · have hb : lowerAscii b = ascii 'q' := hquit.mp h
          have hs : ¬IsSet (b :: rest) := by
            intro hset
            rw [lowerAscii_of_isSet hset] at hb
            contradiction
          rw [classify, if_neg (by rw [hb]; decide), if_neg (mt isSet_iff.mpr hs), if_pos hb]
        · rw [classify, if_neg (mt hget.mpr hg), if_neg (mt isSet_iff.mpr hs),
            if_neg (mt hquit.mpr hq)]
      · rintro rfl
        rw [classify]
        split_ifs with hg hs hq
        · exact .get (hget.mpr hg)
        · exact .set (isSet_iff.mpr hs)
        · exact .quit (hquit.mpr hq)
        · exact .unknown (mt hget.mp hg) (mt isSet_iff.mp hs) (mt hquit.mp hq)

/-! ## Commands -/

/-- The command that a run of words stands for. Further words do not matter. -/
inductive Means : List Bytes → Command → Prop
  | get {first key : Bytes} {more : List Bytes} (hfirst : HasClass first .get) :
      Means (first :: key :: more) (.get key)
  | set {first key value : Bytes} {more : List Bytes} (hfirst : HasClass first .set) :
      Means (first :: key :: value :: more) (.set key value)
  | quit {first : Bytes} {more : List Bytes} (hfirst : HasClass first .quit) :
      Means (first :: more) .quit

theorem interpret_eq_ok_iff : interpret found = .ok command ↔ Means found command := by
  constructor
  · intro h
    unfold interpret at h
    split at h
    · contradiction
    next first arguments =>
      split at h
      next hclass => 
        obtain rfl := Except.ok.inj h
        exact .get (hasClass_iff.mpr hclass)
      next hclass =>
        obtain rfl := Except.ok.inj h
        exact .set (hasClass_iff.mpr hclass)
      next hclass =>
        obtain rfl := Except.ok.inj h
        exact .quit (hasClass_iff.mpr hclass)
      · contradiction
  · rintro (hfirst | hfirst | hfirst) <;> simp [interpret, hasClass_iff.mp hfirst]

/-- Words that stand for no command are rejected for the first of them. -/
theorem interpret_cases (found : List Bytes) : (∃ command, interpret found = .ok command) ∨
    interpret found = .error ⟨classify (found.headD []), found.headD []⟩ := by
  unfold interpret
  split
  · exact .inr rfl
  next first arguments =>
    split
    · exact .inl ⟨_, rfl⟩
    · exact .inl ⟨_, rfl⟩
    · exact .inl ⟨_, rfl⟩
    · exact .inr rfl

theorem interpret_eq_error_iff {rejection : Rejection} : interpret found = .error rejection ↔
    (∀ command, ¬Means found command) ∧ rejection.word = found.headD [] ∧
      HasClass rejection.word rejection.code := by
  simp only [← interpret_eq_ok_iff, hasClass_iff]
  rcases interpret_cases found with ⟨command, hok⟩ | herror
  · simp only [hok, reduceCtorEq, false_iff, not_and]
    exact fun hnone => absurd rfl (hnone command)
  · rw [herror]
    constructor
    · intro h
      obtain rfl := Except.error.inj h
      exact ⟨fun command hok => by contradiction, rfl, rfl⟩
    · rintro ⟨-, hword, hclass⟩
      rw [← hword, hclass]

/-! ## Lines -/

theorem parse_of_hasWords (h : HasWords separators line found) : parse line = interpret found := by
  rw [parse, hasWords_iff.mp h]

/-- Words from the fourth on do not matter. -/
theorem interpret_take_three (found : List Bytes) : interpret (found.take 3) = interpret found := by
  rcases found with _ | ⟨first, _ | ⟨second, _ | ⟨third, more⟩⟩⟩
  · rfl
  · rfl
  · rfl
  · simp only [List.take_succ_cons, List.take_zero, interpret]
    cases classify first <;> rfl

theorem Means.hasClass (h : Means found command) : HasClass (found.headD []) command.code := by
  cases h with
  | get hfirst => exact hfirst
  | set hfirst => exact hfirst
  | quit hfirst => exact hfirst

theorem Means.append (h : Means found command) (more : List Bytes) :
    Means (found ++ more) command := by
  cases h with
  | get hfirst => exact .get hfirst
  | set hfirst => exact .set hfirst
  | quit hfirst => exact .quit hfirst

theorem Means.mem_of_mem_arguments (h : Means found command) {argument : Bytes}
    (hargument : argument ∈ command.arguments) : argument ∈ found := by
  cases h with
  | get => simp_all [Command.arguments]
  | set =>
      simp only [Command.arguments, List.mem_cons, List.not_mem_nil, or_false] at hargument
      rcases hargument with rfl | rfl <;> simp
  | quit => contradiction

theorem isSeparator_of_subset {gap : Bytes} (h : gap ⊆ separators) :
    ∀ b ∈ gap, isSeparator b = true :=
  fun b hb => (isSeparator_iff b).mpr (h hb)

/-- Every line has one list of words, and they alone decide. They stand for a command as the grammar
says, and otherwise the line is rejected with its first word and the class of that word. Only the
first three words count. Gaps may be replaced by other gaps, and stand or not stand at both ends of
the line; words that are added to a command change nothing; and the arguments of a command are
words.
-/
theorem parse_follows_grammar (line : Bytes) :
    ∃ found, HasWords separators line found ∧
      (∀ other, HasWords separators line other → other = found) ∧
      (∀ command, parse line = .ok command ↔ Means found command) ∧
      (∀ rejection, parse line = .error rejection ↔
        (∀ command, ¬Means found command) ∧ rejection.word = found.headD [] ∧
          HasClass rejection.word rejection.code) ∧
      (∀ line' found', HasWords separators line' found' → found'.take 3 = found.take 3 →
        parse line' = parse line) ∧
      (∀ before gap gap' after, gap ≠ [] → gap' ≠ [] → gap ⊆ separators → gap' ⊆ separators →
        line = before ++ (gap ++ after) → parse (before ++ (gap' ++ after)) = parse line) ∧
      (∀ gap, gap ⊆ separators → parse (gap ++ line) = parse line ∧
        parse (line ++ gap) = parse line) ∧
      (∀ command line' more, parse line = .ok command → HasWords separators line' (found ++ more) →
        parse line' = .ok command) ∧
      ∀ command, parse line = .ok command → ∀ argument ∈ command.arguments,
        argument ≠ [] ∧ ∀ b ∈ argument, b ∉ separators := by
  obtain ⟨found, hfound⟩ := HasWords.exists_words separators line
  have hparse := parse_of_hasWords hfound
  refine ⟨found, hfound, ?_, ?_, ?_, ?_, ?_, ?_, ?_, ?_⟩
  · intro other hother
    exact (hasWords_iff.mp hother).symm.trans (hasWords_iff.mp hfound)
  · intro command
    rw [hparse, interpret_eq_ok_iff]
  · intro rejection
    rw [hparse, interpret_eq_error_iff]
  · intro line' found' hfound' hthree
    rw [hparse, parse_of_hasWords hfound', ← interpret_take_three found', hthree,
      interpret_take_three]
  · rintro before gap gap' after hne hne' hgap hgap' rfl
    rw [parse, parse, words_append_gap hne (isSeparator_of_subset hgap),
      words_append_gap hne' (isSeparator_of_subset hgap')]
  · intro gap hgap
    rw [parse, parse, parse, words_gap_append (isSeparator_of_subset hgap),
      words_append_of_gap (isSeparator_of_subset hgap)]
    exact ⟨rfl, rfl⟩
  · intro command line' more hok hline'
    rw [hparse, interpret_eq_ok_iff] at hok
    rw [parse_of_hasWords hline', interpret_eq_ok_iff]
    exact hok.append more
  · intro command hok argument hargument
    rw [hparse, interpret_eq_ok_iff] at hok
    exact hfound.of_mem (hok.mem_of_mem_arguments hargument)

/-- A `set` in mixed case between gaps of several kinds, with a word too many. -/
def storeLine : Bytes :=
  asciiBytes [' ', 's', 'E', 't', '\t', 'k', ' ', '\r', 'v', ' ', 'x', '\n']

/-- It stores a value, and it does so too with one space for its second gap. -/
theorem parse_follows_grammar_of_storeLine :
    ∃ found, HasWords separators storeLine found ∧
      Means found (.set (asciiBytes ['k']) (asciiBytes ['v'])) ∧
      parse (asciiBytes [' ', 's', 'E', 't', '\t', 'k', ' ', 'v', ' ', 'x', '\n']) =
        parse storeLine := by
  obtain ⟨found, hfound, -, hcommand, -, -, hgaps, -⟩ := parse_follows_grammar storeLine
  refine ⟨found, hfound, (hcommand _).mp (by decide), ?_⟩
  exact hgaps (asciiBytes [' ', 's', 'E', 't', '\t', 'k']) (asciiBytes [' ', '\r'])
    (asciiBytes [' ']) (asciiBytes ['v', ' ', 'x', '\n']) (by decide) (by decide) (by decide)
    (by decide) rfl

end Line

end KeyValueServer
