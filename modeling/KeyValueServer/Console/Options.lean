import KeyValueServer.Text.Numeral

/-!
# Command line options

Options are read from the left. A long option begins with two hyphens and may carry its value
behind an equals sign; a short one is a letter behind one hyphen, several of them may be joined,
and a value may follow in the same word. Every option may be given once. There are no other
arguments.
-/

namespace KeyValueServer.Console

/-- What values an option takes. -/
inductive OptionKind where
  /-- None: it is given or not. -/
  | flag
  /-- Any text. -/
  | text
  /-- A number of 16 bits, which is written as a signed one. -/
  | port
  /-- A number of 64 bits without sign. -/
  | count
  /-- A signed number of 32 bits. It may begin with a hyphen. -/
  | level
deriving DecidableEq

/-- An option: its name, its letter, and its values. -/
structure OptionSpec where
  name : String
  letter : Option Char
  kind : OptionKind

/-- The value that was given for an option. -/
inductive OptionValue where
  | given
  | text (value : List Char)
  | number (value : Int)
deriving DecidableEq

/-- The options that were given, by their names. -/
abbrev Given := List (String × OptionValue)

/-- What a command line asks for. -/
inductive Invocation where
  | run (given : Given)
  | help
  | version
  | misuse

/-- Read the value of an option. -/
def OptionKind.value? (kind : OptionKind) (text : List Char) : Option OptionValue :=
  match kind with
  | .flag => none
  | .text => some (.text text)
  | .port =>
      ((Numeral.integer? text).filter fun n : Int => 0 ≤ n ∧ n < UInt16.size).map .number
  | .count =>
      ((Numeral.natural? text).filter fun n => n < UInt64.size).map fun n => .number n
  | .level =>
      ((Numeral.integer? text).filter fun n =>
        Int32.minValue.toInt ≤ n ∧ n ≤ Int32.maxValue.toInt).map .number

/-- Note the value of an option that was not given before. -/
def note? (given : Given) (option : OptionSpec) (value : Option OptionValue) : Option Given :=
  if (given.lookup option.name).isSome then none
  else value.map fun value => given ++ [(option.name, value)]

/-- Whether a word is read as an option where an option's value is missing. -/
def looksLikeOption : List Char → Bool
  | '-' :: _ :: _ => true
  | _ => false

/-- Note the value of an option in the next word. Only the value of a level may begin with a
hyphen. -/
def noteNext? (given : Given) (option : OptionSpec) (word : List Char) : Option Given :=
  if looksLikeOption word && option.kind ≠ .level then none
  else note? given option (option.kind.value? word)

/-- What one word of a command line amounts to: the options so far, an option that still needs
its value, or the end of reading. -/
inductive Reading where
  | noted (given : Given)
  | awaiting (option : OptionSpec)
  | stop (invocation : Invocation)

/-- What comes of an attempt to note an option. -/
def Reading.ofNoted : Option Given → Reading
  | some given => .noted given
  | none => .stop .misuse

/-- Read a long option, from behind its hyphens. -/
def readLong (options : List OptionSpec) (given : Given) (word : List Char) : Reading :=
  let name := String.ofList (word.takeWhile (· != '='))
  let value? := (word.dropWhile (· != '=')).tail?
  if name = "help" ∨ name = "version" then
    match value? with
    | some _ => .stop .misuse
    | none => .stop (if name = "help" then .help else .version)
  else match options.find? fun option => option.name = name, value? with
    | none, _ => .stop .misuse
    | some option, some value =>
        if option.kind = .flag then .stop .misuse
        else .ofNoted (note? given option (option.kind.value? value))
    | some option, none =>
        if option.kind = .flag then .ofNoted (note? given option (some .given))
        else .awaiting option

/-- Read the letters of short options, from behind the hyphen. -/
def readShort (options : List OptionSpec) : Given → List Char → Reading
  | given, [] => .noted given
  | given, letter :: rest =>
      if letter = 'h' then .stop .help
      else if letter = 'V' then .stop .version
      else match options.find? fun option => option.letter = some letter with
        | none => .stop .misuse
        | some option =>
            if option.kind = .flag then
              match note? given option (some .given) with
              | none => .stop .misuse
              | some given => readShort options given rest
            else match rest with
              | [] => .awaiting option
              | '=' :: value => .ofNoted (note? given option (option.kind.value? value))
              | value => .ofNoted (note? given option (option.kind.value? value))

/-- Read one word. -/
def readWord (options : List OptionSpec) (given : Given) (word : List Char) (isLast : Bool) :
    Reading :=
  match word with
  | ['-', '-'] => .stop (if isLast then .run given else .misuse)
  | '-' :: '-' :: word => readLong options given word
  | '-' :: letter :: rest => readShort options given (letter :: rest)
  | _ => .stop .misuse

/-- Read the words of a command line after the options that were given before. -/
def readWords (options : List OptionSpec) : Given → List (List Char) → Invocation
  | given, [] => .run given
  | given, word :: rest =>
      match readWord options given word rest.isEmpty with
      | .stop invocation => invocation
      | .noted given => readWords options given rest
      | .awaiting option =>
          match rest with
          | [] => .misuse
          | value :: rest =>
              match noteNext? given option value with
              | none => .misuse
              | some given => readWords options given rest

/-- Read a command line. -/
def read (options : List OptionSpec) (words : List (List Char)) : Invocation :=
  readWords options [] words

end KeyValueServer.Console
