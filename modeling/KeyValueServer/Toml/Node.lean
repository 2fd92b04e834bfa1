/-!
# Documents in TOML

A document is a tree of tables. Values sit at the leaves, and a table or an array can itself be
a value. TOML builds the tree from headers and dotted keys, which may come in almost any order;
what may be added to a table afterwards depends on how the table came to be.
-/

namespace KeyValueServer.Toml

/-- The name of an entry of a table. -/
abbrev Key := List Char

/-- How a table came to be: on the way to a table that a header named, under a header of its
own, or on the way to the entry that a dotted key named. -/
inductive Origin where
  | implied
  | declared
  | dotted
deriving DecidableEq

/-- What an entry of a table can be. Floating point numbers and dates are told apart from other
values, but what they are is not kept. -/
inductive Node where
  | string (text : List Char)
  | integer (value : Int)
  | float
  | boolean (value : Bool)
  | dateTime
  | array (items : List Node)
  | record (entries : List (Key × Node))
  | table (origin : Origin) (entries : List (Key × Node))
  | tables (elements : List (List (Key × Node)))

/-- The entries of a table, the oldest first. -/
abbrev Entries := List (Key × Node)

namespace Entries

/-- The entry with a name. -/
def find? (entries : Entries) (key : Key) : Option Node := List.lookup key entries

/-- Put another node in the place of the entry with a name. -/
def replace (entries : Entries) (key : Key) (node : Node) : Entries :=
  entries.map fun entry => if entry.1 = key then (key, node) else entry

/-- Change the table that a path leads to. Tables missing on the way are made with the given
origin, and an array of tables leads to its last element. A dotted key does not lead through a
table with a header of its own. -/
def within (origin : Origin) (change : Origin → Entries → Option Entries) :
    (path : List Key) → Origin → Entries → Option Entries
  | [], own, entries => change own entries
  | key :: path, _, entries =>
      match entries.find? key with
      | none =>
          (within origin change path origin []).map fun inner =>
            entries ++ [(key, .table origin inner)]
      | some (.table own inner) =>
          if origin = .dotted ∧ own = .declared then none
          else (within origin change path own inner).map fun inner =>
            entries.replace key (.table own inner)
      | some (.tables elements) =>
          match elements.getLast? with
          | none => none
          | some inner =>
              (within origin change path .declared inner).map fun inner =>
                entries.replace key (.tables (elements.dropLast ++ [inner]))
      | some _ => none

/-- Add an entry under a key that may be dotted. Its name must be new, and only a dotted key
adds to a table that dotted keys made. -/
def assign (path : List Key) (key : Key) (node : Node) : Origin → Entries → Option Entries :=
  within .dotted (fun own entries =>
    if (own = .dotted) = path.isEmpty then none
    else if (entries.find? key).isSome then none
    else some (entries ++ [(key, node)])) path

/-- Declare a table by a header. Other headers may have passed through it before. -/
def declare (path : List Key) (key : Key) : Entries → Option Entries :=
  within .implied (fun _ entries =>
    match entries.find? key with
    | none => some (entries ++ [(key, .table .declared [])])
    | some (.table .implied inner) => some (entries.replace key (.table .declared inner))
    | some _ => none) path .declared

/-- Begin another element of an array of tables. -/
def extend (path : List Key) (key : Key) : Entries → Option Entries :=
  within .implied (fun _ entries =>
    match entries.find? key with
    | none => some (entries ++ [(key, .tables [[]])])
    | some (.tables elements) => some (entries.replace key (.tables (elements ++ [[]])))
    | some _ => none) path .declared

end Entries

end KeyValueServer.Toml
