import KeyValueServer.Config.Settings
import KeyValueServer.Text.Utf8
import KeyValueServer.Toml.Document

/-!
# Configuration files

A configuration file is a TOML document with one entry for each setting. Settings that the file
leaves out keep their defaults, and entries that are no settings are ignored.
-/

namespace KeyValueServer

/-- Why a configuration file could not be used. -/
inductive LoadFault where
  | unreadable
  | malformed
deriving DecidableEq

namespace Config

/-- A configuration with the settings that a document has entries for. -/
def override (c : Config) (entries : Toml.Entries) : Option Config :=
  Setting.all.foldlM (fun (c : Config) (setting : Setting) =>
    match entries.find? setting.name.toList with
    | none => some c
    | some node => c.assign? setting node) c

/-- The configuration that a document stands for. -/
def ofText (text : List Char) : Except LoadFault Config :=
  match (Toml.read? text).bind default.override with
  | none => .error .malformed
  | some c => .ok c

/-- The configuration in the contents of a file. -/
def load (contents : Bytes) : Except LoadFault Config :=
  match Utf8.decode? contents with
  | none => .error .unreadable
  | some text => ofText text

/-- The text of a value. A number past the range of signed 64-bit integers has none. -/
def writeValue : Toml.Node → Option (List Char)
  | .string text => some (Toml.writeString text)
  | .integer n => if n ≤ Int64.maxValue.toInt then some (toString n).toList else none
  | .boolean b => some (if b then "true" else "false").toList
  | _ => none

/-- The line for a setting. -/
def writeLine (c : Config) (setting : Setting) : Option (List Char) :=
  (writeValue (c.value setting)).map fun text =>
    setting.name.toList ++ " = ".toList ++ text ++ ['\n']

/-- The document for some of the settings. -/
def writeLines (c : Config) (settings : List Setting) : Option (List Char) :=
  (settings.mapM c.writeLine).map List.flatten

/-- The document for all settings. -/
def save (c : Config) : Option (List Char) := c.writeLines Setting.all

end Config

end KeyValueServer
