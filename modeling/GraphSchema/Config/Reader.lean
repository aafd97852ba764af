import GraphSchema.Config.Basic
import GraphSchema.Json.Basic
import GraphSchema.Text.ByName
import GraphSchema.Toml.Parser

/-!
# Reading configurations

A configuration is a table of three sections, written as TOML or as JSON. What
is left out has its default, keys that are not known are passed over, and a
value of another type is refused.

A table with fixed keys may also be written as the list of its values, in the
order that they are written in. Of values in excess, TOML passes over what JSON
refuses.
-/

namespace GraphSchema

/-- A value of a configuration, however it is written. -/
inductive Setting where
  | text (value : String)
  | flag (value : Bool)
  /-- A list. It may be open to values that nobody asks for. -/
  | list (isOpen : Bool) (items : List Setting)
  | table (entries : List (String × Setting))
  /-- A value of a type that no setting has. -/
  | other
deriving Inhabited, Repr

namespace Setting

/-- The key that a date or time stands under. -/
def dateKey : String := "$__toml_private_datetime"

mutual

/-- The setting that a TOML value writes. A date or time is a table of its text. -/
def ofToml : Toml.Value → Setting
  | .string s => .text s
  | .boolean b => .flag b
  | .date s => .table [(dateKey, .text s)]
  | .array items => .list true (ofTomlItems items)
  | .table entries => .table (ofTomlEntries entries)
  | _ => .other

/-- The settings that the items of a TOML array write. -/
def ofTomlItems : List Toml.Value → List Setting
  | [] => []
  | v :: r => ofToml v :: ofTomlItems r

/-- The settings that the entries of a TOML table write. -/
def ofTomlEntries : List (String × Toml.Value) → List (String × Setting)
  | [] => []
  | (k, v) :: r => (k, ofToml v) :: ofTomlEntries r

end

mutual

/-- The setting that a JSON value writes. -/
def ofJson : Json → Setting
  | .string s => .text s
  | .bool b => .flag b
  | .array items => .list false (ofJsonItems items)
  | .object members => .table (ofJsonMembers members)
  | _ => .other

/-- The settings that the items of a JSON array write. -/
def ofJsonItems : List Json → List Setting
  | [] => []
  | v :: r => ofJson v :: ofJsonItems r

/-- The settings that the members of a JSON object write. -/
def ofJsonMembers : List (String × Json) → List (String × Setting)
  | [] => []
  | (k, v) :: r => (k, ofJson v) :: ofJsonMembers r

end

/-- The text of a setting. -/
def text? : Setting → Option String
  | text s => some s
  | _ => none

/-- The value of a flag. -/
def flag? : Setting → Option Bool
  | flag b => some b
  | _ => none

/-- The texts of a list. -/
def texts? : Setting → Option (List String)
  | list _ items => items.mapM text?
  | _ => none

/-- The named texts of a table, by name. -/
def textTable? : Setting → Option (List (String × String))
  | table entries => do
      return Text.byName (← entries.mapM fun (k, v) => do return (k, ← v.text?))
  | _ => none

/-- The entries of a table with fixed keys, which a list has the first values of. -/
def record? (keys : List String) : Setting → Option (List (String × Setting))
  | table entries => some entries
  | list isOpen items =>
      if isOpen || items.length ≤ keys.length then some (keys.zip items) else none
  | _ => none

/-- The setting under a key of a table, or what stands for it when it is left out. -/
def get {α : Type} (entries : List (String × Setting)) (key : String) (read : Setting → Option α)
    (absent : α) : Option α :=
  match entries.lookup key with
  | none => some absent
  | some s => read s

end Setting

namespace SourceSettings

/-- Reads the section on sources. -/
def ofSetting? (s : Setting) : Option SourceSettings := do
  let entries ← s.record? ["directories", "extension"]
  let base : SourceSettings := {}
  return {
    directories := ← Setting.get entries "directories" Setting.texts? base.directories
    extension := ← Setting.get entries "extension" Setting.text? base.extension }

end SourceSettings

namespace CacheSettings

/-- Reads the section on the cache. -/
def ofSetting? (s : Setting) : Option CacheSettings := do
  let entries ← s.record? ["enabled", "directory", "fingerprint_file", "document_file"]
  let base : CacheSettings := {}
  return {
    enabled := ← Setting.get entries "enabled" Setting.flag? base.enabled
    directory := ← Setting.get entries "directory" Setting.text? base.directory
    fingerprintFile := ← Setting.get entries "fingerprint_file" Setting.text? base.fingerprintFile
    documentFile := ← Setting.get entries "document_file" Setting.text? base.documentFile }

end CacheSettings

namespace GeneratorSettings

/-- Reads the section on the analysis. -/
def ofSetting? (s : Setting) : Option GeneratorSettings := do
  let entries ← s.record? ["placeholder_field", "type_mappings"]
  let base : GeneratorSettings := {}
  return {
    placeholderField :=
      ← Setting.get entries "placeholder_field" Setting.text? base.placeholderField
    typeMappings := ← Setting.get entries "type_mappings" Setting.textTable? base.typeMappings }

end GeneratorSettings

/-- Why a configuration could not be loaded or saved. -/
inductive ConfigError where
  /-- Its file could not be read or written. -/
  | inaccessible (reason : String)
  | malformed
  | invalid (setting : InvalidSetting)
deriving DecidableEq, Inhabited, Repr

/-- The error as a line of text. -/
def ConfigError.message : ConfigError → String
  | inaccessible reason => "IO error: " ++ reason
  | malformed => "Parse error"
  | invalid setting => "Invalid configuration: " ++ setting.message

namespace Config

/-- Reads a configuration from its sections. -/
def ofSetting? (s : Setting) : Option Config := do
  let entries ← s.record? ["schema", "cache", "generator"]
  return {
    schema := ← Setting.get entries "schema" SourceSettings.ofSetting? {}
    cache := ← Setting.get entries "cache" CacheSettings.ofSetting? {}
    generator := ← Setting.get entries "generator" GeneratorSettings.ofSetting? {} }

/-- Reads a configuration from TOML, whatever its settings are. -/
def ofToml? (text : String) : Option Config := do
  ofSetting? (.table (Setting.ofTomlEntries (← Toml.parse text)))

/-- A configuration, if it can give a working build. -/
def validated (c : Config) : Except ConfigError Config :=
  match c.firstInvalid? with
  | some setting => .error (.invalid setting)
  | none => .ok c

/-- Loads a configuration from TOML. -/
def ofToml (text : String) : Except ConfigError Config :=
  match ofToml? text with
  | none => .error .malformed
  | some c => c.validated

/-- Loads a configuration from the text of a file, which lies in the project's root. -/
def ofFileText (path text : String) : Except ConfigError Config :=
  match ofToml? text with
  | none => .error .malformed
  | some c => { c with projectRoot := (Path.parent? path).getD c.projectRoot }.validated

end Config

end GraphSchema
