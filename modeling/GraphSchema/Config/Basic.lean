import GraphSchema.Path

/-!
# Configuration

Where sources are found, where the compiled schema is cached, and how
requirements are analysed. Relative paths are seen from the project's root.
-/

namespace GraphSchema

/-- Where schema sources are found. -/
structure SourceSettings where
  /-- The directories to search, in order. -/
  directories : List String := ["schema"]
  /-- The extension of schema files, perhaps with dots in front. -/
  extension : String := "graphql"
deriving DecidableEq, Inhabited, Repr

/-- The extension without the dots in front of it. -/
def normalizeExtension (extension : String) : String :=
  String.ofList (extension.toList.dropWhile (· == '.'))

/-- The extension of schema files, without dots in front. -/
def SourceSettings.normalizedExtension (s : SourceSettings) : String :=
  normalizeExtension s.extension

/-- Whether and where the compiled schema is cached. -/
structure CacheSettings where
  enabled : Bool := false
  directory : String := "cache"
  fingerprintFile : String := "schema-fingerprint.json"
  documentFile : String := "schema-document.json"
deriving DecidableEq, Inhabited, Repr

namespace CacheSettings

/-- Where the fingerprint is cached. -/
def fingerprintPath (c : CacheSettings) : String := Path.join c.directory c.fingerprintFile

/-- Where the document is cached. -/
def documentPath (c : CacheSettings) : String := Path.join c.directory c.documentFile

end CacheSettings

/-- How requirements are analysed. -/
structure GeneratorSettings where
  /-- The field that keeps a root type from being empty. -/
  placeholderField : String := "_empty"
  /-- Target names of schema types, in the order of the names. -/
  typeMappings : List (String × String) := []
deriving DecidableEq, Inhabited, Repr

/-- A configuration. -/
structure Config where
  schema : SourceSettings := {}
  cache : CacheSettings := {}
  generator : GeneratorSettings := {}
  /-- The directory that relative paths are seen from. -/
  projectRoot : String := ""
deriving DecidableEq, Inhabited, Repr

/-- Why a configuration cannot give a working build. -/
inductive InvalidSetting where
  | emptyExtension
  /-- The name under a key of an artifact is empty, or leads to another directory. -/
  | notPlainName (key name : String)
  | sameArtifact
deriving DecidableEq, Inhabited, Repr

/-- The setting as a line of text. -/
def InvalidSetting.message : InvalidSetting → String
  | emptyExtension => "schema.extension must not be empty"
  | notPlainName key name => key ++ " must be a plain file name, got '" ++ name ++ "'"
  | sameArtifact => "cache.fingerprint_file and cache.document_file must differ"

/-- Whether a text is the name of a file: not empty, and without slashes of either kind. -/
def isPlainName (name : String) : Bool :=
  !name.isEmpty && !name.toList.contains '/' && !name.toList.contains '\\'

namespace Config

/-- The first setting that cannot give a working build. -/
def firstInvalid? (c : Config) : Option InvalidSetting :=
  if c.schema.normalizedExtension.isEmpty then some .emptyExtension
  else if !isPlainName c.cache.fingerprintFile then
    some (.notPlainName "cache.fingerprint_file" c.cache.fingerprintFile)
  else if !isPlainName c.cache.documentFile then
    some (.notPlainName "cache.document_file" c.cache.documentFile)
  else if c.cache.fingerprintFile = c.cache.documentFile then some .sameArtifact
  else none

/-- A path seen from the project's root. -/
def resolvePath (c : Config) (path : String) : String := Path.join c.projectRoot path

/-- The source settings with directories seen from the project's root. -/
def resolvedSources (c : Config) : SourceSettings :=
  { c.schema with directories := c.schema.directories.map c.resolvePath }

/-- The cache settings with the directory seen from the project's root. -/
def resolvedCache (c : Config) : CacheSettings :=
  { c.cache with directory := c.resolvePath c.cache.directory }

end Config

end GraphSchema
