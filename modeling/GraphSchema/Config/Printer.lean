import GraphSchema.Config.Basic
import GraphSchema.Toml.Printer

/-!
# Writing configurations

The TOML text of a configuration: every setting under the header of its section,
and the type mappings under a header of their own, even when there are none. The
project's root is not written.
-/

namespace GraphSchema

/-- The text of the section on sources. -/
def SourceSettings.toToml (s : SourceSettings) : String :=
  "[schema]\n" ++ Toml.entry "directories" (Toml.quoteAll s.directories) ++
    Toml.entry "extension" (Toml.quote s.extension)

/-- The text of the section on the cache. -/
def CacheSettings.toToml (c : CacheSettings) : String :=
  "[cache]\n" ++ Toml.entry "enabled" (if c.enabled then "true" else "false") ++
    Toml.entry "directory" (Toml.quote c.directory) ++
    Toml.entry "fingerprint_file" (Toml.quote c.fingerprintFile) ++
    Toml.entry "document_file" (Toml.quote c.documentFile)

/-- The text of the section on the analysis. -/
def GeneratorSettings.toToml (g : GeneratorSettings) : String :=
  "[generator]\n" ++ Toml.entry "placeholder_field" (Toml.quote g.placeholderField) ++
    "\n[generator.type_mappings]\n" ++
    String.join (g.typeMappings.map fun (name, target) => Toml.entry name (Toml.quote target))

/-- The text of a configuration. -/
def Config.toToml (c : Config) : String :=
  c.schema.toToml ++ "\n" ++ c.cache.toToml ++ "\n" ++ c.generator.toToml

end GraphSchema
