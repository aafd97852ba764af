import GraphSchema.Project
import GraphSchema.Proofs.Files.Writing
import GraphSchema.Proofs.Json.Members
import GraphSchema.Proofs.Text.ByName
import GraphSchema.Proofs.Toml.Documents

/-!
# Saved configurations

A configuration is saved whatever its settings are, and loaded back with the same settings, if these
can give a working build. Every setting is written, so that none is ever masked by its default, and
every string and every name of a mapping is read as it was, whatever its characters are.
-/

namespace GraphSchema

open Toml (Entry tableText Leads Reads quoteKey)

/-! ## The text of a configuration -/

namespace SourceSettings

/-- The entries of the section on sources. -/
def tomlEntries (s : SourceSettings) : List Entry :=
  [.ofStrings "directories" s.directories, .ofString "extension" s.extension]

theorem toList_toToml (s : SourceSettings) :
    s.toToml.toList = tableText (quoteKey "schema").toList s.tomlEntries := by
  have hkey : quoteKey "schema" = "schema" := by decide
  rw [hkey]
  simp [toToml, tableText, tomlEntries, Entry.line, Entry.ofStrings, Entry.ofString]

end SourceSettings

namespace CacheSettings

/-- The entries of the section on the cache. -/
def tomlEntries (c : CacheSettings) : List Entry :=
  [.ofFlag "enabled" c.enabled, .ofString "directory" c.directory,
    .ofString "fingerprint_file" c.fingerprintFile, .ofString "document_file" c.documentFile]

theorem toList_toToml (c : CacheSettings) :
    c.toToml.toList = tableText (quoteKey "cache").toList c.tomlEntries := by
  have hkey : quoteKey "cache" = "cache" := by decide
  rw [hkey]
  simp [toToml, tableText, tomlEntries, Entry.line, Entry.ofFlag, Entry.ofString]

end CacheSettings

namespace GeneratorSettings

/-- Whether the type mappings are a map: in the order of the names, each name once. -/
def IsOrdered (g : GeneratorSettings) : Prop := g.typeMappings.Pairwise fun e f => e.1 < f.1

instance (g : GeneratorSettings) : Decidable g.IsOrdered :=
  inferInstanceAs (Decidable (g.typeMappings.Pairwise fun e f => e.1 < f.1))

/-- The entries of the section on the analysis. -/
def tomlEntries (g : GeneratorSettings) : List Entry :=
  [.ofString "placeholder_field" g.placeholderField]

/-- The entries of the section on type mappings. -/
def mappingEntries (g : GeneratorSettings) : List Entry :=
  g.typeMappings.map fun (name, target) => .ofString name target

theorem toList_toToml (g : GeneratorSettings) :
    g.toToml.toList = tableText (quoteKey "generator").toList g.tomlEntries ++ '\n' ::
      tableText ((quoteKey "generator").toList ++ '.' :: (quoteKey "type_mappings").toList)
        g.mappingEntries := by
  have hkeys : quoteKey "generator" = "generator" ∧ quoteKey "type_mappings" = "type_mappings" := by
    decide
  rw [hkeys.1, hkeys.2]
  simp [toToml, tableText, tomlEntries, mappingEntries, Entry.line, Entry.ofString,
    List.flatMap_map]

theorem nodup_mappingEntries {g : GeneratorSettings} (h : g.IsOrdered) :
    (g.mappingEntries.map (·.key)).Nodup := by
  have hkeys : g.mappingEntries.map (·.key) = g.typeMappings.map (·.1) := by
    simp [mappingEntries, Entry.ofString]
  rw [hkeys]
  exact List.pairwise_map.mpr (h.imp fun hlt => String.ne_of_lt hlt)

end GeneratorSettings

namespace Config

variable {c : Config}

/-- The tables of a configuration. -/
def tomlTables (c : Config) : Toml.Node.Entries :=
  [("schema", .table .header (c.schema.tomlEntries.map Entry.node)),
    ("cache", .table .header (c.cache.tomlEntries.map Entry.node)),
    ("generator", .table .header (c.generator.tomlEntries.map Entry.node ++
      [("type_mappings", .table .header (c.generator.mappingEntries.map Entry.node))]))]

theorem toList_toToml (c : Config) :
    c.toToml.toList = tableText (quoteKey "schema").toList c.schema.tomlEntries ++
      '\n' :: (tableText (quoteKey "cache").toList c.cache.tomlEntries ++
        '\n' :: (tableText (quoteKey "generator").toList c.generator.tomlEntries ++
          '\n' :: (tableText ((quoteKey "generator").toList ++ '.' ::
            (quoteKey "type_mappings").toList) c.generator.mappingEntries ++ []))) := by
  have hfeed : "\n".toList = ['\n'] := rfl
  simp only [toToml, String.toList_append, SourceSettings.toList_toToml,
    CacheSettings.toList_toToml, GeneratorSettings.toList_toToml, hfeed, List.append_assoc,
    List.cons_append, List.nil_append, List.append_nil]

/-- The text of a configuration is read table by table. -/
theorem reads_toToml (h : c.generator.IsOrdered) :
    Reads ⟨[], []⟩ c.toToml.toList ⟨c.tomlTables, ["generator", "type_mappings"]⟩ [] := by
  have hschema : (c.schema.tomlEntries.map (·.key)).Nodup :=
    show ["directories", "extension"].Nodup by decide
  have hcache : (c.cache.tomlEntries.map (·.key)).Nodup :=
    show ["enabled", "directory", "fingerprint_file", "document_file"].Nodup by decide
  have hgenerator : (c.generator.tomlEntries.map (·.key)).Nodup :=
    show ["placeholder_field"].Nodup by decide
  have hmappings := GeneratorSettings.nodup_mappingEntries h
  rw [toList_toToml]
  -- The blank line behind a table belongs to no entry of it.
  refine (Reads.table Toml.leads_nil rfl (Toml.Reader.header_single _) hschema _ _).trans
    ((Reads.blank _ _).trans ?_)
  refine (Reads.table Toml.leads_nil rfl (Toml.Reader.header_single _) hcache _ _).trans
    ((Reads.blank _ _).trans ?_)
  refine (Reads.table Toml.leads_nil rfl (Toml.Reader.header_single _) hgenerator _ _).trans
    ((Reads.blank _ _).trans ?_)
  exact Reads.table (Toml.leads_nil.last rfl) rfl (Toml.Reader.header_pair _ _) hmappings _ []

end Config

/-! ## The settings that are read -/

namespace Setting

theorem ofTomlEntries_toEntries (es : List Entry) :
    ofTomlEntries (Toml.Node.toEntries (es.map Entry.node)) =
      es.map fun e => (e.key, ofToml e.value) := by
  induction es with
  | nil => rfl
  | cons e es ih =>
    rw [List.map_cons, List.map_cons, ← ih]
    rfl

theorem texts?_strings (ss : List String) :
    (ofToml (.array (ss.map .string))).texts? = some ss := by
  have hitems : ofTomlItems (ss.map .string) = ss.map text := by
    induction ss with
    | nil => rfl
    | cons s ss ih =>
      rw [List.map_cons, List.map_cons, ← ih]
      rfl
  rw [ofToml, hitems]
  exact Json.mapM_read fun _ _ => rfl

theorem textTable?_texts {entries : List (String × String)}
    (h : entries.Pairwise fun e f => e.1 < f.1) :
    (table (entries.map fun e => (e.1, text e.2))).textTable? = some entries := by
  rw [textTable?, Json.mapM_read]
  · exact congrArg some (Text.byName_sorted h)
  · exact fun e _ => rfl

end Setting

theorem SourceSettings.ofSetting?_tomlEntries (s : SourceSettings) :
    ofSetting? (.table (s.tomlEntries.map fun e => (e.key, Setting.ofToml e.value))) = some s := by
  show (do
    let directories ← (Setting.ofToml (.array (s.directories.map .string))).texts?
    return ⟨directories, s.extension⟩ : Option SourceSettings) = some s
  rw [Setting.texts?_strings]
  rfl

theorem CacheSettings.ofSetting?_tomlEntries (c : CacheSettings) :
    ofSetting? (.table (c.tomlEntries.map fun e => (e.key, Setting.ofToml e.value))) = some c := rfl

theorem GeneratorSettings.ofSetting?_tomlEntries {g : GeneratorSettings} (h : g.IsOrdered) :
    ofSetting? (.table [("placeholder_field", .text g.placeholderField),
      ("type_mappings", .table (g.mappingEntries.map fun e => (e.key, Setting.ofToml e.value)))]) =
        some g := by
  have hmappings : g.mappingEntries.map (fun e => (e.key, Setting.ofToml e.value)) =
      g.typeMappings.map fun e => (e.1, Setting.text e.2) := by
    simp [mappingEntries, Entry.ofString, Setting.ofToml]
  rw [hmappings]
  show (do
    let typeMappings ← (Setting.table (g.typeMappings.map fun e =>
      (e.1, Setting.text e.2))).textTable?
    return ⟨g.placeholderField, typeMappings⟩ : Option GeneratorSettings) = some g
  rw [Setting.textTable?_texts h]
  rfl

namespace Config

variable {c : Config}

theorem ofSetting?_tomlTables (h : c.generator.IsOrdered) :
    ofSetting? (.table (Setting.ofTomlEntries (Toml.Node.toEntries c.tomlTables))) =
      some { c with projectRoot := "" } := by
  have htables : Setting.ofTomlEntries (Toml.Node.toEntries c.tomlTables) = [
      ("schema", .table (c.schema.tomlEntries.map fun e => (e.key, Setting.ofToml e.value))),
      ("cache", .table (c.cache.tomlEntries.map fun e => (e.key, Setting.ofToml e.value))),
      ("generator", .table [("placeholder_field", .text c.generator.placeholderField),
        ("type_mappings", .table (c.generator.mappingEntries.map fun e =>
          (e.key, Setting.ofToml e.value)))])] := by
    rw [← Setting.ofTomlEntries_toEntries, ← Setting.ofTomlEntries_toEntries,
      ← Setting.ofTomlEntries_toEntries]
    rfl
  rw [htables]
  show (do
    let schema ← SourceSettings.ofSetting? _
    let cache ← CacheSettings.ofSetting? _
    let generator ← GeneratorSettings.ofSetting? _
    return ⟨schema, cache, generator, ""⟩ : Option Config) = _
  rw [SourceSettings.ofSetting?_tomlEntries, CacheSettings.ofSetting?_tomlEntries,
    GeneratorSettings.ofSetting?_tomlEntries h]
  rfl

/-- What is written says every setting but the project's root. -/
theorem ofToml?_toToml (h : c.generator.IsOrdered) :
    ofToml? c.toToml = some { c with projectRoot := "" } := by
  have hmark : c.toToml.toList.head? ≠ some '\uFEFF' := by
    rw [toList_toToml]
    simp [tableText]
  rw [ofToml?, Toml.parse_of_reads hmark (reads_toToml h)]
  exact ofSetting?_tomlTables h

theorem validated_eq_ok_iff {d : Config} :
    c.validated = .ok d ↔ c.firstInvalid? = none ∧ d = c := by
  unfold validated
  cases c.firstInvalid? with
  | some setting => simp
  | none => simp [eq_comm]

end Config

/-! ## Files -/

namespace FileTree

variable {t u : FileTree} {now : Int} {path root : String} {c : Config}

theorem loadConfig_of_saveConfig (hordered : c.generator.IsOrdered)
    (hroot : Path.parent? path = some root) (hsaved : t.saveConfig now path c = .ok u) :
    u.loadConfig path = { c with projectRoot := root }.validated := by
  have hwritten : t.write path c.toToml.toUTF8 now = .ok u := mapError_eq_ok_iff.mp hsaved
  rw [loadConfig, readText_of_write hwritten]
  show Config.ofFileText path c.toToml = _
  rw [Config.ofFileText, Config.ofToml?_toToml hordered, hroot]
  rfl

/-- What is saved is loaded back, exactly if its settings can give a working build. -/
theorem loadConfig_saveConfig (hordered : c.generator.IsOrdered)
    (hroot : Path.parent? path = some root) (hsaved : t.saveConfig now path c = .ok u) :
    ((∃ d, u.loadConfig path = .ok d) ↔ c.validated = .ok c) ∧
      ∀ d, u.loadConfig path = .ok d → d.schema = c.schema ∧ d.cache = c.cache ∧
        d.generator = c.generator ∧ d.projectRoot = root := by
  rw [loadConfig_of_saveConfig hordered hroot hsaved]
  refine ⟨⟨?_, ?_⟩, ?_⟩
  · rintro ⟨d, hloaded⟩
    exact Config.validated_eq_ok_iff.mpr ⟨(Config.validated_eq_ok_iff.mp hloaded).1, rfl⟩
  · intro hvalid
    exact ⟨_, Config.validated_eq_ok_iff.mpr ⟨(Config.validated_eq_ok_iff.mp hvalid).1, rfl⟩⟩
  · intro d hloaded
    obtain ⟨-, rfl⟩ := Config.validated_eq_ok_iff.mp hloaded
    exact ⟨rfl, rfl, rfl, rfl⟩

/-- A project whose configuration stands behind a link. -/
def linkedProject : FileTree :=
  ⟨[("project", .directory [("schemaweave.toml", .link "../settings/main.toml")]),
    ("settings", .directory [])]⟩

/-- A configuration with quotes, line ends and other characters that TOML has to escape. -/
def thornyConfig : Config where
  schema := { directories := ["schema", "a \"b\"\n", "c\\d", "'''"], extension := ".graphql" }
  cache := { enabled := true, directory := "\t", fingerprintFile := "f'.json" }
  generator := {
    placeholderField := ""
    typeMappings := [("", "\x00"), ("Date Time", "\"\"\"\n'''\x7f"), ("ID.x", "String")] }

theorem loadConfig_saveConfig_thornyConfig : thornyConfig.generator.IsOrdered ∧
    ∃ u d, linkedProject.saveConfig 7 "project/schemaweave.toml" thornyConfig = .ok u ∧
      u.loadConfig "project/schemaweave.toml" = .ok d ∧ d.schema = thornyConfig.schema ∧
        d.cache = thornyConfig.cache ∧ d.generator = thornyConfig.generator ∧
          d.projectRoot = "project" := by
  have hordered : thornyConfig.generator.IsOrdered := by decide
  have hvalid : thornyConfig.firstInvalid? = none := by decide +kernel
  have hends : linkedProject.resolve .file "project/schemaweave.toml" =
      .ok ⟨["settings"], some "main.toml", false⟩ := by decide +kernel
  have hsaved : linkedProject.saveConfig 7 "project/schemaweave.toml" thornyConfig =
      .ok (linkedProject.put ["settings"] "main.toml" (.file thornyConfig.toToml.toUTF8 7)) :=
    mapError_eq_ok_iff.mpr (bind_eq_ok.mpr ⟨_, hends, bind_eq_ok.mpr ⟨none, rfl, rfl⟩⟩)
  have hroot : Path.parent? "project/schemaweave.toml" = some "project" := by decide +kernel
  have hloaded := loadConfig_saveConfig hordered hroot hsaved
  obtain ⟨d, hd⟩ := hloaded.1.mpr (Config.validated_eq_ok_iff.mpr ⟨hvalid, rfl⟩)
  exact ⟨hordered, _, d, hsaved, hd, hloaded.2 d hd⟩

end FileTree

end GraphSchema
