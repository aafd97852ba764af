import GraphSchema.Cache.Lookup
import GraphSchema.Cache.Store
import GraphSchema.Collection.Basic
import GraphSchema.Merge.Sources

/-!
# Builds

A build collects the sources and takes the merged document from the cache, or
merges the sources and stores the document. The cache only ever saves work: what
is wrong with it is told in diagnostics and does not fail a build.
-/

namespace GraphSchema

/-- How the cache took part in a build. -/
inductive CacheStatus where
  /-- Caching is turned off. -/
  | disabled
  /-- The document came from the cache. -/
  | hit
  /-- The document was merged, and perhaps stored. -/
  | miss (persisted : Bool)
deriving DecidableEq, Inhabited, Repr

/-- What a build gives. -/
structure BuildOutput where
  document : Document
  fingerprint : Fingerprint
  status : CacheStatus
  diagnostics : List Diagnostic
deriving DecidableEq, Inhabited, Repr

/-- Why a build failed. -/
inductive BuildError where
  /-- There are no schema files under the directories. -/
  | noSources (directories : List String)
  | collect (error : CollectError)
  | merge (error : MergeError)
deriving DecidableEq, Inhabited, Repr

namespace BuildError

/-- The error as a line of text. -/
def message : BuildError → String
  | noSources directories =>
      "no schema files found under [" ++ String.intercalate ", " directories ++ "]"
  | collect e => e.message
  | merge e => e.message

/-- The error as a diagnostic. -/
def diagnostic (e : BuildError) : Diagnostic :=
  match e with
  | noSources _ => ⟨.sourceFilesMissing, .error, e.message, none⟩
  | collect c => c.diagnostic
  | merge m => m.diagnostic

end BuildError

/-- The note that a cached document was not used. -/
def SnapshotFault.diagnostic (fault : SnapshotFault) (path : String) : Diagnostic :=
  ⟨.cacheArtifactInvalid, .info, "ignored cached document: " ++ fault.message,
    some { file := path }⟩

/-- What is told of a miss. -/
def MissReason.diagnostics (reason : MissReason) (c : CacheSettings) : List Diagnostic :=
  match reason with
  | .snapshotInvalid fault => [fault.diagnostic c.documentPath]
  | _ => []

/-- What a build needs to know: where its sources are, and where its cache is. -/
structure Builder where
  sources : SourceSettings
  cache : CacheSettings
deriving DecidableEq, Inhabited, Repr

namespace Builder

/-- The builder of a configuration. -/
def ofConfig (c : Config) : Builder := ⟨c.resolvedSources, c.resolvedCache⟩

/-- Stores a merged document, if caching is on. -/
def persist (b : Builder) (f : Fingerprint) (merged : Merge.Merged) : FileProgram BuildOutput := do
  if b.cache.enabled then
    match ← (b.cache.store f merged.document).run with
    | .ok () => return ⟨merged.document, f, .miss true, merged.diagnostics⟩
    | .error e => return ⟨merged.document, f, .miss false, merged.diagnostics ++ [e.diagnostic]⟩
  else
    return ⟨merged.document, f, .disabled, merged.diagnostics⟩

/-- Builds from collected sources, whose texts `read` gives. -/
def buildFrom (b : Builder) (read : String → Except FileError String) (c : Collection) :
    FileProgram (Except BuildError BuildOutput) := do
  if c.fingerprint.isEmpty then
    return .error (.noSources b.sources.directories)
  else
    match ← b.cache.lookup c.fingerprint with
    | .hit document => return .ok ⟨document, c.fingerprint, .hit, c.diagnostics⟩
    | .miss reason =>
        match Merge.ofFiles (fun file => (read file).mapError FileError.message)
            c.fingerprint.files with
        | .error e => return .error (.merge e)
        | .ok merged =>
            let told := c.diagnostics ++ reason.diagnostics b.cache
            return .ok (← b.persist c.fingerprint
              ⟨merged.document, told ++ merged.diagnostics⟩)

/-- Builds from what a collection gave. -/
def program (b : Builder) (read : String → Except FileError String)
    (collected : Except CollectError Collection) : FileProgram (Except BuildError BuildOutput) :=
  match collected with
  | .error e => .done (.error (.collect e))
  | .ok c => b.buildFrom read c

end Builder

/-- Builds from the files of a tree at a time, and gives the tree that is left behind. -/
def FileTree.build (t : FileTree) (now : Int) (b : Builder) :
    Except BuildError BuildOutput × FileTree :=
  (b.program t.readText (t.collect b.sources)).run (answer now) t

end GraphSchema
