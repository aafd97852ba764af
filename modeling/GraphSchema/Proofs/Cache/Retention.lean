import GraphSchema.Proofs.Cache.Store
import GraphSchema.Proofs.Files.Dots
import GraphSchema.Proofs.Merge.Permitted
import GraphSchema.Proofs.Schema.Depth

/-!
# What a cache keeps

A cache keeps what is stored in it for every configuration that is let through, but for one choice
of names: the document must not stand where the fingerprint is written before it is moved.
-/

namespace GraphSchema

open FileProgram

theorem isPlainName_iff {name : String} :
    isPlainName name = true ↔ name.toList ≠ [] ∧ '/' ∉ name.toList ∧ '\\' ∉ name.toList := by
  simp [isPlainName, and_assoc]

theorem isEntryName_of_isPlainName {name : String} (h : isPlainName name = true)
    (hdots : Path.isDots name = false) : Path.IsEntryName name :=
  ⟨(isPlainName_iff.mp h).1, (isPlainName_iff.mp h).2.1, hdots⟩

namespace CacheProgram

variable {σ α : Type} {answer : (request : FileCall) → σ → request.Reply × σ} {s : σ}

theorem run_bind_ok {x : CacheProgram Unit} {next : Unit → CacheProgram α} {a : α}
    (h : ((x >>= next).run.run answer s).1 = .ok a) :
    (x.run.run answer s).1 = .ok () ∧
      ((next ()).run.run answer (x.run.run answer s).2).1 = .ok a := by
  have hrun := (congrArg Prod.fst (run_bind answer x.run (ExceptT.bindCont next) s)).symm.trans h
  cases hx : (x.run.run answer s).1 with
  | ok u =>
    rw [hx] at hrun
    exact ⟨rfl, hrun⟩
  | error e =>
    rw [hx] at hrun
    exact absurd hrun (by simp [ExceptT.bindCont, pure, FileProgram.run])

theorem run_located_ok {path : String} {p : FileProgram (Except FileError Unit)}
    (h : ((located path p).run.run answer s).1 = .ok ()) : (p.run answer s).1 = .ok () := by
  have hrun := (congrArg Prod.fst (run_bind answer p _ s)).symm.trans h
  cases hp : (p.run answer s).1 with
  | ok _ => rfl
  | error reason =>
    rw [hp] at hrun
    have hcontra : Except.error (CacheError.mk path reason) = .ok () := hrun
    exact absurd hcontra (by simp)

/-- A text is not in place before it has been moved there. -/
theorem renamed_of_run_replaceText {path text : String}
    (h : ((replaceText path text).run.run answer s).1 = .ok ()) :
    ∃ mid, (answer (.rename (temporaryPath path) path) mid).1 = .ok () :=
  ⟨_, run_located_ok (run_bind_ok h).2⟩

end CacheProgram

namespace CacheSettings

variable {c : CacheSettings} {f : Fingerprint} {d : Document}

/-- What a cache is for: once a document is stored, it is found for its fingerprint, and nothing is
found for another one. -/
def Keeps (c : CacheSettings) (f : Fingerprint) (d : Document) : Prop :=
  ∀ disk after, Runs (c.store f d).run disk (.ok ()) after →
    (c.lookup f).run Disk.answer after = (.hit d, after) ∧
      ∀ g, f.same g = false →
        (c.lookup g).run Disk.answer after = (.miss .fingerprintChanged, after)

/-- No store goes well in any file tree. -/
def NeverStores (c : CacheSettings) (f : Fingerprint) (d : Document) : Prop :=
  ∀ now t, ((c.store f d).run.run (FileTree.answer now) t).1 ≠ .ok ()

theorem HasFileNames.keeps (h : c.HasFileNames) (henabled : c.enabled = true) (hf : f.IsOrdered)
    (hbounded : Document.hasDefinitionsWithin Snapshot.definitionDepth d.toJson = true)
    (hname : c.documentFile ≠ c.fingerprintFile ++ ".tmp") : c.Keeps f d := by
  intro disk after hrun
  have hfingerprint := stored_fingerprint hrun
  have hdocument := h.stored_document hrun
  have hstored := Fingerprint.ofText?_toText hf
  rw [if_neg hname] at hdocument
  constructor
  · exact c.run_lookup henabled hfingerprint hstored f.same_refl hdocument
      (Snapshot.documentFor_toText f hbounded)
  · intro g hg
    rw [c.run_lookup_stored henabled hfingerprint hstored, if_neg (by simp [hg])]

/-- The document is lost when the fingerprint is written over it and moved away. -/
theorem HasFileNames.not_keeps (h : c.HasFileNames) (henabled : c.enabled = true)
    (hf : f.IsOrdered) (hname : c.documentFile = c.fingerprintFile ++ ".tmp") : ¬c.Keeps f d := by
  intro hkeeps
  obtain ⟨after, hrun⟩ := c.exists_runs_store f d fun _ => none
  have hdocument := h.stored_document hrun
  rw [if_pos hname] at hdocument
  have hlookup := (hkeeps _ after hrun).1
  rw [c.run_lookup_stored henabled (stored_fingerprint hrun) (Fingerprint.ofText?_toText hf),
    if_pos f.same_refl, c.run_storedDocument_missing f hdocument] at hlookup
  exact absurd (Prod.mk.inj hlookup).1 (by simp)

theorem renamed_of_run_store {σ : Type} {answer : (request : FileCall) → σ → request.Reply × σ}
    {s : σ} (h : ((c.store f d).run.run answer s).1 = .ok ()) :
    ∀ path, path = c.documentPath ∨ path = c.fingerprintPath →
      ∃ mid, (answer (.rename (CacheProgram.temporaryPath path) path) mid).1 = .ok () := by
  have hwrite : ((c.writeArtifacts f d).run.run answer s).1 = .ok () := by
    have hrun := (congrArg Prod.fst (run_bind answer (c.writeArtifacts f d).run _ s)).symm.trans h
    cases hr : ((c.writeArtifacts f d).run.run answer s).1 with
    | ok _ => rfl
    | error e =>
      rw [hr] at hrun
      have hcontra : Except.error e = .ok () := hrun
      exact absurd hcontra (by simp)
  have hlast := (CacheProgram.run_bind_ok (CacheProgram.run_bind_ok hwrite).2).2
  obtain ⟨hdocument, hfingerprint⟩ := CacheProgram.run_bind_ok hlast
  intro path hpath
  rcases hpath with rfl | rfl
  · exact CacheProgram.renamed_of_run_replaceText hdocument
  · exact CacheProgram.renamed_of_run_replaceText hfingerprint

/-- No file can be moved to where an artifact with such a name would have to stand. -/
theorem neverStores_of_dots (hfingerprint : isPlainName c.fingerprintFile = true)
    (hdocument : isPlainName c.documentFile = true)
    (hdots : Path.isDots c.fingerprintFile = true ∨ Path.isDots c.documentFile = true) :
    c.NeverStores f d := by
  intro now t hrun
  have hfails : ∀ name, isPlainName name = true → Path.isDots name = true →
      ¬∃ mid : FileTree, (FileTree.answer now
        (.rename (CacheProgram.temporaryPath (Path.join c.directory name))
          (Path.join c.directory name)) mid).1 = .ok () := by
    rintro name hplain hname ⟨mid, hmoved⟩
    obtain ⟨hne, hsingle, -⟩ := isPlainName_iff.mp hplain
    have hlast := Path.getLast?_steps_join c.directory hne hsingle
    cases hchange : mid.rename (CacheProgram.temporaryPath (Path.join c.directory name))
        (Path.join c.directory name) with
    | ok u => exact FileTree.rename_dots hname hlast u hchange
    | error reason =>
      simp only [FileTree.answer, FileTree.settle, hchange] at hmoved
      exact absurd hmoved (by simp)
  have hmoved := renamed_of_run_store hrun
  rcases hdots with hdots | hdots
  · exact hfails _ hfingerprint hdots (hmoved _ (.inr rfl))
  · exact hfails _ hdocument hdots (hmoved _ (.inl rfl))

end CacheSettings

namespace Config

variable {config : Config}

theorem plainNames_of_valid (h : config.firstInvalid? = none) :
    isPlainName config.cache.fingerprintFile = true ∧ isPlainName config.cache.documentFile = true ∧
      config.cache.fingerprintFile ≠ config.cache.documentFile := by
  unfold firstInvalid? at h
  split at h
  · exact absurd h (by simp)
  · split at h
    · exact absurd h (by simp)
    · split at h
      · exact absurd h (by simp)
      · split at h
        · exact absurd h (by simp)
        · next hfingerprint hdocument hdiffer =>
          exact ⟨by simpa using hfingerprint, by simpa using hdocument, hdiffer⟩

theorem hasFileNames_of_valid (h : config.firstInvalid? = none)
    (hfingerprint : Path.isDots config.cache.fingerprintFile = false)
    (hdocument : Path.isDots config.cache.documentFile = false) :
    config.resolvedCache.HasFileNames where
  fingerprint := isEntryName_of_isPlainName (plainNames_of_valid h).1 hfingerprint
  document := isEntryName_of_isPlainName (plainNames_of_valid h).2.1 hdocument
  differ := (plainNames_of_valid h).2.2

/-- A cache that is let through keeps every document merged from parsed sources if and only if the
document does not have the name that the fingerprint is written under first. Where a name is dots,
which are a directory and no file, there is nothing to keep. -/
theorem resolvedCache_keeps (hvalid : config.firstInvalid? = none)
    (henabled : config.cache.enabled = true) {f : Fingerprint} (hf : f.IsOrdered)
    {documents : List (String × Document)}
    (hparsed : ∀ p ∈ documents, ∃ text, Merge.IsTextOf p.2 text) {d : Document}
    (hmerged : Merge.ofDocuments documents = .ok d) :
    if Path.isDots config.cache.fingerprintFile || Path.isDots config.cache.documentFile then
      config.resolvedCache.NeverStores f d
    else
      config.resolvedCache.Keeps f d ↔
        config.cache.documentFile ≠ config.cache.fingerprintFile ++ ".tmp" := by
  split
  · next hdots =>
    obtain ⟨hfingerprint, hdocument, -⟩ := plainNames_of_valid hvalid
    rw [Bool.or_eq_true] at hdots
    exact CacheSettings.neverStores_of_dots hfingerprint hdocument hdots
  · next hdots =>
    rw [Bool.or_eq_true, not_or, Bool.not_eq_true, Bool.not_eq_true] at hdots
    have hnames := hasFileNames_of_valid hvalid hdots.1 hdots.2
    constructor
    · exact fun hkeeps hname => hnames.not_keeps henabled hf hname hkeeps
    · have hpermitted := Merge.permitted_of_texts hparsed hmerged
      exact hnames.keeps henabled hf (Document.hasDefinitionsWithin_toJson hpermitted (by decide))

/-- What the source `scalar Note` holds. -/
def noteDocument : Document := ⟨[⟨"Note", none, [], .scalar⟩]⟩

def noteFingerprint : Fingerprint := .ofList [("/schema/note.graphql", 1), ("/schema/draft", 3)]

def noteConfig (documentFile : String) : Config :=
  { cache := { enabled := true, fingerprintFile := "a", documentFile := documentFile } }

theorem isOrdered_noteFingerprint : noteFingerprint.IsOrdered := Fingerprint.isOrdered_ofList _

theorem parsed_noteDocument : ∀ p ∈ [("note.graphql", noteDocument)],
    ∃ text, Merge.IsTextOf p.2 text := by
  simp only [List.mem_singleton, forall_eq]
  exact ⟨"scalar Note", ⟨noteDocument, []⟩, by decide +kernel, rfl⟩

theorem merged_noteDocument :
    Merge.ofDocuments [("note.graphql", noteDocument)] = .ok noteDocument := by decide +kernel

theorem resolvedCache_keeps_note :
    (noteConfig "b").firstInvalid? = none ∧ (noteConfig "b").cache.enabled = true ∧
      noteFingerprint.IsOrdered ∧
      (∀ p ∈ [("note.graphql", noteDocument)], ∃ text, Merge.IsTextOf p.2 text) ∧
      Merge.ofDocuments [("note.graphql", noteDocument)] = .ok noteDocument ∧
      (noteConfig "b").resolvedCache.Keeps noteFingerprint noteDocument := by
  have hvalid : (noteConfig "b").firstInvalid? = none := by decide +kernel
  have hkeeps := resolvedCache_keeps hvalid rfl isOrdered_noteFingerprint parsed_noteDocument
    merged_noteDocument
  rw [if_neg (by decide)] at hkeeps
  exact ⟨hvalid, rfl, isOrdered_noteFingerprint, parsed_noteDocument, merged_noteDocument,
    hkeeps.mpr (by decide)⟩

/-- The temporary file of a fingerprint in `a` is the document in `a.tmp`. -/
theorem not_resolvedCache_keeps :
    (noteConfig "a.tmp").firstInvalid? = none ∧ (noteConfig "a.tmp").cache.enabled = true ∧
      noteFingerprint.IsOrdered ∧
      (∀ p ∈ [("note.graphql", noteDocument)], ∃ text, Merge.IsTextOf p.2 text) ∧
      Merge.ofDocuments [("note.graphql", noteDocument)] = .ok noteDocument ∧
      ¬(noteConfig "a.tmp").resolvedCache.Keeps noteFingerprint noteDocument := by
  have hvalid : (noteConfig "a.tmp").firstInvalid? = none := by decide +kernel
  have hnames := hasFileNames_of_valid hvalid (by decide) (by decide)
  exact ⟨hvalid, rfl, isOrdered_noteFingerprint, parsed_noteDocument, merged_noteDocument,
    hnames.not_keeps rfl isOrdered_noteFingerprint (by decide)⟩

end Config

end GraphSchema
