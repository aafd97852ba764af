import GraphSchema.Proofs.Merge.Files

/-!
# Three ways into a merge

Files are merged as the sources that are read from them, and sources as the documents that are
parsed from them. On the way a warning comes up for every entry that is skipped, and for nothing
else.
-/

namespace GraphSchema.Merge

/-- The warning that an entry of a source is skipped. It is placed where the entry stands. -/
def skipWarning (origin : String) (s : Sdl.Skipped) : Diagnostic where
  code := .sdlDefinitionSkipped
  severity := .warn
  message := "\x60" ++ s.label ++ "\x60 is not merged and was skipped"
  location := some ⟨origin, some s.position.line, some s.position.column⟩

/-- The warnings about sources, given what is parsed from each. -/
def skipWarnings (sources : List (String × String)) (parsed : List Sdl.Parsed) : List Diagnostic :=
  (sources.zip parsed).flatMap fun (source, p) => p.skipped.map (skipWarning source.1)

/-- The texts of files are the sources. -/
theorem foldlM_addFile {read : String → Except String String} {files : List (String × String)}
    (h : ∀ f ∈ files, read f.1 = .ok f.2) (p : Progress) :
    (files.map (·.1)).foldlM (Progress.addFile read) p = files.foldlM Progress.addSource p := by
  induction files generalizing p with
  | nil => rfl
  | cons f files ih =>
    obtain ⟨hf, hrest⟩ := List.forall_mem_cons.mp h
    have hfile : p.addFile read f.1 = p.addSource f := by
      rw [Progress.addFile, hf]
      rfl
    rw [List.map_cons, List.foldlM_cons, List.foldlM_cons, hfile]
    congr 1
    funext q
    exact ih hrest q

theorem ofFiles_eq_ofSources {read : String → Except String String}
    {files : List (String × String)} (h : ∀ f ∈ files, read f.1 = .ok f.2) :
    ofFiles read (files.map (·.1)) = ofSources files := by
  rw [ofFiles, ofSources, foldlM_addFile h, List.isEmpty_map]

/-- A run over sources is the run over their documents, and adds the warnings about each. -/
theorem foldlM_addSource_iff {sources : List (String × String)} {p q : Progress} :
    sources.foldlM Progress.addSource p = .ok q ↔
      ∃ parsed, List.Forall₂ (fun source p => Sdl.Parsed.ofText source.2 = .ok p) sources parsed ∧
        ((sources.map (·.1)).zip (parsed.map (·.document))).foldlM
          (fun s (origin, d) => s.addDocument origin d) p.state = .ok q.state ∧
        q.diagnostics = p.diagnostics ++ skipWarnings sources parsed := by
  induction sources generalizing p with
  | nil =>
    constructor
    · intro h
      obtain rfl := Except.ok.inj h
      exact ⟨[], .nil, rfl, (List.append_nil _).symm⟩
    · rintro ⟨parsed, hparsed, hstate, hdiagnostics⟩
      obtain rfl := List.forall₂_nil_left_iff.mp hparsed
      have hsame : p = q := by
        have hstate : p.state = q.state := Except.ok.inj hstate
        have hdiagnostics : q.diagnostics = p.diagnostics := by
          simpa [skipWarnings] using hdiagnostics
        exact congrArg₂ Progress.mk hstate hdiagnostics.symm
      rw [hsame]
      rfl
  | cons source sources ih =>
    simp only [List.foldlM_cons, bind_eq_ok, addSource_eq_ok_iff, ih]
    constructor
    · rintro ⟨next, ⟨first, hfirst, hnext, hwarned⟩, parsed, hparsed, hstate, hdiagnostics⟩
      refine ⟨first :: parsed, .cons hfirst hparsed, ?_, ?_⟩
      · exact bind_eq_ok.mpr ⟨next.state, hnext, hstate⟩
      · rw [hdiagnostics, hwarned, List.append_assoc]
        rfl
    · rintro ⟨all, hall, hstate, hdiagnostics⟩
      obtain ⟨first, parsed, hfirst, hparsed, rfl⟩ := List.forall₂_cons_left_iff.mp hall
      obtain ⟨state, hnext, hstate⟩ := bind_eq_ok.mp hstate
      refine ⟨⟨state, p.diagnostics ++ first.diagnostics (some source.1)⟩,
        ⟨first, hfirst, hnext, rfl⟩, parsed, hparsed, hstate, ?_⟩
      rw [hdiagnostics, List.append_assoc]
      rfl

theorem ofSources_eq_ok_iff {sources : List (String × String)} {m : Merged} :
    ofSources sources = .ok m ↔
      ∃ parsed, List.Forall₂ (fun source p => Sdl.Parsed.ofText source.2 = .ok p) sources parsed ∧
        ofDocuments ((sources.map (·.1)).zip (parsed.map (·.document))) = .ok m.document ∧
        m.diagnostics = skipWarnings sources parsed := by
  cases sources with
  | nil =>
    constructor
    · intro h
      exact absurd h (by simp [ofSources])
    · rintro ⟨parsed, -, hdocument, -⟩
      exact absurd hdocument (by simp [ofDocuments])
  | cons source sources =>
    constructor
    · intro h
      obtain ⟨q, hq, hfinish⟩ := bind_eq_ok.mp h
      obtain rfl := Except.ok.inj hfinish
      obtain ⟨parsed, hparsed, hstate, hdiagnostics⟩ := foldlM_addSource_iff.mp hq
      refine ⟨parsed, hparsed, ?_, hdiagnostics⟩
      obtain ⟨first, rest, -, -, rfl⟩ := List.forall₂_cons_left_iff.mp hparsed
      exact bind_eq_ok.mpr ⟨q.state, hstate, rfl⟩
    · rintro ⟨parsed, hparsed, hdocument, hdiagnostics⟩
      obtain ⟨first, rest, -, -, rfl⟩ := List.forall₂_cons_left_iff.mp hparsed
      obtain ⟨state, hstate, hdocument⟩ := bind_eq_ok.mp hdocument
      have hfold := (foldlM_addSource_iff (p := .start) (q := ⟨state, m.diagnostics⟩)).mpr
        ⟨first :: rest, hparsed, hstate, hdiagnostics⟩
      refine bind_eq_ok.mpr ⟨_, hfold, ?_⟩
      have hdocument : state.document = m.document := Except.ok.inj hdocument
      rw [Progress.finish, hdocument]
      rfl

/-- Files that can be read are merged as the sources in them, to the same result or with the same
error. Sources can be merged exactly if each of them can be parsed and the documents can be merged,
to the same document, and the warnings are those about what is skipped, in order. -/
theorem ways_agree :
    (∀ (read : String → Except String String) (files : List (String × String)),
      (∀ f ∈ files, read f.1 = .ok f.2) → ofFiles read (files.map (·.1)) = ofSources files) ∧
    ∀ (sources : List (String × String)) (m : Merged), ofSources sources = .ok m ↔
      ∃ parsed, List.Forall₂ (fun source p => Sdl.Parsed.ofText source.2 = .ok p) sources parsed ∧
        ofDocuments ((sources.map (·.1)).zip (parsed.map (·.document))) = .ok m.document ∧
        m.diagnostics = (sources.zip parsed).flatMap fun (source, p) =>
          p.skipped.map (skipWarning source.1) :=
  ⟨fun _ _ h => ofFiles_eq_ofSources h, fun _ _ => ofSources_eq_ok_iff⟩

/-- Two files in which three entries are skipped. -/
def wardFiles : List (String × String) :=
  [("city.graphql", "scalar City extend scalar City @tag"),
    ("ward.graphql", "directive @tag on SCALAR schema \x7b query: Query \x7d type Ward")]

def readWard (path : String) : Except String String :=
  (wardFiles.lookup path).elim (.error "missing") .ok

theorem ways_agree_ward :
    (∀ f ∈ wardFiles, readWard f.1 = .ok f.2) ∧
      ofFiles readWard (wardFiles.map (·.1)) = ofSources wardFiles ∧
      ∃ m parsed, ofSources wardFiles = .ok m ∧
        List.Forall₂ (fun source p => Sdl.Parsed.ofText source.2 = .ok p) wardFiles parsed ∧
        ofDocuments ((wardFiles.map (·.1)).zip (parsed.map (·.document))) = .ok m.document ∧
        m.diagnostics = (wardFiles.zip parsed).flatMap (fun (source, p) =>
          p.skipped.map (skipWarning source.1)) ∧ m.diagnostics.length = 3 := by
  have hread : ∀ f ∈ wardFiles, readWard f.1 = .ok f.2 :=
    List.forall_mem_cons.mpr ⟨by rfl, List.forall_mem_cons.mpr ⟨by rfl, List.forall_mem_nil _⟩⟩
  have hcheck : (ofSources wardFiles).toOption.any (·.diagnostics.length == 3) = true := by
    decide +kernel
  obtain ⟨m, hm, hlength⟩ := exists_ok_of_any hcheck
  obtain ⟨parsed, hparsed, hdocument, hdiagnostics⟩ := (ways_agree.2 wardFiles m).mp hm
  exact ⟨hread, ways_agree.1 readWard wardFiles hread, m, parsed, hm, hparsed, hdocument,
    hdiagnostics, by simpa using hlength⟩

end GraphSchema.Merge
