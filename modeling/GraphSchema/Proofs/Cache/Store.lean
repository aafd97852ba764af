import GraphSchema.Proofs.Cache.Artifacts
import GraphSchema.Proofs.Path

/-!
# What a store leaves behind

A store that goes well leaves both texts at their paths, unless the document stands where the
fingerprint is written before it is moved. There the document is lost, and the store goes well all
the same.
-/

namespace GraphSchema

/-- A run of a program from one disk to another, and its result. -/
def FileProgram.Runs {α : Type} (p : FileProgram α) (d : Disk) (a : α) (after : Disk) : Prop :=
  Relation.ReflTransGen Step (p, d) (.done a, after)

namespace FileProgram

variable {α β : Type} {d after : Disk}

theorem runs_done_iff {a b : α} : Runs (.done a) d b after ↔ a = b ∧ d = after := by
  constructor
  · intro h
    rcases Relation.ReflTransGen.cases_head h with heq | ⟨next, hstep, -⟩
    · obtain ⟨hdone, rfl⟩ := Prod.mk.inj heq
      exact ⟨FileProgram.done.inj hdone, rfl⟩
    · cases hstep
  · rintro ⟨rfl, rfl⟩
    exact .refl

theorem runs_call_iff {request : FileCall} {next : request.Reply → FileProgram α} {a : α} :
    Runs (.call request next) d a after ↔
      ∃ reply mid, d.Answers request reply mid ∧ Runs (next reply) mid a after := by
  constructor
  · intro h
    rcases Relation.ReflTransGen.cases_head h with heq | ⟨_, hstep, hrest⟩
    · exact absurd (Prod.mk.inj heq).1 (by simp)
    · cases hstep with
      | call hanswer => exact ⟨_, _, hanswer, hrest⟩
  · rintro ⟨reply, mid, hanswer, hrest⟩
    exact .head (.call hanswer) hrest

theorem runs_bind_iff {p : FileProgram α} {next : α → FileProgram β} {b : β} :
    Runs (p.bind next) d b after ↔ ∃ a mid, Runs p d a mid ∧ Runs (next a) mid b after := by
  induction p generalizing d with
  | done a =>
    constructor
    · exact fun h => ⟨a, d, runs_done_iff.mpr ⟨rfl, rfl⟩, h⟩
    · rintro ⟨a, mid, hdone, hnext⟩
      obtain ⟨rfl, rfl⟩ := runs_done_iff.mp hdone
      exact hnext
  | call request rest ih =>
    constructor
    · intro h
      obtain ⟨reply, first, hanswer, hrest⟩ := runs_call_iff.mp h
      obtain ⟨a, mid, ha, hnext⟩ := (ih reply).mp hrest
      exact ⟨a, mid, runs_call_iff.mpr ⟨reply, first, hanswer, ha⟩, hnext⟩
    · rintro ⟨a, mid, ha, hnext⟩
      obtain ⟨reply, first, hanswer, hrest⟩ := runs_call_iff.mp ha
      exact runs_call_iff.mpr ⟨reply, first, hanswer, (ih reply).mpr ⟨a, mid, hrest, hnext⟩⟩

/-- A program of one call ends as the disk answers the call. -/
theorem runs_answer_iff {request : FileCall} {reply : request.Reply} :
    Runs (.call request .done) d reply after ↔ d.Answers request reply after := by
  refine runs_call_iff.trans ⟨?_, fun hanswer => ?_⟩
  · rintro ⟨reply, mid, hanswer, hdone⟩
    obtain ⟨rfl, rfl⟩ := runs_done_iff.mp hdone
    exact hanswer
  · exact ⟨reply, after, hanswer, runs_done_iff.mpr ⟨rfl, rfl⟩⟩

theorem runs_makeDirectories_iff {path : String} :
    Runs (makeDirectories path) d (.ok ()) after ↔ after = d := by
  refine runs_answer_iff.trans ⟨?_, ?_⟩
  · rintro ⟨⟩
    rfl
  · rintro rfl
    exact .makeDirectories path _

theorem runs_write_ok_iff {path text : String} :
    Runs (write path text) d (.ok ()) after ↔ after = d.put path (some text) := by
  refine runs_answer_iff.trans ⟨?_, ?_⟩
  · rintro ⟨⟩
    rfl
  · rintro rfl
    exact .written path text

theorem runs_rename_ok_iff {source target : String} :
    Runs (rename source target) d (.ok ()) after ↔
      ∃ text, d (Path.components source) = some text ∧
        after = (d.put source none).put target (some text) := by
  refine runs_answer_iff.trans ⟨?_, ?_⟩
  · intro hanswer
    cases hanswer with
    | renamed hsource => exact ⟨_, hsource, rfl⟩
  · rintro ⟨text, hsource, rfl⟩
    exact .renamed hsource

end FileProgram

open FileProgram

theorem Disk.put_put (d : Disk) (path : String) (first second : Option String) :
    (d.put path first).put path second = d.put path second := Function.update_idem ..

/-- The disk with a text at a path, moved there from the file beside it. -/
def Disk.replace (d : Disk) (path text : String) : Disk :=
  (d.put (CacheProgram.temporaryPath path) none).put path (some text)

namespace CacheProgram

variable {α : Type} {d after : Disk}

theorem runs_bind_ok_iff {x : CacheProgram Unit} {next : Unit → CacheProgram α} {a : α} :
    Runs (x >>= next).run d (.ok a) after ↔
      ∃ mid, Runs x.run d (.ok ()) mid ∧ Runs (next ()).run mid (.ok a) after := by
  refine runs_bind_iff.trans ⟨?_, ?_⟩
  · rintro ⟨r, mid, hx, hnext⟩
    cases r with
    | ok _ => exact ⟨mid, hx, hnext⟩
    | error e => exact absurd (runs_done_iff.mp hnext).1 (by simp)
  · rintro ⟨mid, hx, hnext⟩
    exact ⟨.ok (), mid, hx, hnext⟩

theorem runs_located_ok_iff {path : String} {p : FileProgram (Except FileError Unit)} :
    Runs (located path p).run d (.ok ()) after ↔ Runs p d (.ok ()) after := by
  refine runs_bind_iff.trans ⟨?_, ?_⟩
  · rintro ⟨r, mid, hp, hdone⟩
    cases r with
    | ok _ =>
      obtain ⟨-, rfl⟩ := runs_done_iff.mp hdone
      exact hp
    | error reason => exact absurd (runs_done_iff.mp hdone).1 (by simp)
  · exact fun hp => ⟨.ok (), after, hp, runs_done_iff.mpr ⟨rfl, rfl⟩⟩

theorem runs_removeIfPresent (path : String) (d : Disk) :
    ∃ after, Runs (removeIfPresent path).run d (.ok ()) after := by
  cases h : d (Path.components path) with
  | none =>
    exact ⟨d, runs_call_iff.mpr ⟨.error .missing, d, .notRemoved fun _ => h,
      runs_done_iff.mpr ⟨rfl, rfl⟩⟩⟩
  | some text =>
    exact ⟨d.put path none, runs_call_iff.mpr ⟨.ok (), _, .removed h,
      runs_done_iff.mpr ⟨rfl, rfl⟩⟩⟩

/-- The text that is moved is the one that was written. -/
theorem runs_replaceText_iff {path text : String} :
    Runs (replaceText path text).run d (.ok ()) after ↔ after = d.replace path text := by
  refine runs_bind_ok_iff.trans ⟨?_, ?_⟩
  · rintro ⟨mid, hwrite, hmove⟩
    rw [runs_located_ok_iff, runs_write_ok_iff] at hwrite
    rw [runs_located_ok_iff, runs_rename_ok_iff] at hmove
    obtain rfl := hwrite
    obtain ⟨moved, hmoved, rfl⟩ := hmove
    rw [Disk.put_self] at hmoved
    rw [← Option.some.inj hmoved, Disk.put_put]
    rfl
  · rintro rfl
    refine ⟨d.put (temporaryPath path) (some text), ?_, ?_⟩
    · exact runs_located_ok_iff.mpr (runs_write_ok_iff.mpr rfl)
    · refine runs_located_ok_iff.mpr (runs_rename_ok_iff.mpr ⟨text, Disk.put_self .., ?_⟩)
      rw [Disk.put_put]
      rfl

end CacheProgram

/-- The names of the artifacts are names of files, and differ. -/
structure CacheSettings.HasFileNames (c : CacheSettings) : Prop where
  fingerprint : Path.IsEntryName c.fingerprintFile
  document : Path.IsEntryName c.documentFile
  differ : c.fingerprintFile ≠ c.documentFile

namespace CacheSettings

open CacheProgram

variable {c : CacheSettings} {f : Fingerprint} {d : Document} {disk after : Disk}

/-- A store that goes well puts the document in its place and then the fingerprint. -/
theorem runs_store_ok_iff :
    Runs (c.store f d).run disk (.ok ()) after ↔
      ∃ mid, Runs (removeIfPresent c.fingerprintPath).run disk (.ok ()) mid ∧
        after = (mid.replace c.documentPath (Snapshot.of f d).toText).replace c.fingerprintPath
          f.toText := by
  refine runs_bind_iff.trans ⟨?_, ?_⟩
  · rintro ⟨r, last, hwrite, hdone⟩
    cases r with
    | ok _ =>
      obtain ⟨-, rfl⟩ := runs_done_iff.mp hdone
      obtain ⟨first, hdirectory, hwrite⟩ := runs_bind_ok_iff.mp hwrite
      obtain ⟨mid, hremove, hwrite⟩ := runs_bind_ok_iff.mp hwrite
      obtain ⟨second, hdocument, hfingerprint⟩ := runs_bind_ok_iff.mp hwrite
      rw [runs_located_ok_iff, runs_makeDirectories_iff] at hdirectory
      obtain rfl := hdirectory
      obtain rfl := runs_replaceText_iff.mp hdocument
      exact ⟨mid, hremove, runs_replaceText_iff.mp hfingerprint⟩
    | error e =>
      obtain ⟨_, _, -, hend⟩ := runs_bind_iff.mp hdone
      exact absurd (runs_done_iff.mp hend).1 (by simp)
  · rintro ⟨mid, hremove, rfl⟩
    refine ⟨.ok (), _, runs_bind_ok_iff.mpr ⟨disk, ?_, runs_bind_ok_iff.mpr ⟨mid, hremove, ?_⟩⟩,
      runs_done_iff.mpr ⟨rfl, rfl⟩⟩
    · exact runs_located_ok_iff.mpr (runs_makeDirectories_iff.mpr rfl)
    · exact runs_bind_ok_iff.mpr ⟨_, runs_replaceText_iff.mpr rfl, runs_replaceText_iff.mpr rfl⟩

theorem exists_runs_store (c : CacheSettings) (f : Fingerprint) (d : Document) (disk : Disk) :
    ∃ after, Runs (c.store f d).run disk (.ok ()) after := by
  obtain ⟨mid, hremove⟩ := runs_removeIfPresent c.fingerprintPath disk
  exact ⟨_, runs_store_ok_iff.mpr ⟨mid, hremove, rfl⟩⟩

theorem stored_fingerprint (hrun : Runs (c.store f d).run disk (.ok ()) after) :
    after (Path.components c.fingerprintPath) = some f.toText := by
  obtain ⟨mid, -, rfl⟩ := runs_store_ok_iff.mp hrun
  exact Disk.put_self ..

namespace HasFileNames

theorem components_fingerprintPath (h : c.HasFileNames) :
    Path.components c.fingerprintPath = Path.components c.directory ++ [.name c.fingerprintFile] :=
  Path.components_join c.directory h.fingerprint

theorem components_documentPath (h : c.HasFileNames) :
    Path.components c.documentPath = Path.components c.directory ++ [.name c.documentFile] :=
  Path.components_join c.directory h.document

theorem components_temporaryPath (h : c.HasFileNames) :
    Path.components (temporaryPath c.fingerprintPath) =
      Path.components c.directory ++ [.name (c.fingerprintFile ++ ".tmp")] := by
  rw [temporaryPath, fingerprintPath, Path.fileName?_join c.directory h.fingerprint]
  exact Path.components_withFileName c.directory h.fingerprint h.fingerprint.append_tmp

theorem documentPath_ne_fingerprintPath (h : c.HasFileNames) :
    Path.components c.documentPath ≠ Path.components c.fingerprintPath := by
  rw [h.components_documentPath, h.components_fingerprintPath]
  intro heq
  exact h.differ (by simpa using heq.symm)

theorem documentPath_eq_temporaryPath_iff (h : c.HasFileNames) :
    Path.components c.documentPath = Path.components (temporaryPath c.fingerprintPath) ↔
      c.documentFile = c.fingerprintFile ++ ".tmp" := by
  rw [h.components_documentPath, h.components_temporaryPath]
  simp

/-- The document is there unless its path is the one that the fingerprint was written to first. -/
theorem stored_document (h : c.HasFileNames)
    (hrun : Runs (c.store f d).run disk (.ok ()) after) :
    after (Path.components c.documentPath) =
      if c.documentFile = c.fingerprintFile ++ ".tmp" then none
      else some (Snapshot.of f d).toText := by
  obtain ⟨mid, -, rfl⟩ := runs_store_ok_iff.mp hrun
  rw [Disk.replace, Disk.put_of_ne _ h.documentPath_ne_fingerprintPath]
  split
  · next hname =>
    rw [h.documentPath_eq_temporaryPath_iff.mpr hname]
    exact Disk.put_self ..
  · next hname =>
    rw [Disk.put_of_ne _ fun heq => hname (h.documentPath_eq_temporaryPath_iff.mp heq)]
    exact Disk.put_self ..

end HasFileNames

end CacheSettings

end GraphSchema
