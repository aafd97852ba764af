import GraphSchema.Proofs.Cache.Store
import GraphSchema.Proofs.Cache.Transparency

/-!
# Consistent artifacts

A store takes the old fingerprint away before it touches the document, and puts the new one in its
place last. So whichever calls fail, and wherever it is stopped, a fingerprint on the disk has its
own document beside it, or none.
-/

namespace GraphSchema

/-- Wherever a run of a program ends or is stopped, the disk has a property. -/
def FileProgram.Throughout {α : Type} (Inv : Disk → Prop) (p : FileProgram α) (d : Disk) : Prop :=
  ∀ q after, Relation.ReflTransGen Step (p, d) (q, after) → Inv after

namespace FileProgram

variable {α β : Type} {Inv : Disk → Prop} {d : Disk}

theorem throughout_done {a : α} (h : Inv d) : Throughout Inv (.done a) d := by
  intro q after hrun
  rcases Relation.ReflTransGen.cases_head hrun with heq | ⟨next, hstep, -⟩
  · obtain ⟨-, rfl⟩ := Prod.mk.inj heq
    exact h
  · cases hstep

theorem throughout_call {request : FileCall} {next : request.Reply → FileProgram α} (h : Inv d)
    (hnext : ∀ reply mid, d.Answers request reply mid → Throughout Inv (next reply) mid) :
    Throughout Inv (.call request next) d := by
  intro q after hrun
  rcases Relation.ReflTransGen.cases_head hrun with heq | ⟨_, hstep, hrest⟩
  · obtain ⟨-, rfl⟩ := Prod.mk.inj heq
    exact h
  · cases hstep with
    | call hanswer => exact hnext _ _ hanswer q after hrest

theorem Throughout.start {p : FileProgram α} (h : Throughout Inv p d) : Inv d := h p d .refl

theorem Throughout.bind {p : FileProgram α} {next : α → FileProgram β} (h : Throughout Inv p d)
    (hnext : ∀ a mid, Runs p d a mid → Throughout Inv (next a) mid) :
    Throughout Inv (p.bind next) d := by
  induction p generalizing d with
  | done a => exact hnext a d .refl
  | call request rest ih =>
    refine throughout_call h.start fun reply mid hanswer => ih reply ?_ fun a last hrun => ?_
    · exact fun q after hrun => h q after (.head (.call hanswer) hrun)
    · exact hnext a last (.head (.call hanswer) hrun)

/-- A program that leaves every disk as it is. -/
def ReadOnly (p : FileProgram α) : Prop := ∀ d, Throughout (· = d) p d

theorem ReadOnly.throughout {p : FileProgram α} (hp : p.ReadOnly) (h : Inv d) :
    Throughout Inv p d := by
  intro q after hrun
  rw [hp d q after hrun]
  exact h

theorem ReadOnly.bind {p : FileProgram α} {next : α → FileProgram β} (hp : p.ReadOnly)
    (hnext : ∀ a, (next a).ReadOnly) : (p.bind next).ReadOnly := by
  refine fun d => (hp d).bind fun a mid hrun => ?_
  obtain rfl : mid = d := hp d _ _ hrun
  exact hnext a mid

theorem readOnly_done (a : α) : (done a).ReadOnly := fun _ => throughout_done rfl

theorem readOnly_read (path : String) : (read path).ReadOnly := by
  refine fun d => throughout_call rfl fun reply mid hanswer => ?_
  cases hanswer <;> exact throughout_done rfl

theorem readOnly_probe (path : String) : (probe path).ReadOnly := by
  refine fun d => throughout_call rfl fun reply mid hanswer => ?_
  cases hanswer <;> exact throughout_done rfl

theorem text_of_runs_read {path text : String} {after : Disk}
    (h : Runs (read path) d (.ok text) after) : d (Path.components path) = some text := by
  have hanswer := runs_answer_iff.mp h
  cases hanswer with
  | read htext => exact htext

end FileProgram

open FileProgram

namespace CacheProgram

variable {α : Type} {Inv : Disk → Prop} {d after : Disk}

theorem throughout_bind {x : CacheProgram Unit} {next : Unit → CacheProgram α}
    (hx : Throughout Inv x.run d)
    (hnext : ∀ mid, Runs x.run d (.ok ()) mid → Throughout Inv (next ()).run mid) :
    Throughout Inv (x >>= next).run d := by
  refine Throughout.bind hx fun r mid hr => ?_
  cases r with
  | ok _ => exact hnext mid hr
  | error e => exact throughout_done (hx _ _ hr)

theorem throughout_makeDirectories {path : String} (h : Inv d) :
    Throughout Inv (located path (makeDirectories path)).run d := by
  refine throughout_call h fun reply mid hanswer => ?_
  cases hanswer
  cases reply <;> exact throughout_done h

theorem throughout_removeIfPresent {path : String} (h : Inv d) (hremoved : Inv (d.put path none)) :
    Throughout Inv (removeIfPresent path).run d := by
  refine throughout_call h fun reply mid hanswer => ?_
  cases hanswer with
  | removed => exact throughout_done hremoved
  | @notRemoved _ reason => cases reason <;> exact throughout_done h

theorem missing_of_runs_removeIfPresent {path : String}
    (h : Runs (removeIfPresent path).run d (.ok ()) after) :
    after (Path.components path) = none := by
  obtain ⟨reply, mid, hanswer, hdone⟩ := runs_call_iff.mp h
  cases hanswer with
  | removed =>
    obtain ⟨-, rfl⟩ := runs_done_iff.mp hdone
    exact Disk.put_self ..
  | @notRemoved _ reason hmissing =>
    cases reason with
    | missing =>
      obtain ⟨-, rfl⟩ := runs_done_iff.mp hdone
      exact hmissing rfl
    | _ => exact absurd (runs_done_iff.mp hdone).1 (by simp)

theorem throughout_replaceText {path text : String} (h : Inv d)
    (hwritten : ∀ part, Inv (d.put (temporaryPath path) (some part)))
    (hmoved : Inv (d.replace path text)) : Throughout Inv (replaceText path text).run d := by
  refine throughout_bind (throughout_call h fun reply mid hanswer => ?_) fun mid hwrite => ?_
  · cases hanswer with
    | written => exact throughout_done (hwritten _)
    | cutOff => exact throughout_done (hwritten _)
    | notWritten => exact throughout_done h
  · rw [runs_located_ok_iff, runs_write_ok_iff] at hwrite
    subst hwrite
    refine throughout_call (hwritten text) fun reply last hanswer => ?_
    cases hanswer with
    | renamed hsource =>
      rw [Disk.put_self] at hsource
      rw [← Option.some.inj hsource, Disk.put_put]
      exact throughout_done hmoved
    | notRenamed => exact throughout_done (hwritten text)

end CacheProgram

/-- The artifacts on a disk are the texts of a fingerprint and of a document that goes with it. -/
structure Disk.HasArtifacts (d : Disk) (c : CacheSettings) (f : Fingerprint) (m : Document) :
    Prop where
  fingerprint : d (Path.components c.fingerprintPath) = some f.toText
  document : d (Path.components c.documentPath) = some (Snapshot.of f m).toText

/-- There is no fingerprint, or one with an allowed document, which stands beside it if any does. -/
def Disk.Consistent (allowed : Fingerprint → Document → Prop) (c : CacheSettings) (d : Disk) :
    Prop :=
  d (Path.components c.fingerprintPath) = none ∨ ∃ f m, allowed f m ∧
    d (Path.components c.fingerprintPath) = some f.toText ∧
      (d (Path.components c.documentPath) = none ∨
        d (Path.components c.documentPath) = some (Snapshot.of f m).toText)

namespace Disk.Consistent

variable {allowed : Fingerprint → Document → Prop} {c : CacheSettings} {d : Disk}

theorem mono (h : d.Consistent allowed c) {more : Fingerprint → Document → Prop}
    (hmore : ∀ f m, allowed f m → more f m) : d.Consistent more c := by
  rcases h with hnone | ⟨f, m, hallowed, hartifacts⟩
  · exact .inl hnone
  · exact .inr ⟨f, m, hmore f m hallowed, hartifacts⟩

theorem put_none (h : d.Consistent allowed c) (path : String) :
    (d.put path none).Consistent allowed c := by
  have hkeep : ∀ key, (d.put path none) key = none ∨ (d.put path none) key = d key := by
    intro key
    by_cases hkey : key = Path.components path
    · rw [hkey]
      exact .inl (Disk.put_self ..)
    · exact .inr (Disk.put_of_ne d hkey none)
  rcases h with hnone | ⟨f, m, hallowed, hfingerprint, hdocument⟩
  · exact .inl ((hkeep _).elim id fun heq => heq.trans hnone)
  · rcases hkeep (Path.components c.fingerprintPath) with hnone | heq
    · exact .inl hnone
    · refine .inr ⟨f, m, hallowed, heq.trans hfingerprint, ?_⟩
      rcases hkeep (Path.components c.documentPath) with hnone | heq
      · exact .inl hnone
      · rwa [heq]

end Disk.Consistent

namespace CacheSettings

open CacheProgram

/-- The artifacts and the files where they are written first have four different paths. -/
def PathsApart (c : CacheSettings) : Prop :=
  ([c.fingerprintPath, c.documentPath, temporaryPath c.fingerprintPath,
    temporaryPath c.documentPath].map Path.components).Nodup

variable {c : CacheSettings} {allowed : Fingerprint → Document → Prop} {f : Fingerprint}
  {m : Document} {d after : Disk}

theorem PathsApart.fingerprintPath_ne (h : c.PathsApart) :
    Path.components c.fingerprintPath ≠ Path.components c.documentPath ∧
      Path.components c.fingerprintPath ≠ Path.components (temporaryPath c.fingerprintPath) ∧
        Path.components c.fingerprintPath ≠ Path.components (temporaryPath c.documentPath) := by
  simpa using (List.nodup_cons.mp h).1

theorem PathsApart.documentPath_ne (h : c.PathsApart) :
    Path.components c.documentPath ≠ Path.components (temporaryPath c.fingerprintPath) := by
  have hne := (List.nodup_cons.mp (List.nodup_cons.mp h).2).1
  exact fun heq => hne (heq ▸ List.mem_cons_self)

theorem hasArtifacts_replace (h : c.PathsApart) (f : Fingerprint) (m : Document) (d : Disk) :
    ((d.replace c.documentPath (Snapshot.of f m).toText).replace c.fingerprintPath
      f.toText).HasArtifacts c f m where
  fingerprint := Disk.put_self ..
  document := by
    rw [Disk.replace, Disk.put_of_ne _ h.fingerprintPath_ne.1.symm,
      Disk.put_of_ne _ h.documentPath_ne]
    exact Disk.put_self ..

theorem hasArtifacts_of_runs_store (h : c.PathsApart)
    (hrun : Runs (c.store f m).run d (.ok ()) after) : after.HasArtifacts c f m := by
  obtain ⟨mid, -, rfl⟩ := runs_store_ok_iff.mp hrun
  exact hasArtifacts_replace h f m mid

theorem throughout_writeArtifacts (hapart : c.PathsApart) (h : d.Consistent allowed c)
    (hallowed : allowed f m) :
    Throughout (Disk.Consistent allowed c) (c.writeArtifacts f m).run d := by
  obtain ⟨hdocument, htemporary, hother⟩ := hapart.fingerprintPath_ne
  refine throughout_bind (throughout_makeDirectories h) fun first hfirst => ?_
  rw [runs_located_ok_iff, runs_makeDirectories_iff] at hfirst
  subst hfirst
  refine throughout_bind (throughout_removeIfPresent h (h.put_none _)) fun second hsecond => ?_
  -- From here on there is no fingerprint, until both texts are in place.
  have hnone := missing_of_runs_removeIfPresent hsecond
  have hreplaced : second.replace c.documentPath (Snapshot.of f m).toText
      (Path.components c.fingerprintPath) = none := by
    rw [Disk.replace, Disk.put_of_ne _ hdocument, Disk.put_of_ne _ hother, hnone]
  refine throughout_bind (throughout_replaceText (.inl hnone) (fun part => .inl ?_)
    (.inl hreplaced)) fun third hthird => ?_
  · rw [Disk.put_of_ne _ hother, hnone]
  · obtain rfl := runs_replaceText_iff.mp hthird
    have hartifacts := hasArtifacts_replace hapart f m second
    refine throughout_replaceText (.inl hreplaced) (fun part => .inl ?_) (.inr ⟨f, m, hallowed,
      hartifacts.fingerprint, .inr hartifacts.document⟩)
    rw [Disk.put_of_ne _ htemporary, hreplaced]

theorem throughout_store (hapart : c.PathsApart) (h : d.Consistent allowed c)
    (hallowed : allowed f m) : Throughout (Disk.Consistent allowed c) (c.store f m).run d := by
  have hwrite := throughout_writeArtifacts hapart h hallowed
  refine Throughout.bind hwrite fun r mid hr => ?_
  have hmid : mid.Consistent allowed c := hwrite _ _ hr
  cases r with
  | ok _ => exact throughout_done hmid
  | error e =>
    refine throughout_call hmid fun reply last hanswer => ?_
    cases hanswer with
    | removed => exact throughout_done (hmid.put_none _)
    | notRemoved => exact throughout_done hmid

theorem throughout_clear (h : d.Consistent allowed c) :
    Throughout (Disk.Consistent allowed c) c.clear.run d := by
  have hfirst := throughout_removeIfPresent h (h.put_none c.fingerprintPath)
  refine throughout_bind hfirst fun mid hmid => ?_
  have hrest : mid.Consistent allowed c := hfirst _ _ hmid
  exact throughout_removeIfPresent hrest (hrest.put_none _)

theorem readOnly_storedFingerprint (c : CacheSettings) : c.storedFingerprint.ReadOnly := by
  refine (readOnly_read _).bind fun text => ?_
  cases text <;> exact readOnly_done _

theorem readOnly_storedDocument (c : CacheSettings) (f : Fingerprint) :
    (c.storedDocument f).ReadOnly := by
  refine (readOnly_probe _).bind fun present => ?_
  cases present with
  | false => exact readOnly_done _
  | true =>
    refine (readOnly_read _).bind fun text => ?_
    cases text with
    | error reason => exact readOnly_done _
    | ok text =>
      dsimp only
      split <;> exact readOnly_done _

theorem readOnly_lookup (c : CacheSettings) (f : Fingerprint) : (c.lookup f).ReadOnly := by
  unfold lookup
  split
  · refine c.readOnly_storedFingerprint.bind fun stored => ?_
    cases stored with
    | none => exact readOnly_done _
    | some stored =>
      dsimp only
      split
      · exact c.readOnly_storedDocument f
      · exact readOnly_done _
  · exact readOnly_done _

theorem stored_of_runs {stored : Fingerprint}
    (h : Runs c.storedFingerprint d (some stored) after) : ∃ entry,
      d (Path.components c.fingerprintPath) = some entry ∧
        Fingerprint.ofText? entry = some stored := by
  obtain ⟨r, mid, hread, h⟩ := runs_bind_iff.mp h
  cases r with
  | error reason => exact absurd (runs_done_iff.mp h).1 (by simp)
  | ok entry => exact ⟨entry, text_of_runs_read hread, (runs_done_iff.mp h).1⟩

theorem document_of_runs (h : Runs (c.storedDocument f) d (.hit m) after) :
    ∃ text, d (Path.components c.documentPath) = some text := by
  obtain ⟨present, mid, hprobe, h⟩ := runs_bind_iff.mp h
  obtain rfl : mid = d := readOnly_probe _ d _ _ hprobe
  cases present with
  | false => exact absurd (runs_done_iff.mp h).1 (by simp)
  | true =>
    obtain ⟨r, last, hread, h⟩ := runs_bind_iff.mp h
    cases r with
    | error reason => exact absurd (runs_done_iff.mp h).1 (by simp)
    | ok text => exact ⟨text, text_of_runs_read hread⟩

/-- A document is found beside a fingerprint that says the same as the one asked for. -/
theorem artifacts_of_hit (h : Runs (c.lookup f) d (.hit m) after) : ∃ entry stored text,
    d (Path.components c.fingerprintPath) = some entry ∧ Fingerprint.ofText? entry = some stored ∧
      stored.same f = true ∧ d (Path.components c.documentPath) = some text := by
  unfold lookup at h
  split at h
  · obtain ⟨found, mid, hfound, h⟩ := runs_bind_iff.mp h
    obtain rfl : mid = d := readOnly_storedFingerprint c d _ _ hfound
    cases found with
    | none => exact absurd (runs_done_iff.mp h).1 (by simp)
    | some stored =>
      obtain ⟨entry, hentry, hstored⟩ := stored_of_runs hfound
      dsimp only at h
      split at h
      · next hsame =>
        obtain ⟨text, htext⟩ := document_of_runs h
        exact ⟨entry, stored, text, hentry, hstored, hsame, htext⟩
      · exact absurd (runs_done_iff.mp h).1 (by simp)
  · exact absurd (runs_done_iff.mp h).1 (by simp)

end CacheSettings

/-- How a build may end, and the disk that it leaves behind. -/
inductive Builder.Ends (b : Builder) (t : FileTree) (d : Disk) :
    Except BuildError BuildOutput → Disk → Prop
  | failed (e : BuildError) : Ends b t d (.error e) d
  | disabled {output : BuildOutput} (h : output.status = .disabled) : Ends b t d (.ok output) d
  | found {output : BuildOutput} {collected : Collection} {m : Document}
      (h : output.status = .hit) (hcollect : t.collect b.sources = .ok collected)
      (hnonempty : collected.fingerprint.isEmpty = false)
      (hfound : Runs (b.cache.lookup collected.fingerprint) d (.hit m) d) :
      Ends b t d (.ok output) d
  | merged {output : BuildOutput} {collected : Collection} {merged : Merge.Merged}
      {r : Except CacheError Unit} {after : Disk} (h : output.status = .miss r.isOk)
      (hcollect : t.collect b.sources = .ok collected)
      (hnonempty : collected.fingerprint.isEmpty = false)
      (hmerge : Merge.ofFiles t.textOf collected.fingerprint.files = .ok merged)
      (hstore : Runs (b.cache.store collected.fingerprint merged.document).run d r after) :
      Ends b t d (.ok output) after

namespace Builder

variable {b : Builder} {t : FileTree} {d after : Disk} {collected : Collection}

theorem ends_of_runs_buildAnew {reason : MissReason} {r : Except BuildError BuildOutput}
    (hcollect : t.collect b.sources = .ok collected)
    (hnonempty : collected.fingerprint.isEmpty = false)
    (h : Runs (b.buildAnew t.textOf collected reason) d r after) : b.Ends t d r after := by
  unfold buildAnew at h
  cases hmerge : Merge.ofFiles t.textOf collected.fingerprint.files with
  | error e =>
    rw [hmerge] at h
    obtain ⟨rfl, rfl⟩ := runs_done_iff.mp h
    exact .failed _
  | ok merged =>
    rw [hmerge] at h
    obtain ⟨output, mid, hpersist, h⟩ := runs_bind_iff.mp h
    obtain ⟨rfl, rfl⟩ := runs_done_iff.mp h
    unfold persist at hpersist
    split at hpersist
    · obtain ⟨stored, last, hstore, h⟩ := runs_bind_iff.mp hpersist
      cases stored with
      | ok _ =>
        obtain ⟨rfl, rfl⟩ := runs_done_iff.mp h
        exact .merged rfl hcollect hnonempty hmerge hstore
      | error e =>
        obtain ⟨rfl, rfl⟩ := runs_done_iff.mp h
        exact .merged rfl hcollect hnonempty hmerge hstore
    · obtain ⟨rfl, rfl⟩ := runs_done_iff.mp hpersist
      exact .disabled rfl

theorem ends_of_runs {r : Except BuildError BuildOutput}
    (h : Runs (b.program t.readText (t.collect b.sources)) d r after) : b.Ends t d r after := by
  cases hcollect : t.collect b.sources with
  | error e =>
    rw [hcollect] at h
    obtain ⟨rfl, rfl⟩ := runs_done_iff.mp h
    exact .failed _
  | ok collected =>
    rw [hcollect] at h
    replace h : Runs (b.buildFrom t.readText collected) d r after := h
    unfold buildFrom at h
    split at h
    · obtain ⟨rfl, rfl⟩ := runs_done_iff.mp h
      exact .failed _
    · next hempty =>
      have hnonempty : collected.fingerprint.isEmpty = false := by simpa using hempty
      obtain ⟨found, mid, hlookup, h⟩ := runs_bind_iff.mp h
      obtain rfl : mid = d := b.cache.readOnly_lookup _ d _ _ hlookup
      cases found with
      | hit m =>
        obtain ⟨rfl, rfl⟩ := runs_done_iff.mp h
        exact .found rfl hcollect hnonempty hlookup
      | miss reason => exact ends_of_runs_buildAnew hcollect hnonempty h

section

variable {allowed : Fingerprint → Document → Prop} (hapart : b.cache.PathsApart)
  (hd : d.Consistent allowed b.cache)

include hapart hd

theorem throughout_persist {f : Fingerprint} {merged : Merge.Merged}
    (hallowed : allowed f merged.document) :
    Throughout (Disk.Consistent allowed b.cache) (b.persist f merged) d := by
  unfold persist
  split
  · have hstore := CacheSettings.throughout_store hapart hd hallowed
    refine hstore.bind fun r last hr => ?_
    cases r <;> exact throughout_done (hstore _ _ hr)
  · exact throughout_done hd

/-- A build keeps the artifacts consistent if the merge of what it collects is allowed. -/
theorem throughout_program (hallowed : ∀ collected merged, t.collect b.sources = .ok collected →
      Merge.ofFiles t.textOf collected.fingerprint.files = .ok merged →
        allowed collected.fingerprint merged.document) :
    Throughout (Disk.Consistent allowed b.cache)
      (b.program t.readText (t.collect b.sources)) d := by
  cases hcollect : t.collect b.sources with
  | error e => exact throughout_done hd
  | ok collected =>
    show Throughout _ (b.buildFrom t.readText collected) d
    unfold buildFrom
    split
    · exact throughout_done hd
    · have hlookup := b.cache.readOnly_lookup collected.fingerprint
      refine (hlookup.throughout hd).bind fun found mid hfound => ?_
      obtain rfl : mid = d := hlookup d _ _ hfound
      cases found with
      | hit m => exact throughout_done hd
      | miss reason =>
        show Throughout _ (b.buildAnew t.textOf collected reason) mid
        unfold buildAnew
        cases hmerge : Merge.ofFiles t.textOf collected.fingerprint.files with
        | error e => exact throughout_done hd
        | ok merged =>
          have hpersist := fun told => throughout_persist hapart hd
            (show allowed _ (Merge.Merged.mk merged.document told).document from
              hallowed collected merged hcollect hmerge)
          exact (hpersist _).bind fun output last hlast => throughout_done (hpersist _ _ _ hlast)

end

end Builder

end GraphSchema
