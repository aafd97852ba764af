import GraphSchema.Proofs.Cache.Consistent
import GraphSchema.Proofs.Collection.Places
import GraphSchema.Proofs.Merge.Permitted
import GraphSchema.Proofs.Schema.Depth

/-!
# Canonical artifacts

Builds with a cache that is turned on or off, edits, clears and deletions follow each other in any
order. A store may fail at any call, or stop in the middle. The fingerprint on the disk, if there is
one, is always that of some build. So what a build finds, and what it leaves when it has stored, are
the texts that the sources alone determine.
-/

namespace GraphSchema

open FileProgram

namespace Workspace

/-- The sources are edited, a build with the cache turned on or off ends or is stopped, the cache is
cleared as far as this succeeds, or an artifact is deleted. -/
inductive Turn (c : CacheSettings) : Workspace → Workspace → Prop
  | edit {w : Workspace} {tree : FileTree} (htree : tree.HasFileNames) :
      Turn c w { w with tree := tree }
  | build {w : Workspace} {sources : SourceSettings} {enabled : Bool}
      {result : Except BuildError BuildOutput} {after : Disk}
      (hrun : Runs ((⟨sources, { c with enabled }⟩ : Builder).program w.tree.readText
        (w.tree.collect sources)) w.disk result after) :
      Turn c w ⟨w.tree, after, ⟨w.tree, sources, some result⟩ :: w.attempts⟩
  | stop {w : Workspace} {sources : SourceSettings} {enabled : Bool}
      {rest : FileProgram (Except BuildError BuildOutput)} {after : Disk}
      (hrun : Relation.ReflTransGen FileProgram.Step
        ((⟨sources, { c with enabled }⟩ : Builder).program w.tree.readText
          (w.tree.collect sources), w.disk) (rest, after)) :
      Turn c w ⟨w.tree, after, ⟨w.tree, sources, none⟩ :: w.attempts⟩
  | clear {w : Workspace} {rest : FileProgram (Except CacheError Unit)} {after : Disk}
      (hrun : Relation.ReflTransGen FileProgram.Step (c.clear.run, w.disk) (rest, after)) :
      Turn c w { w with disk := after }
  | delete {w : Workspace} {path : String}
      (hpath : path = c.fingerprintPath ∨ path = c.documentPath) :
      Turn c w { w with disk := w.disk.put path none }

/-- What can come of a cache without artifacts when only builds write them. -/
inductive Undamaged (c : CacheSettings) : Workspace → Prop
  | initial {tree : FileTree} {disk : Disk} (htree : tree.HasFileNames)
      (hfingerprint : disk (Path.components c.fingerprintPath) = none)
      (hdocument : disk (Path.components c.documentPath) = none) : Undamaged c ⟨tree, disk, []⟩
  | turn {v w : Workspace} (h : Undamaged c v) (hturn : Turn c v w) : Undamaged c w

/-- The artifacts are those of some build, and all trees so far have names of files. -/
structure Kept (c : CacheSettings) (w : Workspace) : Prop where
  disk : w.disk.Consistent (Merged w.attempts) c
  tree : w.tree.HasFileNames
  trees : ∀ a ∈ w.attempts, a.tree.HasFileNames

variable {c : CacheSettings} {v w : Workspace}

theorem Merged.cons {attempts : List Attempt} {f : Fingerprint} {m : Document}
    (h : Merged attempts f m) (a : Attempt) : Merged (a :: attempts) f m := by
  obtain ⟨b, hb, hmerged⟩ := h
  exact ⟨b, List.mem_cons_of_mem a hb, hmerged⟩

theorem Determined.of_subset {attempts more : List Attempt} (h : Determined more)
    (hsub : attempts ⊆ more) : Determined attempts :=
  fun a ha b hb => h a (hsub ha) b (hsub hb)

theorem Kept.attempt (hapart : c.PathsApart) (h : Kept c v) {sources : SourceSettings}
    {enabled : Bool} {result : Option (Except BuildError BuildOutput)}
    {rest : FileProgram (Except BuildError BuildOutput)} {after : Disk}
    (hrun : Relation.ReflTransGen FileProgram.Step
      ((⟨sources, { c with enabled }⟩ : Builder).program v.tree.readText
        (v.tree.collect sources), v.disk) (rest, after)) :
    Kept c ⟨v.tree, after, ⟨v.tree, sources, result⟩ :: v.attempts⟩ := by
  have hbefore := h.disk.mono fun f m hm => hm.cons ⟨v.tree, sources, result⟩
  have hkeep := @Builder.throughout_program ⟨sources, { c with enabled }⟩ v.tree _ _ hapart hbefore
    fun collected merged hcollect hmerge =>
      ⟨_, List.mem_cons_self, collected, merged, hcollect, hmerge, rfl, rfl⟩
  exact ⟨hkeep _ _ hrun, h.tree, List.forall_mem_cons.mpr ⟨h.tree, h.trees⟩⟩

theorem Kept.turn (hapart : c.PathsApart) (h : Kept c v) (hturn : Turn c v w) : Kept c w := by
  cases hturn with
  | edit htree => exact ⟨h.disk, htree, h.trees⟩
  | build hrun => exact h.attempt hapart hrun
  | stop hrun => exact h.attempt hapart hrun
  | clear hrun => exact ⟨CacheSettings.throughout_clear h.disk _ _ hrun, h.tree, h.trees⟩
  | delete hpath => exact ⟨h.disk.put_none _, h.tree, h.trees⟩

theorem Undamaged.kept (hapart : c.PathsApart) (h : Undamaged c w) : Kept c w := by
  induction h with
  | initial htree hfingerprint hdocument =>
    exact ⟨.inl hfingerprint, htree, fun a ha => absurd ha List.not_mem_nil⟩
  | turn h hturn ih => exact ih.turn hapart hturn

end Workspace

/-- A build that has come to its end, and what went before it. -/
structure CompletedBuild (c : CacheSettings) where
  history : Workspace
  sources : SourceSettings
  enabled : Bool
  result : Except BuildError BuildOutput
  disk : Disk
  undamaged : history.Undamaged c
  run : Runs ((⟨sources, { c with enabled }⟩ : Builder).program history.tree.readText
    (history.tree.collect sources)) history.disk result disk

namespace CompletedBuild

variable {c c' : CacheSettings}

/-- All builds that were begun, with this one. -/
def attempts (b : CompletedBuild c) : List Attempt :=
  ⟨b.history.tree, b.sources, some b.result⟩ :: b.history.attempts

/-- The build has a document that is in the cache. -/
def IsCached (b : CompletedBuild c) : Prop :=
  ∃ output, b.result = .ok output ∧ (output.status = .hit ∨ output.status = .miss true)

/-- The build had nothing to store. -/
def IsIdle (b : CompletedBuild c) : Prop :=
  (∃ e, b.result = .error e) ∨
    ∃ output, b.result = .ok output ∧ (output.status = .hit ∨ output.status = .disabled)

/-- Two builds have collected the same files with the same times. -/
def SameSources (b : CompletedBuild c) (other : CompletedBuild c') : Prop :=
  ∃ first second, b.history.tree.collect b.sources = .ok first ∧
    other.history.tree.collect other.sources = .ok second ∧
      first.fingerprint.same second.fingerprint = true

theorem ends (b : CompletedBuild c) : (⟨b.sources, { c with enabled := b.enabled }⟩ : Builder).Ends
    b.history.tree b.history.disk b.result b.disk := Builder.ends_of_runs b.run

theorem disk_of_isIdle (b : CompletedBuild c) (h : b.IsIdle) : b.disk = b.history.disk := by
  have hends := b.ends
  unfold IsIdle at h
  generalize b.result = result at h hends
  generalize b.disk = disk at hends
  cases hends with
  | failed e => rfl
  | disabled h => rfl
  | found h => rfl
  | merged hstatus =>
    obtain ⟨e, he⟩ | ⟨output, houtput, hidle⟩ := h
    · exact absurd he (by simp)
    · obtain rfl := Except.ok.inj houtput
      rw [hstatus] at hidle
      exact absurd hidle (by simp)

/-- What a hit has found are the texts of its own fingerprint, and of the merge of its sources. -/
theorem hasArtifacts_of_hit (hapart : c.PathsApart) (b : CompletedBuild c)
    (hdetermined : Workspace.Determined b.attempts) {collected : Collection} {m : Document}
    {after : Disk} (hcollect : b.history.tree.collect b.sources = .ok collected)
    (hnonempty : collected.fingerprint.isEmpty = false)
    (hfound : Runs (({ c with enabled := b.enabled } : CacheSettings).lookup collected.fingerprint)
      b.history.disk (.hit m) after) :
    ∃ d, b.history.tree.fresh b.sources = .ok (d, collected.fingerprint) ∧
      b.history.disk.HasArtifacts c collected.fingerprint d := by
  have hkept := b.undamaged.kept hapart
  obtain ⟨entry, stored, text, hentry, hstored, hsame, htext⟩ :=
    CacheSettings.artifacts_of_hit hfound
  rcases hkept.disk with hnone | ⟨f, d, hmerged, hfingerprint, hdocument⟩
  · exact absurd (hnone.symm.trans hentry) (by simp)
  · obtain ⟨a, ha, first, merged, hfirst, hmerge, rfl, rfl⟩ := hmerged
    have hrecords := FileTree.records_collect hfirst
    obtain rfl := Option.some.inj (hfingerprint.symm.trans hentry)
    rw [Fingerprint.ofText?_toText hrecords.ordered] at hstored
    obtain rfl := Option.some.inj hstored
    have hfresh := Workspace.fresh_of_same hdetermined (List.mem_cons_of_mem _ ha)
      List.mem_cons_self hfirst hcollect hsame hnonempty hmerge
    have heq := Fingerprint.eq_of_same (hkept.trees a ha) hkept.tree hrecords
      (FileTree.records_collect hcollect) hsame
    rcases hdocument with hnone | hdocument
    · exact absurd (hnone.symm.trans htext) (by simp)
    · exact ⟨_, hfresh, heq ▸ hfingerprint, heq ▸ hdocument⟩

theorem hasArtifacts_of_isCached (hapart : c.PathsApart) (b : CompletedBuild c)
    (hdetermined : Workspace.Determined b.attempts) (h : b.IsCached) :
    ∃ f d, b.history.tree.fresh b.sources = .ok (d, f) ∧ b.disk.HasArtifacts c f d := by
  have hends := b.ends
  unfold IsCached at h
  have hhit := @hasArtifacts_of_hit _ hapart b hdetermined
  generalize b.result = result at h hends
  generalize b.disk = disk at hends
  obtain ⟨output, rfl, hstatus⟩ := h
  cases hends with
  | disabled hdisabled =>
    rw [hdisabled] at hstatus
    exact absurd hstatus (by simp)
  | found _ hcollect hnonempty hfound =>
    obtain ⟨d, hd⟩ := hhit hcollect hnonempty hfound
    exact ⟨_, d, hd⟩
  | @merged _ collected merged r _ hmiss hcollect hnonempty hmerge hstore =>
    cases r with
    | error e =>
      rw [hmiss] at hstatus
      exact absurd hstatus (by simp [Except.isOk, Except.toBool])
    | ok _ =>
      refine ⟨collected.fingerprint, merged.document, ?_,
        CacheSettings.hasArtifacts_of_runs_store hapart hstore⟩
      rw [FileTree.fresh_collected hcollect hnonempty, hmerge]
      rfl

/-- Where content is determined, builds of the same sources say the same without a cache. -/
theorem fresh_of_sameSources {b : CompletedBuild c} {other : CompletedBuild c'}
    (htree : b.history.tree.HasFileNames) (hothers : other.history.tree.HasFileNames)
    (hdetermined : Workspace.Determined (b.attempts ++ other.attempts))
    (hsame : b.SameSources other) {f : Fingerprint} {d : Document}
    (hfresh : b.history.tree.fresh b.sources = .ok (d, f)) :
    other.history.tree.fresh other.sources = .ok (d, f) := by
  obtain ⟨first, second, hfirst, hsecond, hfingerprints⟩ := hsame
  have heq := Fingerprint.eq_of_same htree hothers (FileTree.records_collect hfirst)
    (FileTree.records_collect hsecond) hfingerprints
  obtain ⟨collected, merged, hcollect, hnonempty, hmerge, rfl, rfl⟩ :=
    FileTree.merged_of_fresh hfresh
  obtain rfl := Except.ok.inj (hcollect.symm.trans hfirst)
  rw [heq] at hnonempty
  have hother := Workspace.fresh_of_same hdetermined
    (List.mem_append_left _ List.mem_cons_self) (List.mem_append_right _ List.mem_cons_self)
    hfirst hsecond hfingerprints hnonempty hmerge
  rwa [← heq] at hother

/-- A build with a document in the cache leaves the texts of the fingerprint and of the merge of its
sources, which are the same after every history that ends in the same sources. A build with nothing
to store leaves every file as it is. -/
theorem artifacts_canonical (hapart : c.PathsApart) (b : CompletedBuild c)
    (hdetermined : Workspace.Determined b.attempts) :
    (b.IsCached → ∃ f d, b.history.tree.fresh b.sources = .ok (d, f) ∧
      b.disk.HasArtifacts c f d ∧
        ∀ (c' : CacheSettings) (other : CompletedBuild c'), c'.PathsApart →
          Workspace.Determined (b.attempts ++ other.attempts) → other.IsCached →
            b.SameSources other → other.disk.HasArtifacts c' f d) ∧
    (b.IsIdle → b.disk = b.history.disk) := by
  refine ⟨fun hcached => ?_, b.disk_of_isIdle⟩
  obtain ⟨f, d, hfresh, hartifacts⟩ := hasArtifacts_of_isCached hapart b hdetermined hcached
  refine ⟨f, d, hfresh, hartifacts, fun c' other hapart' hboth hcached' hsame => ?_⟩
  obtain ⟨g, e, hother, hartifacts'⟩ := hasArtifacts_of_isCached hapart' other
    (hboth.of_subset (List.subset_append_right _ _)) hcached'
  have htree := (b.undamaged.kept hapart).tree
  have htree' := (other.undamaged.kept hapart').tree
  rw [fresh_of_sameSources htree htree' hboth hsame hfresh] at hother
  obtain ⟨rfl, rfl⟩ := Prod.mk.inj (Except.ok.inj hother)
  exact hartifacts'

/-- A build on a disk that does not fail. -/
def performed {history : Workspace} (h : history.Undamaged c) (sources : SourceSettings)
    (enabled : Bool) : CompletedBuild c where
  history
  sources
  enabled
  result := (((⟨sources, { c with enabled }⟩ : Builder).program history.tree.readText
    (history.tree.collect sources)).run Disk.answer history.disk).1
  disk := (((⟨sources, { c with enabled }⟩ : Builder).program history.tree.readText
    (history.tree.collect sources)).run Disk.answer history.disk).2
  undamaged := h
  run := FileProgram.steps_run _ _

/-- What there is after a build. -/
def workspace (b : CompletedBuild c) : Workspace := ⟨b.history.tree, b.disk, b.attempts⟩

theorem undamaged_workspace (b : CompletedBuild c) : b.workspace.Undamaged c :=
  b.undamaged.turn (.build b.run)

/-- Where no call fails, a build that is repeated finds its document in the cache. -/
theorem exists_hit_again (hapart : c.PathsApart) (b : CompletedBuild c)
    (hdetermined : Workspace.Determined b.attempts) (h : b.IsCached) : ∃ output,
      (performed b.undamaged_workspace b.sources true).result = .ok output ∧
        output.status = .hit := by
  obtain ⟨f, d, hfresh, hartifacts⟩ := hasArtifacts_of_isCached hapart b hdetermined h
  obtain ⟨collected, merged, hcollect, hnonempty, hmerge, rfl, rfl⟩ :=
    FileTree.merged_of_fresh hfresh
  have hstored := Fingerprint.ofText?_toText (FileTree.records_collect hcollect).ordered
  have hbounded := Document.hasDefinitionsWithin_toJson (Merge.permitted_ofFiles hmerge)
    (show TypeReference.depthBound 1 + 7 ≤ Snapshot.definitionDepth by decide)
  have hlookup := CacheSettings.run_lookup { c with enabled := true } rfl hartifacts.fingerprint
    hstored collected.fingerprint.same_refl hartifacts.document
    (Snapshot.documentFor_toText _ hbounded)
  refine ⟨⟨merged.document, collected.fingerprint, .hit, collected.diagnostics⟩, ?_, rfl⟩
  show (FileProgram.run Disk.answer (Builder.program _ _ (b.history.tree.collect b.sources))
    b.disk).1 = _
  rw [hcollect]
  show (FileProgram.run Disk.answer (Builder.buildFrom _ _ collected) b.disk).1 = _
  unfold Builder.buildFrom
  rw [if_neg (by simp [hnonempty])]
  refine (congrArg Prod.fst (FileProgram.run_bind Disk.answer _ _ b.disk)).trans ?_
  rw [hlookup]
  rfl

end CompletedBuild

namespace Workspace

theorem hasFileNames_dateTree : dateTree.HasFileNames := by
  have hschema : Path.IsEntryName "schema" := ⟨by decide, by decide, by decide⟩
  have hdate : Path.IsEntryName "date.graphql" := ⟨by decide, by decide, by decide⟩
  intro place h
  cases place with
  | nil => exact fun name hname => absurd hname List.not_mem_nil
  | cons directory rest =>
    unfold FileTree.node? Node.find? dateTree at h
    by_cases hname : directory = "schema"
    · subst hname
      rw [List.lookup_cons_self] at h
      cases rest with
      | nil => simpa using hschema
      | cons file deeper =>
        dsimp only at h
        unfold Node.find? at h
        by_cases hfile : file = "date.graphql"
        · subst hfile
          rw [List.lookup_cons_self] at h
          cases deeper with
          | nil => simpa using ⟨hschema, hdate⟩
          | cons _ _ => exact absurd h (by simp)
        · have hmissing : (file == "date.graphql") = false := by simpa using hfile
          simp [List.lookup_cons, hmissing] at h
    · have hmissing : (directory == "schema") = false := by simpa using hname
      simp [List.lookup_cons, hmissing] at h

theorem determined_date {attempts : List Attempt}
    (h : ∀ a ∈ attempts, a.tree = dateTree ∧ a.sources = dateSources) : Determined attempts := by
  have hentries : ∀ a ∈ attempts, ∀ collected, a.tree.collect a.sources = .ok collected →
      collected.fingerprint.entries = [("/schema/date.graphql", 1700000000000000000)] := by
    intro a ha collected hcollect
    have hdate := collect_dateTree
    rw [(h a ha).1, (h a ha).2] at hcollect
    rw [hcollect] at hdate
    rw [Option.some.inj hdate]
  intro a ha b hb first second hfirst hsecond p hp q hq _ _
  rw [hentries a ha first hfirst, List.mem_singleton] at hp
  rw [hentries b hb second hsecond, List.mem_singleton] at hq
  rw [(h a ha).1, (h b hb).1, hp, hq]

end Workspace

namespace CompletedBuild

open Workspace

/-- A build where there are no artifacts. -/
def dateFirst : CompletedBuild dateCache :=
  performed (@Undamaged.initial dateCache dateTree (fun _ => none) hasFileNames_dateTree rfl rfl)
    dateSources true

/-- The same build once more. -/
def dateAgain : CompletedBuild dateCache := performed dateFirst.undamaged_workspace dateSources true

theorem status_dateFirst :
    dateFirst.result.toOption.map (·.status) = some (.miss true) := by decide +kernel

theorem isCached_dateFirst : dateFirst.IsCached := by
  cases hresult : dateFirst.result with
  | error e =>
    have hstatus := status_dateFirst
    rw [hresult] at hstatus
    exact absurd hstatus (by simp [Except.toOption])
  | ok output =>
    have hstatus := status_dateFirst
    rw [hresult] at hstatus
    exact ⟨output, hresult, .inr (Option.some.inj hstatus)⟩

theorem sources_dateAgain : ∀ a ∈ dateAgain.attempts ++ dateFirst.attempts,
    a.tree = dateTree ∧ a.sources = dateSources := by
  have hfirst : ∀ a ∈ dateFirst.attempts, a.tree = dateTree ∧ a.sources = dateSources :=
    List.forall_mem_cons.mpr ⟨⟨rfl, rfl⟩, fun a ha => absurd ha List.not_mem_nil⟩
  have hagain : ∀ a ∈ dateAgain.attempts, a.tree = dateTree ∧ a.sources = dateSources :=
    List.forall_mem_cons.mpr ⟨⟨rfl, rfl⟩, hfirst⟩
  exact List.forall_mem_append.mpr ⟨hagain, hfirst⟩

theorem sameSources_dateAgain : dateAgain.SameSources dateFirst := by
  have hdate := collect_dateTree
  cases hcollect : dateTree.collect dateSources with
  | error e =>
    rw [hcollect] at hdate
    exact absurd hdate (by simp [Except.toOption])
  | ok collected => exact ⟨collected, collected, hcollect, hcollect, Fingerprint.same_refl _⟩

theorem artifacts_canonical_dateAgain : dateCache.PathsApart ∧
    Determined dateAgain.attempts ∧ dateAgain.IsCached ∧ dateAgain.IsIdle ∧
      dateAgain.disk = dateAgain.history.disk ∧
        ∃ f d, dateTree.fresh dateSources = .ok (d, f) ∧
          dateAgain.disk.HasArtifacts dateCache f d ∧
            dateFirst.disk.HasArtifacts dateCache f d := by
  have hapart : dateCache.PathsApart := by
    unfold CacheSettings.PathsApart
    decide +kernel
  have hboth := determined_date sources_dateAgain
  have hdetermined := hboth.of_subset (List.subset_append_left _ _)
  obtain ⟨again, hagain, hhit⟩ := exists_hit_again hapart dateFirst
    (hboth.of_subset (List.subset_append_right _ _)) isCached_dateFirst
  have hcached : dateAgain.IsCached := ⟨again, hagain, .inl hhit⟩
  have hidle : dateAgain.IsIdle := .inr ⟨again, hagain, .inl hhit⟩
  obtain ⟨hartifacts, hdisk⟩ := artifacts_canonical hapart dateAgain hdetermined
  obtain ⟨f, d, hfresh, hhas, hothers⟩ := hartifacts hcached
  exact ⟨hapart, hdetermined, hcached, hidle, hdisk hidle, f, d, hfresh, hhas, hothers dateCache
    dateFirst hapart hboth isCached_dateFirst sameSources_dateAgain⟩

end CompletedBuild

end GraphSchema
