import GraphSchema.Build
import GraphSchema.Proofs.Cache.Artifacts
import GraphSchema.Proofs.Merge.Files

/-!
# Caching is invisible

Builds with a cache, edits of the sources, clears, and damage to the artifacts follow each other in
any order. Calls on the cache may fail, and a build may stop in the middle of it. Still every build
that ends has the document and the fingerprint, or the error, that it would have without a cache.
-/

namespace GraphSchema

/-- What a build has to say of the sources. -/
def BuildOutput.essence (r : Except BuildError BuildOutput) :
    Except BuildError (Document × Fingerprint) :=
  r.map fun output => (output.document, output.fingerprint)

/-- The texts of a tree's files, as a merge reads them. -/
def FileTree.textOf (t : FileTree) (file : String) : Except String String :=
  (t.readText file).mapError FileError.message

/-- What a build without a cache has to say of the sources in a tree. -/
def FileTree.fresh (t : FileTree) (sources : SourceSettings) :
    Except BuildError (Document × Fingerprint) :=
  match t.collect sources with
  | .error e => .error (.collect e)
  | .ok collected =>
      if collected.fingerprint.isEmpty then .error (.noSources sources.directories)
      else
        match Merge.ofFiles t.textOf collected.fingerprint.files with
        | .error e => .error (.merge e)
        | .ok merged => .ok (merged.document, collected.fingerprint)

section

variable {t : FileTree} {sources : SourceSettings} {collected : Collection}

theorem FileTree.fresh_empty (hcollect : t.collect sources = .ok collected)
    (hempty : collected.fingerprint.isEmpty = true) :
    t.fresh sources = .error (.noSources sources.directories) := by
  rw [fresh, hcollect]
  exact if_pos hempty

theorem FileTree.fresh_collected (hcollect : t.collect sources = .ok collected)
    (hnonempty : collected.fingerprint.isEmpty = false) :
    t.fresh sources =
      ((Merge.ofFiles t.textOf collected.fingerprint.files).mapError BuildError.merge).map
        fun merged => (merged.document, collected.fingerprint) := by
  rw [fresh, hcollect]
  simp only [hnonempty, Bool.false_eq_true, if_false]
  cases Merge.ofFiles t.textOf collected.fingerprint.files with
  | error e => rfl
  | ok merged => rfl

theorem FileTree.merged_of_fresh {d : Document} {f : Fingerprint}
    (h : t.fresh sources = .ok (d, f)) : ∃ collected merged, t.collect sources = .ok collected ∧
      collected.fingerprint.isEmpty = false ∧
        Merge.ofFiles t.textOf collected.fingerprint.files = .ok merged ∧
          merged.document = d ∧ collected.fingerprint = f := by
  unfold fresh at h
  split at h
  · exact absurd h (by simp)
  · next collected hcollect =>
    split at h
    · exact absurd h (by simp)
    · next hempty =>
      split at h
      · exact absurd h (by simp)
      · next merged hmerge =>
        obtain ⟨rfl, rfl⟩ := Prod.mk.inj (Except.ok.inj h)
        exact ⟨collected, merged, hcollect, by simpa using hempty, hmerge, rfl, rfl⟩

end

namespace Builder

variable (b : Builder)

/-- What a build does when it finds nothing in the cache. -/
def buildAnew (read : String → Except String String) (c : Collection) (reason : MissReason) :
    FileProgram (Except BuildError BuildOutput) :=
  match Merge.ofFiles read c.fingerprint.files with
  | .error e => .done (.error (.merge e))
  | .ok merged =>
      (b.persist c.fingerprint ⟨merged.document, c.diagnostics ++ reason.diagnostics b.cache ++
        merged.diagnostics⟩).bind fun output => .done (.ok output)

end Builder

theorem FileTree.essence_build_disabled (t : FileTree) (now : Int) (sources : SourceSettings)
    (c : CacheSettings) :
    BuildOutput.essence (t.build now ⟨sources, { c with enabled := false }⟩).1 =
      t.fresh sources := by
  unfold build
  cases hcollect : t.collect sources with
  | error e =>
    rw [fresh, hcollect]
    rfl
  | ok collected =>
    show BuildOutput.essence (FileProgram.run (answer now) (Builder.buildFrom _ _ _) t).1 = _
    unfold Builder.buildFrom
    by_cases hempty : collected.fingerprint.isEmpty = true
    · rw [fresh_empty hcollect hempty, if_pos hempty]
      rfl
    · rw [fresh_collected hcollect (by simpa using hempty), if_neg hempty]
      -- A cache that is off answers every lookup with a miss and stores nothing.
      show BuildOutput.essence (FileProgram.run (answer now)
        (Builder.buildAnew ⟨sources, { c with enabled := false }⟩ t.textOf collected .disabled)
          t).1 = _
      unfold Builder.buildAnew
      cases hmerge : Merge.ofFiles t.textOf collected.fingerprint.files with
      | error e => rfl
      | ok merged => rfl

variable {allowed : Fingerprint → Document → Prop}

/-- A result is the one without a cache, or has an allowed document for the sources. -/
def AcceptableResult (allowed : Fingerprint → Document → Prop) (t : FileTree)
    (sources : SourceSettings) (r : Except BuildError BuildOutput) : Prop :=
  BuildOutput.essence r = t.fresh sources ∨
    ∃ collected d g, t.collect sources = .ok collected ∧ collected.fingerprint.isEmpty = false ∧
      BuildOutput.essence r = .ok (d, collected.fingerprint) ∧ allowed g d ∧
        g.digest = collected.fingerprint.digest

namespace Builder

variable (b : Builder)

theorem careful_persist {f : Fingerprint} {merged : Merge.Merged} (h : allowed f merged.document)
    (places : Set (List Path.Component)) :
    Careful allowed (fun _ output => output.document = merged.document ∧ output.fingerprint = f)
      (b.persist f merged) places := by
  unfold persist
  by_cases henabled : b.cache.enabled = true
  · rw [if_pos henabled]
    refine (b.cache.alwaysCareful_store h places).bind fun others outcome _ => ?_
    cases outcome with
    | ok _ => exact ⟨rfl, rfl⟩
    | error e => exact ⟨rfl, rfl⟩
  · rw [if_neg henabled]
    exact ⟨rfl, rfl⟩

theorem careful_buildAnew {t : FileTree} {collected : Collection}
    (hcollect : t.collect b.sources = .ok collected)
    (hnonempty : collected.fingerprint.isEmpty = false)
    (hallowed : ∀ merged, Merge.ofFiles t.textOf collected.fingerprint.files = .ok merged →
      allowed collected.fingerprint merged.document)
    (reason : MissReason) (places : Set (List Path.Component)) :
    Careful allowed (fun _ => AcceptableResult allowed t b.sources)
      (b.buildAnew t.textOf collected reason) places := by
  have hfresh := FileTree.fresh_collected hcollect hnonempty
  unfold buildAnew
  cases hmerge : Merge.ofFiles t.textOf collected.fingerprint.files with
  | error e =>
    rw [hmerge] at hfresh
    exact .inl hfresh.symm
  | ok merged =>
    rw [hmerge] at hfresh
    have hpersist := fun told => @careful_persist allowed b _ ⟨merged.document, told⟩
      (hallowed merged hmerge) places
    refine (hpersist _).bind fun _ output houtput => .inl ?_
    show Except.ok (output.document, output.fingerprint) = _
    rw [hfresh, houtput.1, houtput.2]
    rfl

/-- A build stores nothing but the merge of the sources that it has collected. -/
theorem careful_program (t : FileTree)
    (hallowed : ∀ collected merged, t.collect b.sources = .ok collected →
      Merge.ofFiles t.textOf collected.fingerprint.files = .ok merged →
        allowed collected.fingerprint merged.document)
    {places : Set (List Path.Component)}
    (hplaces : Path.components b.cache.documentPath ∈ places) :
    Careful allowed (fun _ => AcceptableResult allowed t b.sources)
      (b.program t.readText (t.collect b.sources)) places := by
  cases hcollect : t.collect b.sources with
  | error e =>
    refine .inl ?_
    rw [FileTree.fresh, hcollect]
    rfl
  | ok collected =>
    show Careful allowed _ (b.buildFrom t.readText collected) places
    unfold buildFrom
    by_cases hempty : collected.fingerprint.isEmpty = true
    · rw [if_pos hempty]
      exact .inl (FileTree.fresh_empty hcollect hempty).symm
    · rw [if_neg hempty]
      have hnonempty : collected.fingerprint.isEmpty = false := by simpa using hempty
      refine (b.cache.careful_lookup collected.fingerprint hplaces).bind
        fun others found hfound => ?_
      cases found with
      | hit document =>
        obtain ⟨g, hg, hdigest⟩ := hfound document rfl
        exact .inr ⟨collected, document, g, hcollect, hnonempty, rfl, hg, hdigest⟩
      | miss reason =>
        exact b.careful_buildAnew hcollect hnonempty
          (fun merged hmerge => hallowed collected merged hcollect hmerge) reason others

end Builder

/-- A build that was begun: the sources that it saw, and its result if it came to an end. -/
structure Attempt where
  tree : FileTree
  sources : SourceSettings
  result : Option (Except BuildError BuildOutput)

/-- Sources, a disk with a cache, and the builds so far, the last one first. -/
structure Workspace where
  tree : FileTree
  disk : Disk
  attempts : List Attempt

namespace Workspace

/-- The sources are edited, a build runs to its end or is stopped, the cache is cleared as far as
this succeeds, or an artifact is taken away or replaced by a text that says nothing. -/
inductive Step (c : CacheSettings) : Workspace → Workspace → Prop
  | edit {w : Workspace} (tree : FileTree) : Step c w { w with tree := tree }
  | build {w : Workspace} {sources : SourceSettings} {result : Except BuildError BuildOutput}
      {after : Disk} (hrun : Relation.ReflTransGen FileProgram.Step
        ((⟨sources, c⟩ : Builder).program w.tree.readText (w.tree.collect sources), w.disk)
        (.done result, after)) :
      Step c w ⟨w.tree, after, ⟨w.tree, sources, some result⟩ :: w.attempts⟩
  | stop {w : Workspace} {sources : SourceSettings}
      {rest : FileProgram (Except BuildError BuildOutput)} {after : Disk}
      (hrun : Relation.ReflTransGen FileProgram.Step
        ((⟨sources, c⟩ : Builder).program w.tree.readText (w.tree.collect sources), w.disk)
        (rest, after)) :
      Step c w ⟨w.tree, after, ⟨w.tree, sources, none⟩ :: w.attempts⟩
  | clear {w : Workspace} {rest : FileProgram (Except CacheError Unit)} {after : Disk}
      (hrun : Relation.ReflTransGen FileProgram.Step (c.clear.run, w.disk) (rest, after)) :
      Step c w { w with disk := after }
  | delete {w : Workspace} {path : String}
      (hpath : path = c.fingerprintPath ∨ path = c.documentPath) :
      Step c w { w with disk := w.disk.put path none }
  | damage {w : Workspace} {path text : String}
      (hpath : path = c.fingerprintPath ∨ path = c.documentPath)
      (hfingerprint : Path.same path c.fingerprintPath = true →
        Fingerprint.ofText? text = none)
      (hdocument : Path.same path c.documentPath = true → Snapshot.ofText? text = none) :
      Step c w { w with disk := w.disk.put path (some text) }

/-- What can come of a cache without artifacts. -/
inductive Reachable (c : CacheSettings) : Workspace → Prop
  | initial {tree : FileTree} {disk : Disk}
      (hfingerprint : disk (Path.components c.fingerprintPath) = none)
      (hdocument : disk (Path.components c.documentPath) = none) : Reachable c ⟨tree, disk, []⟩
  | step {v w : Workspace} (h : Reachable c v) (hstep : Step c v w) : Reachable c w

/-- A file with the same path and the same time in the fingerprints of two builds had the same text
at both. -/
def Determined (attempts : List Attempt) : Prop :=
  ∀ a ∈ attempts, ∀ b ∈ attempts, ∀ first second,
    a.tree.collect a.sources = .ok first → b.tree.collect b.sources = .ok second →
      ∀ p ∈ first.fingerprint.entries, ∀ q ∈ second.fingerprint.entries,
        Path.same p.1 q.1 = true → p.2 = q.2 → a.tree.readText p.1 = b.tree.readText q.1

/-- Different fingerprints of builds have different digests. -/
def DigestsDiffer (attempts : List Attempt) : Prop :=
  ∀ a ∈ attempts, ∀ b ∈ attempts, ∀ first second,
    a.tree.collect a.sources = .ok first → b.tree.collect b.sources = .ok second →
      first.fingerprint.digest = second.fingerprint.digest →
        first.fingerprint.same second.fingerprint = true

/-- Some build has collected files with a fingerprint whose merge is a document. -/
def Merged (attempts : List Attempt) (f : Fingerprint) (d : Document) : Prop :=
  ∃ a ∈ attempts, ∃ collected merged, a.tree.collect a.sources = .ok collected ∧
    Merge.ofFiles a.tree.textOf collected.fingerprint.files = .ok merged ∧
      collected.fingerprint = f ∧ merged.document = d

/-- The document on the disk is genuine, and every result so far is acceptable. -/
structure Sound (c : CacheSettings) (allowed : Fingerprint → Document → Prop) (w : Workspace) :
    Prop where
  document : w.disk.Trusted allowed {Path.components c.documentPath}
  results : ∀ a ∈ w.attempts, ∀ r, a.result = some r → AcceptableResult allowed a.tree a.sources r

variable {c : CacheSettings} {v w : Workspace}

theorem Step.attempts_suffix (h : Step c v w) : v.attempts <:+ w.attempts := by
  cases h with
  | build hrun => exact List.suffix_cons _ _
  | stop hrun => exact List.suffix_cons _ _
  | _ => exact List.suffix_rfl

theorem Sound.step (h : Sound c allowed v) (hstep : Step c v w)
    (hallowed : ∀ f d, Merged w.attempts f d → allowed f d) : Sound c allowed w := by
  have hprogram : ∀ (sources : SourceSettings) (result : Option (Except BuildError BuildOutput)),
      ⟨v.tree, sources, result⟩ ∈ w.attempts →
        Careful allowed (fun _ => AcceptableResult allowed v.tree sources)
          ((⟨sources, c⟩ : Builder).program v.tree.readText (v.tree.collect sources))
          {Path.components c.documentPath} := by
    intro sources result hmem
    refine Builder.careful_program ⟨sources, c⟩ v.tree ?_ (Set.mem_singleton _)
    intro collected merged hcollect hmerge
    exact hallowed _ _ ⟨_, hmem, collected, merged, hcollect, hmerge, rfl, rfl⟩
  cases hstep with
  | edit tree => exact ⟨h.document, h.results⟩
  | @build sources result after hrun =>
    have hcareful := hprogram sources (some result) List.mem_cons_self
    obtain ⟨hkeep, more, hmore, hresult⟩ := hcareful.run h.document hrun
    refine ⟨hkeep _ h.document, fun a ha r hr => ?_⟩
    rcases List.mem_cons.mp ha with rfl | ha
    · obtain rfl := Option.some.inj hr
      exact hresult
    · exact h.results a ha r hr
  | @stop sources rest after hrun =>
    have hcareful := hprogram sources none List.mem_cons_self
    obtain ⟨hkeep, -⟩ := hcareful.run h.document hrun
    refine ⟨hkeep _ h.document, fun a ha r hr => ?_⟩
    rcases List.mem_cons.mp ha with rfl | ha
    · exact absurd hr (by simp)
    · exact h.results a ha r hr
  | clear hrun =>
    obtain ⟨hkeep, -⟩ := (c.alwaysCareful_clear _).run h.document hrun
    exact ⟨hkeep _ h.document, h.results⟩
  | delete hpath => exact ⟨h.document.put_none _, h.results⟩
  | @damage path text hpath hfingerprint hdocument =>
    refine ⟨?_, h.results⟩
    by_cases hsame : Path.components path = Path.components c.documentPath
    · have htext := hdocument (by simpa [Path.same] using hsame)
      exact (h.document.put_some path (genuine_malformed htext)).mono (Set.subset_insert _ _)
    · exact h.document.put_elsewhere hsame (some text)

theorem Reachable.sound (h : Reachable c w)
    (hallowed : ∀ f d, Merged w.attempts f d → allowed f d) : Sound c allowed w := by
  induction h with
  | @initial tree disk hfingerprint hdocument =>
    refine ⟨?_, fun a ha => absurd ha (by simp)⟩
    intro key hkey text htext
    rw [Set.mem_singleton_iff.mp hkey] at htext
    exact absurd (hdocument.symm.trans htext) (by simp)
  | step h hstep ih =>
    refine (ih ?_).step hstep hallowed
    rintro f d ⟨a, ha, hmerged⟩
    exact hallowed f d ⟨a, hstep.attempts_suffix.subset ha, hmerged⟩

/-- A build may run to its end without a failing call. -/
theorem Reachable.perform {tree : FileTree} {disk : Disk} {attempts : List Attempt}
    (h : Reachable c ⟨tree, disk, attempts⟩) (sources : SourceSettings)
    {r : Except BuildError BuildOutput × Disk}
    (hr : ((⟨sources, c⟩ : Builder).program tree.readText (tree.collect sources)).run
      Disk.answer disk = r) :
    Reachable c ⟨tree, r.2, ⟨tree, sources, some r.1⟩ :: attempts⟩ := by
  subst hr
  exact h.step (.build (FileProgram.steps_run _ _))

/-- Where content is determined, a merge of the same files gives the same document. -/
theorem fresh_of_same {attempts : List Attempt} (hdetermined : Determined attempts)
    {a b : Attempt} (ha : a ∈ attempts) (hb : b ∈ attempts) {first second : Collection}
    (hfirst : a.tree.collect a.sources = .ok first)
    (hsecond : b.tree.collect b.sources = .ok second)
    (hsame : first.fingerprint.same second.fingerprint = true)
    (hnonempty : second.fingerprint.isEmpty = false) {merged : Merge.Merged}
    (hmerged : Merge.ofFiles a.tree.textOf first.fingerprint.files = .ok merged) :
    b.tree.fresh b.sources = .ok (merged.document, second.fingerprint) := by
  have hentries := Fingerprint.forall₂_of_same hsame
  have htexts : List.Forall₂ (fun p q => ∀ text, a.tree.textOf p = .ok text →
      b.tree.textOf q = .ok text) first.fingerprint.files second.fingerprint.files := by
    rw [Fingerprint.files, Fingerprint.files, List.forall₂_map_left_iff,
      List.forall₂_map_right_iff, List.forall₂_iff_zip]
    obtain ⟨hlength, hpairs⟩ := List.forall₂_iff_zip.mp hentries
    refine ⟨hlength, fun {p q} hpq text htext => ?_⟩
    obtain ⟨hp, hq⟩ := List.of_mem_zip hpq
    obtain ⟨hpath, htime⟩ := hpairs hpq
    have hread := hdetermined a ha b hb first second hfirst hsecond p hp q hq hpath htime
    rwa [FileTree.textOf, ← hread]
  obtain ⟨other, hother, hdocument⟩ := Merge.ofFiles_of_texts htexts hmerged
  rw [FileTree.fresh_collected hsecond hnonempty, hother, ← hdocument]
  rfl

/-- Every build that ends has what it would have without a cache. -/
theorem results_transparent (h : Reachable c w) (hdetermined : Determined w.attempts)
    (hdigests : DigestsDiffer w.attempts) {a : Attempt} (ha : a ∈ w.attempts)
    {r : Except BuildError BuildOutput} (hr : a.result = some r) (now : Int) :
    BuildOutput.essence r = BuildOutput.essence
      (a.tree.build now ⟨a.sources, { c with enabled := false }⟩).1 := by
  rw [a.tree.essence_build_disabled]
  -- Every document on the disk is a merge of what an earlier build had collected.
  have hsound : Sound c (Merged w.attempts) w := h.sound fun _ _ hf => hf
  rcases hsound.results a ha r hr with hfresh | hcached
  · exact hfresh
  · obtain ⟨collected, d, g, hcollect, hnonempty, hessence, hmerged, hdigest⟩ := hcached
    obtain ⟨b, hb, first, merged, hfirst, hmerge, rfl, rfl⟩ := hmerged
    have hsame := hdigests b hb a ha first collected hfirst hcollect hdigest
    rw [hessence, fresh_of_same hdetermined hb ha hfirst hcollect hsame hnonempty hmerge]

/-- A tree with one source, and a build from it. -/
def dateTree : FileTree :=
  ⟨[("schema", .directory [("date.graphql", .file "scalar Date".toUTF8 1700000000000000000)])]⟩

def dateSources : SourceSettings := ⟨["/schema"], "graphql"⟩

def dateCache : CacheSettings :=
  { enabled := true, directory := "c", fingerprintFile := "f", documentFile := "d" }

def dateBuild (disk : Disk) : Except BuildError BuildOutput × Disk :=
  ((⟨dateSources, dateCache⟩ : Builder).program dateTree.readText
    (dateTree.collect dateSources)).run Disk.answer disk

/-- What two builds in a row leave behind. -/
def dateWorkspace : Workspace :=
  ⟨dateTree, (dateBuild (dateBuild fun _ => none).2).2,
    [⟨dateTree, dateSources, some (dateBuild (dateBuild fun _ => none).2).1⟩,
      ⟨dateTree, dateSources, some (dateBuild fun _ => none).1⟩]⟩

theorem reachable_dateWorkspace : Reachable dateCache dateWorkspace := by
  have hempty : Reachable dateCache ⟨dateTree, fun _ => none, []⟩ := .initial rfl rfl
  have hrun : ∀ disk, ((⟨dateSources, dateCache⟩ : Builder).program dateTree.readText
      (dateTree.collect dateSources)).run Disk.answer disk = dateBuild disk := fun _ => rfl
  have hfirst : Reachable dateCache ⟨dateTree, (dateBuild fun _ => none).2,
      [⟨dateTree, dateSources, some (dateBuild fun _ => none).1⟩]⟩ :=
    hempty.perform dateSources (hrun _)
  have hsecond := hfirst.perform dateSources (hrun (dateBuild fun _ => none).2)
  exact hsecond

theorem collect_dateTree : (dateTree.collect dateSources).toOption =
    some ⟨⟨[("/schema/date.graphql", 1700000000000000000)]⟩, []⟩ := by decide +kernel

theorem collect_dateWorkspace : ∀ a ∈ dateWorkspace.attempts, ∀ collected,
    a.tree.collect a.sources = .ok collected → a.tree = dateTree ∧
      collected.fingerprint.entries = [("/schema/date.graphql", 1700000000000000000)] := by
  intro a ha collected hcollect
  have hdate : a.tree = dateTree ∧ a.sources = dateSources := by
    simp only [dateWorkspace, List.mem_cons, List.not_mem_nil, or_false] at ha
    rcases ha with rfl | rfl <;> exact ⟨rfl, rfl⟩
  obtain ⟨htree, hsources⟩ := hdate
  have hcollected := collect_dateTree
  rw [htree, hsources] at hcollect
  rw [hcollect] at hcollected
  rw [Option.some.inj hcollected]
  exact ⟨htree, rfl⟩

theorem results_transparent_dateWorkspace :
    BuildOutput.essence (dateBuild (dateBuild fun _ => none).2).1 = BuildOutput.essence
      (dateTree.build 0 ⟨dateSources, { dateCache with enabled := false }⟩).1 := by
  have hdetermined : Determined dateWorkspace.attempts := by
    intro a ha b hb first second hfirst hsecond p hp q hq _ _
    obtain ⟨hatree, hentries⟩ := collect_dateWorkspace a ha first hfirst
    obtain ⟨hbtree, hothers⟩ := collect_dateWorkspace b hb second hsecond
    rw [hentries, List.mem_singleton] at hp
    rw [hothers, List.mem_singleton] at hq
    rw [hatree, hbtree, hp, hq]
  have hdigests : DigestsDiffer dateWorkspace.attempts := by
    intro a ha b hb first second hfirst hsecond _
    have hentries := (collect_dateWorkspace a ha first hfirst).2
    have hothers := (collect_dateWorkspace b hb second hsecond).2
    unfold Fingerprint.same Fingerprint.size
    rw [hentries, hothers]
    decide
  exact results_transparent reachable_dateWorkspace hdetermined hdigests List.mem_cons_self rfl 0

end Workspace

end GraphSchema
