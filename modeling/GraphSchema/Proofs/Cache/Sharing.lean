import GraphSchema.Proofs.Cache.Artifacts

/-!
# A shared cache

Any number of processes run operations on one cache. Their calls on the disk interleave in any
order, any call may fail, and a process may stop between two calls. Still a lookup finds a document
only for the fingerprint that it was stored with.
-/

namespace GraphSchema

/-- An operation on a cache. -/
inductive CacheCall where
  | store (f : Fingerprint) (d : Document)
  | clear
  | lookup (f : Fingerprint)

/-- What an operation on a cache ends with. -/
inductive CacheReply where
  | changed (outcome : Except CacheError Unit)
  | found (result : CacheLookup)

/-- The fingerprint that an operation is given. -/
def CacheCall.fingerprint? : CacheCall → Option Fingerprint
  | store f _ => some f
  | clear => none
  | lookup f => some f

/-- The program of an operation. -/
def CacheSettings.operation (c : CacheSettings) : CacheCall → FileProgram CacheReply
  | .store f d => (c.store f d).run.bind fun outcome => .done (.changed outcome)
  | .clear => c.clear.run.bind fun outcome => .done (.changed outcome)
  | .lookup f => (c.lookup f).bind fun result => .done (.found result)

/-- What a process does that others may hear of. -/
inductive CacheEvent (ι : Type) where
  | called (process : ι) (call : CacheCall)
  | returned (process : ι) (call : CacheCall) (reply : CacheReply)

/-- The operation that an event is about. -/
def CacheEvent.call {ι : Type} : CacheEvent ι → CacheCall
  | called _ call => call
  | returned _ call _ => call

/-- A disk, what is left of the operation that each process runs, and the events, the last one
first. -/
structure SharedCache (ι : Type) where
  disk : Disk
  running : ι → Option (CacheCall × FileProgram CacheReply)
  history : List (CacheEvent ι)

namespace SharedCache

variable {ι : Type}

/-- A process begins an operation, makes one call of it, ends it, or stops in the middle of it. -/
inductive Step [DecidableEq ι] (c : CacheSettings) : SharedCache ι → SharedCache ι → Prop
  | start {s : SharedCache ι} {i : ι} (call : CacheCall) (hidle : s.running i = none) :
      Step c s ⟨s.disk, Function.update s.running i (some (call, c.operation call)),
        .called i call :: s.history⟩
  | call {s : SharedCache ι} {i : ι} {call : CacheCall} {p q : FileProgram CacheReply}
      {after : Disk} (hrunning : s.running i = some (call, p))
      (hstep : FileProgram.Step (p, s.disk) (q, after)) :
      Step c s ⟨after, Function.update s.running i (some (call, q)), s.history⟩
  | finish {s : SharedCache ι} {i : ι} {call : CacheCall} {reply : CacheReply}
      (hrunning : s.running i = some (call, .done reply)) :
      Step c s ⟨s.disk, Function.update s.running i none, .returned i call reply :: s.history⟩
  | stop {s : SharedCache ι} (i : ι) :
      Step c s ⟨s.disk, Function.update s.running i none, s.history⟩

/-- The states of a cache that starts without artifacts. -/
inductive Reachable [DecidableEq ι] (c : CacheSettings) : SharedCache ι → Prop
  | initial {disk : Disk} (hfingerprint : disk (Path.components c.fingerprintPath) = none)
      (hdocument : disk (Path.components c.documentPath) = none) :
      Reachable c ⟨disk, fun _ => none, []⟩
  | step {s t : SharedCache ι} (h : Reachable c s) (hstep : Step c s t) : Reachable c t

/-- Some process has begun to store a document with a fingerprint. -/
def Stored (history : List (CacheEvent ι)) (f : Fingerprint) (d : Document) : Prop :=
  ∃ i, .called i (.store f d) ∈ history

/-- A fingerprint is given to some operation. -/
def Named (history : List (CacheEvent ι)) (f : Fingerprint) : Prop :=
  ∃ e ∈ history, e.call.fingerprint? = some f

/-- What an operation may end with. -/
def AllowedReply (allowed : Fingerprint → Document → Prop) : CacheCall → CacheReply → Prop
  | .lookup f, .found result => AllowedHit allowed f result
  | _, _ => True

/-- The document on the disk is genuine, every running operation is careful, and every lookup has
found an allowed document or none. -/
structure Consistent (c : CacheSettings) (allowed : Fingerprint → Document → Prop)
    (s : SharedCache ι) : Prop where
  document : s.disk.Trusted allowed {Path.components c.documentPath}
  running : ∀ i call p, s.running i = some (call, p) → ∃ places, s.disk.Trusted allowed places ∧
    Careful allowed (fun _ => AllowedReply allowed call) p places
  replies : ∀ i call reply, .returned i call reply ∈ s.history → AllowedReply allowed call reply

variable {c : CacheSettings} {allowed : Fingerprint → Document → Prop} {s t : SharedCache ι}

theorem careful_operation {call : CacheCall}
    (hstore : ∀ f d, call = .store f d → allowed f d) :
    Careful allowed (fun _ => AllowedReply allowed call) (c.operation call)
      {Path.components c.documentPath} := by
  cases call with
  | store f d =>
    exact (c.alwaysCareful_store (hstore f d rfl) _).bind fun _ _ _ => trivial
  | clear => exact (c.alwaysCareful_clear _).bind fun _ _ _ => trivial
  | lookup f => exact (c.careful_lookup f (Set.mem_singleton _)).bind fun _ _ hr => hr

theorem consistent_initial {disk : Disk}
    (hdocument : disk (Path.components c.documentPath) = none) :
    Consistent c allowed (⟨disk, fun _ => none, []⟩ : SharedCache ι) := by
  refine ⟨?_, ?_, ?_⟩
  · intro key hkey text htext
    rw [Set.mem_singleton_iff.mp hkey] at htext
    exact absurd (hdocument.symm.trans htext) (by simp)
  · intro i call p h
    exact absurd h (by simp)
  · intro i call reply h
    exact absurd h (by simp)

variable [DecidableEq ι]

/-- What holds of the operations that run holds if one of them is replaced by such a one. -/
theorem update_running {disk : Disk} {running : ι → Option (CacheCall × FileProgram CacheReply)}
    (h : ∀ i call p, running i = some (call, p) → ∃ places, disk.Trusted allowed places ∧
      Careful allowed (fun _ => AllowedReply allowed call) p places) (i : ι)
    {next : Option (CacheCall × FileProgram CacheReply)}
    (hnext : ∀ call p, next = some (call, p) → ∃ places, disk.Trusted allowed places ∧
      Careful allowed (fun _ => AllowedReply allowed call) p places) :
    ∀ j call p, Function.update running i next j = some (call, p) →
      ∃ places, disk.Trusted allowed places ∧
        Careful allowed (fun _ => AllowedReply allowed call) p places := by
  intro j call p hj
  by_cases hij : j = i
  · rw [hij, Function.update_self] at hj
    exact hnext call p hj
  · rw [Function.update_of_ne hij] at hj
    exact h j call p hj

theorem Consistent.step (h : Consistent c allowed s) (hstep : Step c s t)
    (hstored : ∀ f d, Stored t.history f d → allowed f d) : Consistent c allowed t := by
  cases hstep with
  | @start i call hidle =>
    have hcareful := @careful_operation c allowed call fun f d hcall =>
      hstored f d ⟨i, by rw [hcall]; exact List.mem_cons_self⟩
    refine ⟨h.document, update_running h.running i ?_, ?_⟩
    · intro other p hnext
      obtain ⟨rfl, rfl⟩ := Prod.mk.inj (Option.some.inj hnext)
      exact ⟨_, h.document, hcareful⟩
    · intro j other reply hmem
      rcases List.mem_cons.mp hmem with heq | hmem
      · exact absurd heq (by simp)
      · exact h.replies j other reply hmem
  | @call i call p q after hrunning hcall =>
    obtain ⟨places, hplaces, hcareful⟩ := h.running i call p hrunning
    obtain ⟨hkeep, more, hmore, hnext⟩ := hcareful.step hplaces hcall
    -- Whoever makes the call, the others keep the places that they trust.
    refine ⟨hkeep _ h.document, update_running ?_ i ?_, h.replies⟩
    · intro j other r hj
      obtain ⟨theirs, htheirs, hother⟩ := h.running j other r hj
      exact ⟨theirs, hkeep _ htheirs, hother⟩
    · intro other r heq
      obtain ⟨rfl, rfl⟩ := Prod.mk.inj (Option.some.inj heq)
      exact ⟨more, hmore, hnext⟩
  | @finish i call reply hrunning =>
    obtain ⟨places, hplaces, hreply⟩ := h.running i call _ hrunning
    refine ⟨h.document, update_running h.running i fun _ _ hnone => absurd hnone (by simp), ?_⟩
    intro j other answer hmem
    rcases List.mem_cons.mp hmem with heq | hmem
    · injection heq with hi hcall hanswer
      rw [hcall, hanswer]
      exact hreply
    · exact h.replies j other answer hmem
  | stop i =>
    exact ⟨h.document, update_running h.running i fun _ _ hnone => absurd hnone (by simp),
      h.replies⟩

/-- Events are only ever added. -/
theorem Step.history_suffix (h : Step c s t) : s.history <:+ t.history := by
  cases h with
  | start call hidle => exact List.suffix_cons _ _
  | call hrunning hstep => exact List.suffix_rfl
  | finish hrunning => exact List.suffix_cons _ _
  | stop i => exact List.suffix_rfl

theorem Reachable.consistent (h : Reachable c s)
    (hstored : ∀ f d, Stored s.history f d → allowed f d) : Consistent c allowed s := by
  induction h with
  | initial hfingerprint hdocument => exact consistent_initial hdocument
  | step h hstep ih =>
    refine (ih ?_).step hstep hstored
    intro f d hf
    obtain ⟨i, hi⟩ := hf
    exact hstored f d ⟨i, hstep.history_suffix.subset hi⟩

/-- Every part of the history was the whole history at some time. -/
theorem Reachable.of_suffix (h : Reachable c s) {past : List (CacheEvent ι)}
    (hpast : past <:+ s.history) : ∃ r : SharedCache ι, Reachable c r ∧ r.history = past := by
  induction h with
  | @initial disk hfingerprint hdocument =>
    exact ⟨_, .initial hfingerprint hdocument, (List.suffix_nil.mp hpast).symm⟩
  | @step s t h hstep ih =>
    by_cases hwhole : past = t.history
    · exact ⟨t, h.step hstep, hwhole.symm⟩
    · apply ih
      cases hstep with
      | start call hidle =>
        exact (List.suffix_cons_iff.mp hpast).resolve_left hwhole
      | call hrunning hcall => exact hpast
      | finish hrunning => exact (List.suffix_cons_iff.mp hpast).resolve_left hwhole
      | stop i => exact hpast

/-- A process may go on with its operation while the others wait. -/
theorem Reachable.calls {i : ι} {call : CacheCall} {p q : FileProgram CacheReply}
    {disk after : Disk} {running : ι → Option (CacheCall × FileProgram CacheReply)}
    {history : List (CacheEvent ι)}
    (h : Reachable c ⟨disk, Function.update running i (some (call, p)), history⟩)
    (hrun : Relation.ReflTransGen FileProgram.Step (p, disk) (q, after)) :
    Reachable c ⟨after, Function.update running i (some (call, q)), history⟩ := by
  generalize hend : (q, after) = last at hrun
  induction hrun generalizing q after with
  | refl =>
    obtain ⟨rfl, rfl⟩ := Prod.mk.inj hend
    exact h
  | @tail middle last hbefore hstep ih =>
    subst hend
    obtain ⟨p', d'⟩ := middle
    have hcall := (ih rfl).step (.call (i := i) (Function.update_self ..) hstep)
    rw [Function.update_idem] at hcall
    exact hcall

/-- An idle process may run an operation to its end while the others wait. -/
theorem Reachable.perform (h : Reachable c s) {i : ι} (hidle : s.running i = none)
    (call : CacheCall) :
    Reachable c ⟨((c.operation call).run Disk.answer s.disk).2, s.running,
      .returned i call ((c.operation call).run Disk.answer s.disk).1 ::
        .called i call :: s.history⟩ := by
  have hcalls := (h.step (.start call hidle)).calls ((c.operation call).steps_run s.disk)
  have hend := hcalls.step (.finish (Function.update_self ..))
  have hback : Function.update (Function.update s.running i
      (some (call, .done ((c.operation call).run Disk.answer s.disk).1))) i none = s.running := by
    rw [Function.update_idem, ← hidle, Function.update_eq_self]
  simp only [hback] at hend
  exact hend

/-- No order of the calls of any number of processes, and no failures, make a lookup find a document
that was not stored before with the fingerprint it is asked for. -/
theorem stored_of_hit (h : Reachable c s)
    (hdigests : ∀ f g, Named s.history f → Named s.history g → f.digest = g.digest →
      f.same g = true)
    {after before : List (CacheEvent ι)} {i : ι} {f : Fingerprint} {d : Document}
    (hhit : s.history = after ++ .returned i (.lookup f) (.found (.hit d)) :: before) :
    ∃ g, g.same f = true ∧ Stored before g d := by
  have hsuffix : .returned i (.lookup f) (.found (.hit d)) :: before <:+ s.history :=
    ⟨after, hhit.symm⟩
  obtain ⟨r, hr, hhistory⟩ := h.of_suffix hsuffix
  -- What was stored up to the hit is what is allowed, so a later store cannot answer for it.
  have hconsistent : Consistent c (Stored r.history) r := hr.consistent fun _ _ hf => hf
  have hfound : AllowedHit (Stored r.history) f (.hit d) :=
    hconsistent.replies i (.lookup f) (.found (.hit d)) (by rw [hhistory]; exact List.mem_cons_self)
  obtain ⟨g, ⟨j, hstored⟩, hdigest⟩ := hfound d rfl
  rw [hhistory] at hstored
  have hbefore : .called j (.store g d) ∈ before := by
    rcases List.mem_cons.mp hstored with heq | hmem
    · exact absurd heq (by simp)
    · exact hmem
  refine ⟨g, hdigests g f ?_ ?_ hdigest, j, hbefore⟩
  · exact ⟨_, hsuffix.subset (List.mem_cons_of_mem _ hbefore), rfl⟩
  · exact ⟨_, hsuffix.subset List.mem_cons_self, rfl⟩

/-- A cache in which a file with one scalar is stored. -/
def dateCache : CacheSettings :=
  { enabled := true, directory := "c", fingerprintFile := "f", documentFile := "d" }

def dateFile : Fingerprint := ⟨[("/schema/date.graphql", 1700000000000000000)]⟩

def dateScalar : Document := ⟨[⟨"Date", none, [], .scalar⟩]⟩

/-- The disk after a store, and what it replied. -/
def dateStored : CacheReply × Disk :=
  (dateCache.operation (.store dateFile dateScalar)).run Disk.answer fun _ => none

/-- One process has stored the scalar, and another one has looked for it. -/
def dateShared : SharedCache Bool :=
  ⟨((dateCache.operation (.lookup dateFile)).run Disk.answer dateStored.2).2, fun _ => none,
    [.returned false (.lookup dateFile) (.found (.hit dateScalar)),
      .called false (.lookup dateFile),
      .returned true (.store dateFile dateScalar) dateStored.1,
      .called true (.store dateFile dateScalar)]⟩

theorem lookup_dateStored :
    (dateCache.lookup dateFile).run Disk.answer dateStored.2 = (.hit dateScalar, dateStored.2) := by
  have hfingerprint : dateStored.2 (Path.components dateCache.fingerprintPath) =
      some dateFile.toText := by rfl
  have hstored : Fingerprint.ofText? dateFile.toText = some dateFile := by decide +kernel
  have hdocument : dateStored.2 (Path.components dateCache.documentPath) =
      some (Snapshot.of dateFile dateScalar).toText := by rfl
  exact dateCache.run_lookup rfl hfingerprint hstored (by decide) hdocument
    (Snapshot.documentFor_toText dateFile (by decide))

theorem operation_dateStored :
    ((dateCache.operation (.lookup dateFile)).run Disk.answer dateStored.2).1 =
      .found (.hit dateScalar) := by
  rw [CacheSettings.operation, FileProgram.run_bind, lookup_dateStored]
  rfl

theorem reachable_dateShared : Reachable dateCache dateShared := by
  have hempty : Reachable dateCache (⟨fun _ => none, fun _ => none, []⟩ : SharedCache Bool) :=
    .initial rfl rfl
  have hstored : Reachable dateCache (⟨dateStored.2, fun _ => none,
      [.returned true (.store dateFile dateScalar) dateStored.1,
        .called true (.store dateFile dateScalar)]⟩ : SharedCache Bool) :=
    hempty.perform rfl (.store dateFile dateScalar)
  have hlookup := @Reachable.perform Bool dateCache _ _ hstored false rfl (.lookup dateFile)
  rw [operation_dateStored] at hlookup
  exact hlookup

/-- The events before the scalar was found. -/
def dateBefore : List (CacheEvent Bool) :=
  [.called false (.lookup dateFile), .returned true (.store dateFile dateScalar) dateStored.1,
    .called true (.store dateFile dateScalar)]

theorem stored_of_hit_dateShared :
    ∃ g, g.same dateFile = true ∧ Stored dateBefore g dateScalar := by
  have hnamed : ∀ f, Named dateShared.history f → f = dateFile := by
    rintro f ⟨e, he, hf⟩
    simp only [dateShared, List.mem_cons, List.not_mem_nil, or_false] at he
    rcases he with rfl | rfl | rfl | rfl <;> exact (Option.some.inj hf).symm
  have hhit : dateShared.history =
      [] ++ .returned false (.lookup dateFile) (.found (.hit dateScalar)) :: dateBefore := rfl
  refine stored_of_hit reachable_dateShared ?_ hhit
  intro f g hf hg _
  rw [hnamed f hf, hnamed g hg]
  decide

end SharedCache

end GraphSchema
