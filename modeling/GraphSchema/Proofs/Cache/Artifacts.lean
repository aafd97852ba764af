import GraphSchema.Proofs.Cache.Disk

/-!
# What the operations of the cache write and read

A store writes the text of its snapshot and the text of its fingerprint, and a lookup finds only
what a genuine text says.
-/

namespace GraphSchema

variable {allowed : Fingerprint → Document → Prop}

/-- A program is careful wherever it starts, whatever it ends with. -/
def AlwaysCareful (allowed : Fingerprint → Document → Prop) {α : Type} (p : FileProgram α) :
    Prop :=
  ∀ places, Careful allowed (fun _ _ => True) p places

theorem AlwaysCareful.bind {α β : Type} {p : FileProgram α} {next : α → FileProgram β}
    (hp : AlwaysCareful allowed p) (hnext : ∀ a, AlwaysCareful allowed (next a)) :
    AlwaysCareful allowed (p.bind next) :=
  fun places => (hp places).bind fun others a _ => hnext a others

namespace CacheProgram

theorem alwaysCareful_bind {α β : Type} {x : CacheProgram α} {next : α → CacheProgram β}
    (hx : AlwaysCareful allowed x.run) (hnext : ∀ a, AlwaysCareful allowed (next a).run) :
    AlwaysCareful allowed (x >>= next).run := by
  refine AlwaysCareful.bind hx fun r => ?_
  cases r with
  | ok a => exact hnext a
  | error e => exact fun _ => trivial

theorem alwaysCareful_makeDirectories (path : String) :
    AlwaysCareful allowed (located path (FileProgram.makeDirectories path)).run := by
  intro places reply
  cases reply <;> exact trivial

theorem alwaysCareful_removeIfPresent (path : String) :
    AlwaysCareful allowed (removeIfPresent path).run := by
  intro places reply
  cases reply with
  | ok _ => exact trivial
  | error reason => cases reason <;> exact trivial

/-- The text that is moved is the one that was written before, whoever else has written it. -/
theorem alwaysCareful_replaceText (path : String) {text : String}
    (htext : ∀ part : String, part.toList <+: text.toList → Genuine allowed part) :
    AlwaysCareful allowed (replaceText path text).run := by
  intro places
  refine ⟨htext, ⟨Set.mem_insert _ _, trivial, fun _ => trivial⟩, fun _ => trivial⟩

end CacheProgram

/-- A document that is found is allowed for a fingerprint with the digest of the one asked for. -/
def AllowedHit (allowed : Fingerprint → Document → Prop) (f : Fingerprint) (r : CacheLookup) :
    Prop :=
  ∀ d, r = .hit d → ∃ g, allowed g d ∧ g.digest = f.digest

theorem allowedHit_miss (f : Fingerprint) (reason : MissReason) :
    AllowedHit allowed f (.miss reason) := by
  intro d hd
  exact absurd hd (by simp)

theorem Snapshot.documentFor_genuine {f : Fingerprint} {text : String}
    (htext : Genuine allowed text) {d : Document} (h : Snapshot.documentFor f text = .ok d) :
    ∃ g, allowed g d ∧ g.digest = f.digest := by
  unfold Snapshot.documentFor at h
  split at h
  · exact absurd h (by simp)
  · next s hs =>
    obtain ⟨g, e, hallowed, rfl⟩ := htext s hs
    split at h
    · exact absurd h (by simp)
    · split at h
      · exact absurd h (by simp)
      · next hdigest =>
        obtain rfl := Except.ok.inj h
        exact ⟨g, hallowed, not_not.mp hdigest⟩

namespace CacheSettings

variable (c : CacheSettings)

theorem alwaysCareful_store {f : Fingerprint} {d : Document} (h : allowed f d) :
    AlwaysCareful allowed (c.store f d).run := by
  have hwrite : AlwaysCareful allowed (c.writeArtifacts f d).run := by
    refine CacheProgram.alwaysCareful_bind (CacheProgram.alwaysCareful_makeDirectories _)
      fun _ => ?_
    -- The old fingerprint goes first, and the new one comes last.
    refine CacheProgram.alwaysCareful_bind (CacheProgram.alwaysCareful_removeIfPresent _)
      fun _ => ?_
    refine CacheProgram.alwaysCareful_bind
      (CacheProgram.alwaysCareful_replaceText _ fun _ hpart => genuine_snapshot h hpart) fun _ => ?_
    exact CacheProgram.alwaysCareful_replaceText _ fun _ hpart => genuine_fingerprint hpart
  refine AlwaysCareful.bind hwrite fun r => ?_
  cases r with
  | ok _ => exact fun _ => trivial
  | error e => exact fun _ _ => trivial

theorem alwaysCareful_clear : AlwaysCareful allowed c.clear.run :=
  CacheProgram.alwaysCareful_bind (CacheProgram.alwaysCareful_removeIfPresent _) fun _ =>
    CacheProgram.alwaysCareful_removeIfPresent _

theorem careful_storedDocument (f : Fingerprint) {places : Set (List Path.Component)}
    (hplaces : Path.components c.documentPath ∈ places) :
    Careful allowed (fun _ => AllowedHit allowed f) (c.storedDocument f) places := by
  intro present
  cases present with
  | false => exact allowedHit_miss f _
  | true =>
    refine ⟨fun text htext => ?_, fun reason => allowedHit_miss f _⟩
    dsimp only [FileProgram.bind]
    cases hdocument : Snapshot.documentFor f text with
    | error fault => exact allowedHit_miss f _
    | ok document =>
      intro d hd
      obtain rfl := CacheLookup.hit.inj hd
      exact Snapshot.documentFor_genuine (htext hplaces) hdocument

theorem careful_lookup (f : Fingerprint) {places : Set (List Path.Component)}
    (hplaces : Path.components c.documentPath ∈ places) :
    Careful allowed (fun _ => AllowedHit allowed f) (c.lookup f) places := by
  unfold lookup
  by_cases henabled : c.enabled = true
  · rw [if_pos henabled]
    refine ⟨fun text _ => ?_, fun reason => allowedHit_miss f _⟩
    dsimp only [FileProgram.bind]
    cases Fingerprint.ofText? text with
    | none => exact allowedHit_miss f _
    | some stored =>
      show Careful allowed _
        (if stored.same f then c.storedDocument f else .done (.miss .fingerprintChanged)) places
      split
      · exact c.careful_storedDocument f hplaces
      · exact allowedHit_miss f _
  · rw [if_neg henabled]
    exact allowedHit_miss f _

theorem run_storedFingerprint {disk : Disk} {text : String}
    (h : disk (Path.components c.fingerprintPath) = some text) :
    c.storedFingerprint.run Disk.answer disk = (Fingerprint.ofText? text, disk) := by
  have hread : Disk.answer (.read c.fingerprintPath) disk = (.ok text, disk) := by
    simp only [Disk.answer, h]
  show FileProgram.run Disk.answer (.call (.read c.fingerprintPath) _) disk = _
  rw [FileProgram.run, hread]
  rfl

theorem run_storedDocument {disk : Disk} {f : Fingerprint} {text : String} {d : Document}
    (h : disk (Path.components c.documentPath) = some text)
    (hdocument : Snapshot.documentFor f text = .ok d) :
    (c.storedDocument f).run Disk.answer disk = (.hit d, disk) := by
  have hprobe : Disk.answer (.probe c.documentPath) disk = (true, disk) := by
    simp only [Disk.answer, h, Option.isSome_some]
  have hread : Disk.answer (.read c.documentPath) disk = (.ok text, disk) := by
    simp only [Disk.answer, h]
  show FileProgram.run Disk.answer (.call (.probe c.documentPath) _) disk = _
  rw [FileProgram.run, hprobe]
  show FileProgram.run Disk.answer (.call (.read c.documentPath) _) disk = _
  rw [FileProgram.run, hread]
  simp only [FileProgram.bind, hdocument]
  rfl

theorem run_storedDocument_missing {disk : Disk} (f : Fingerprint)
    (h : disk (Path.components c.documentPath) = none) :
    (c.storedDocument f).run Disk.answer disk = (.miss .snapshotMissing, disk) := by
  have hprobe : Disk.answer (.probe c.documentPath) disk = (false, disk) := by
    simp only [Disk.answer, h, Option.isSome_none]
  show FileProgram.run Disk.answer (.call (.probe c.documentPath) _) disk = _
  rw [FileProgram.run, hprobe]
  rfl

theorem run_lookup_stored (henabled : c.enabled = true) {disk : Disk} {entry : String}
    {stored : Fingerprint} (hfingerprint : disk (Path.components c.fingerprintPath) = some entry)
    (hstored : Fingerprint.ofText? entry = some stored) (f : Fingerprint) :
    (c.lookup f).run Disk.answer disk =
      if stored.same f then (c.storedDocument f).run Disk.answer disk
      else (.miss .fingerprintChanged, disk) := by
  unfold lookup
  rw [if_pos henabled]
  show FileProgram.run Disk.answer (c.storedFingerprint.bind _) disk = _
  rw [FileProgram.run_bind, c.run_storedFingerprint hfingerprint, hstored]
  dsimp only
  split <;> rfl

/-- Where no call fails, a document is found that stands beside the right fingerprint. -/
theorem run_lookup (henabled : c.enabled = true) {disk : Disk} {entry text : String}
    {f stored : Fingerprint} {d : Document}
    (hfingerprint : disk (Path.components c.fingerprintPath) = some entry)
    (hstored : Fingerprint.ofText? entry = some stored) (hsame : stored.same f = true)
    (h : disk (Path.components c.documentPath) = some text)
    (hdocument : Snapshot.documentFor f text = .ok d) :
    (c.lookup f).run Disk.answer disk = (.hit d, disk) := by
  rw [c.run_lookup_stored henabled hfingerprint hstored, if_pos hsame]
  exact c.run_storedDocument h hdocument

end CacheSettings

end GraphSchema
