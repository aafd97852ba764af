import GraphSchema.Proofs.Cache.Consistent
import GraphSchema.Proofs.Cache.Retention

/-!
# Stores that fail

A store that fails has done nothing, or it has taken the fingerprint away and put at most a part of
a snapshot in its place. So a lookup finds what it found before, or nothing. The names of the
artifacts are any: the file where one artifact is written first may be the other one.
-/

namespace GraphSchema

open FileProgram

/-- No part of the text of a snapshot is the text of a fingerprint. -/
theorem Snapshot.fingerprint_truncated {f : Fingerprint} {d : Document} {text : String}
    (htext : text.toList <+: (of f d).toText.toList) : Fingerprint.ofText? text = none := by
  cases h : Json.parse text with
  | none => rw [Fingerprint.ofText?, h]; rfl
  | some j =>
    have hobject : j = (of f d).toJson := Json.parse_truncated (isPlain_toJson _) htext h
    rw [Fingerprint.ofText?, h, hobject]
    rfl

namespace CacheProgram

variable {α : Type} {d after : Disk} {e : CacheError} {path text : String}

theorem components_temporaryPath_ne (path : String) :
    Path.components (temporaryPath path) ≠ Path.components path := by
  unfold temporaryPath
  cases hname : Path.fileName? path with
  | none =>
    have hentry : Path.IsEntryName ".tmp" := ⟨by decide, by decide, by decide⟩
    exact Path.components_withFileName_ne hentry (by simp [hname])
  | some name =>
    have hlast : .name name ∈ Path.components path := by
      apply List.mem_of_getLast?
      unfold Path.fileName? at hname
      split at hname
      · next s hlast => rwa [Option.some.inj hname] at hlast
      · exact absurd hname (by simp)
    have hentry : Path.IsEntryName name := Path.isEntryName_of_mem_components hlast
    refine Path.components_withFileName_ne hentry.append_tmp ?_
    rw [hname]
    intro heq
    have hlength := congrArg String.length (Option.some.inj heq)
    rw [Option.getD_some, String.length_append] at hlength
    have htmp : ".tmp".length = 4 := rfl
    omega

theorem runs_bind_error_iff {x : CacheProgram Unit} {next : Unit → CacheProgram α} :
    Runs (x >>= next).run d (.error e) after ↔ Runs x.run d (.error e) after ∨
      ∃ mid, Runs x.run d (.ok ()) mid ∧ Runs (next ()).run mid (.error e) after := by
  refine runs_bind_iff.trans ⟨?_, ?_⟩
  · rintro ⟨r, mid, hx, hnext⟩
    cases r with
    | ok _ => exact .inr ⟨mid, hx, hnext⟩
    | error e' =>
      obtain ⟨herror, rfl⟩ := runs_done_iff.mp hnext
      rw [Except.error.inj herror] at hx
      exact .inl hx
  · rintro (hx | ⟨mid, hx, hnext⟩)
    · exact ⟨.error e, after, hx, runs_done_iff.mpr ⟨rfl, rfl⟩⟩
    · exact ⟨.ok (), mid, hx, hnext⟩

theorem runs_located_error {p : FileProgram (Except FileError Unit)}
    (h : Runs (located path p).run d (.error e) after) :
    ∃ reason, Runs p d (.error reason) after := by
  obtain ⟨r, mid, hp, hdone⟩ := runs_bind_iff.mp h
  cases r with
  | ok _ => exact absurd (runs_done_iff.mp hdone).1 (by simp)
  | error reason =>
    obtain ⟨-, rfl⟩ := runs_done_iff.mp hdone
    exact ⟨reason, hp⟩

/-- Directories that cannot be made leave all texts as they are. -/
theorem unchanged_of_makeDirectories_error
    (h : Runs (located path (makeDirectories path)).run d (.error e) after) : after = d := by
  obtain ⟨reason, h⟩ := runs_located_error h
  have hanswer := runs_answer_iff.mp h
  cases hanswer
  rfl

theorem unchanged_of_removeIfPresent_error
    (h : Runs (removeIfPresent path).run d (.error e) after) : after = d := by
  obtain ⟨reply, mid, hanswer, hdone⟩ := runs_call_iff.mp h
  cases hanswer with
  | removed => exact absurd (runs_done_iff.mp hdone).1 (by simp)
  | @notRemoved _ reason hmissing =>
    cases reason with
    | missing => exact absurd (runs_done_iff.mp hdone).1 (by simp)
    | _ => exact (runs_done_iff.mp hdone).2.symm

/-- A text that does not come to its place has left at most a part of it beside. -/
theorem part_of_replaceText_error (h : Runs (replaceText path text).run d (.error e) after) :
    after = d ∨ ∃ part : String, part.toList <+: text.toList ∧
      after = d.put (temporaryPath path) (some part) := by
  rcases runs_bind_error_iff.mp h with hwrite | ⟨mid, hwrite, hmove⟩
  · obtain ⟨reason, hwrite⟩ := runs_located_error hwrite
    have hanswer := runs_answer_iff.mp hwrite
    cases hanswer with
    | cutOff hpart => exact .inr ⟨_, hpart, rfl⟩
    | notWritten => exact .inl rfl
  · rw [runs_located_ok_iff, runs_write_ok_iff] at hwrite
    subst hwrite
    obtain ⟨reason, hmove⟩ := runs_located_error hmove
    have hanswer := runs_answer_iff.mp hmove
    cases hanswer with
    | notRenamed => exact .inr ⟨text, List.prefix_rfl, rfl⟩

end CacheProgram

namespace CacheSettings

open CacheProgram

variable {c : CacheSettings} {f g : Fingerprint} {m : Document} {d before after : Disk}
  {e : CacheError}

/-- There is no fingerprint, or none that can be read. -/
def Unusable (c : CacheSettings) (d : Disk) : Prop :=
  ∀ text, d (Path.components c.fingerprintPath) = some text → Fingerprint.ofText? text = none

namespace Unusable

theorem of_none (h : d (Path.components c.fingerprintPath) = none) : c.Unusable d := by
  intro text htext
  rw [h] at htext
  exact absurd htext (by simp)

theorem put_none (h : c.Unusable d) (path : String) : c.Unusable (d.put path none) := by
  intro text htext
  by_cases heq : Path.components c.fingerprintPath = Path.components path
  · rw [heq, Disk.put_self] at htext
    exact absurd htext (by simp)
  · rw [Disk.put_of_ne d heq] at htext
    exact h text htext

/-- What is written matters only where the fingerprint stands. -/
theorem put_some (h : c.Unusable d) {path text : String}
    (htext : Path.components path = Path.components c.fingerprintPath →
      Fingerprint.ofText? text = none) : c.Unusable (d.put path (some text)) := by
  intro other hother
  by_cases heq : Path.components c.fingerprintPath = Path.components path
  · rw [heq, Disk.put_self] at hother
    rw [← Option.some.inj hother]
    exact htext heq.symm
  · rw [Disk.put_of_ne d heq] at hother
    exact h other hother

/-- No lookup finds anything, whichever of its calls fail. -/
theorem miss (h : c.Unusable d) {r : CacheLookup} (hrun : Runs (c.lookup g) d r after) :
    ∃ reason, r = .miss reason := by
  cases r with
  | miss reason => exact ⟨reason, rfl⟩
  | hit m =>
    obtain ⟨entry, stored, text, hentry, hstored, -⟩ := artifacts_of_hit hrun
    rw [h entry hentry] at hstored
    exact absurd hstored (by simp)

end Unusable

/-- Until the fingerprint is taken away nothing is touched, and after that no fingerprint comes to
stand there before all is written. -/
theorem unchanged_or_unusable (h : Runs (c.writeArtifacts f m).run d (.error e) after) :
    after = d ∨ c.Unusable after := by
  rcases runs_bind_error_iff.mp h with hdirectory | ⟨first, hdirectory, hrest⟩
  · exact .inl (unchanged_of_makeDirectories_error hdirectory)
  rw [runs_located_ok_iff, runs_makeDirectories_iff] at hdirectory
  subst hdirectory
  rcases runs_bind_error_iff.mp hrest with hremove | ⟨second, hremove, htexts⟩
  · exact .inl (unchanged_of_removeIfPresent_error hremove)
  -- The files that are written first may be the artifacts, but a snapshot is no fingerprint.
  have hsecond : c.Unusable second := .of_none (missing_of_runs_removeIfPresent hremove)
  refine .inr ?_
  rcases runs_bind_error_iff.mp htexts with hdocument | ⟨third, hdocument, hfingerprint⟩
  · rcases part_of_replaceText_error hdocument with rfl | ⟨part, hpart, rfl⟩
    · exact hsecond
    · exact hsecond.put_some fun _ => Snapshot.fingerprint_truncated hpart
  · obtain rfl := runs_replaceText_iff.mp hdocument
    have hthird : c.Unusable (second.replace c.documentPath (Snapshot.of f m).toText) :=
      (hsecond.put_none _).put_some fun _ => Snapshot.fingerprint_truncated List.prefix_rfl
    rcases part_of_replaceText_error hfingerprint with rfl | ⟨part, hpart, rfl⟩
    · exact hthird
    · exact hthird.put_some fun heq => absurd heq (components_temporaryPath_ne _)

/-- A store fails with an error, and the removal by which it cleans up gets a reply. -/
def FailsWith (c : CacheSettings) (f : Fingerprint) (m : Document) (before : Disk) (e : CacheError)
    (reply : Except FileError Unit) (after : Disk) : Prop :=
  ∃ mid, Runs (c.writeArtifacts f m).run before (.error e) mid ∧
    mid.Answers (.remove c.fingerprintPath) reply after

theorem runs_store_error_iff :
    Runs (c.store f m).run before (.error e) after ↔
      ∃ reply, c.FailsWith f m before e reply after := by
  refine runs_bind_iff.trans ⟨?_, ?_⟩
  · rintro ⟨r, mid, hwrite, h⟩
    cases r with
    | ok _ => exact absurd (runs_done_iff.mp h).1 (by simp)
    | error e' =>
      obtain ⟨reply, last, hanswer, hdone⟩ := runs_call_iff.mp h
      obtain ⟨herror, rfl⟩ := runs_done_iff.mp hdone
      rw [Except.error.inj herror] at hwrite
      exact ⟨reply, mid, hwrite, hanswer⟩
  · rintro ⟨reply, mid, hwrite, hanswer⟩
    exact ⟨.error e, mid, hwrite, runs_call_iff.mpr ⟨reply, after, hanswer,
      runs_done_iff.mpr ⟨rfl, rfl⟩⟩⟩

theorem FailsWith.unchanged_or_unusable {reply : Except FileError Unit}
    (h : c.FailsWith f m before e reply after) : after = before ∨ c.Unusable after := by
  obtain ⟨mid, hwrite, hanswer⟩ := h
  cases hanswer with
  | removed => exact .inr (.of_none (Disk.put_self ..))
  | notRemoved => exact CacheSettings.unchanged_or_unusable hwrite

/-- Where the clean-up did its work, or found that there was none, there is no fingerprint. -/
theorem FailsWith.unusable {reply : Except FileError Unit}
    (h : c.FailsWith f m before e reply after)
    (hreply : reply = .ok () ∨ reply = .error .missing) : c.Unusable after := by
  obtain ⟨mid, -, hanswer⟩ := h
  cases hanswer with
  | removed => exact .of_none (Disk.put_self ..)
  | notRemoved hmissing =>
    refine .of_none (hmissing ?_)
    rcases hreply with hreply | hreply
    · exact absurd hreply (by simp)
    · exact Except.error.inj hreply

/-- A lookup is a miss, whichever of its calls fail. -/
def Misses (c : CacheSettings) (g : Fingerprint) (d : Disk) : Prop :=
  ∀ r last, Runs (c.lookup g) d r last → ∃ reason, r = .miss reason

/-- What a lookup ends with where none of its calls fails. -/
def found (c : CacheSettings) (g : Fingerprint) (d : Disk) : CacheLookup :=
  ((c.lookup g).run Disk.answer d).1

/-- After a store that fails, whichever of its calls did, a lookup is a miss or it ends as it would
have before. If the clean-up removed the fingerprint or found none, all lookups are misses. -/
theorem lookup_of_failed_store (h : Runs (c.store f m).run before (.error e) after) :
    (∀ g, c.Misses g after ∨ c.found g after = c.found g before) ∧
      (∃ reply, c.FailsWith f m before e reply after) ∧
      ∀ reply, c.FailsWith f m before e reply after →
        reply = .ok () ∨ reply = .error .missing → ∀ g, c.Misses g after := by
  obtain ⟨reply, hfails⟩ := runs_store_error_iff.mp h
  refine ⟨fun g => ?_, ⟨reply, hfails⟩, fun _ hfails hreply g r last hrun => ?_⟩
  · rcases hfails.unchanged_or_unusable with rfl | hunusable
    · exact .inr rfl
    · exact .inl fun r last hrun => hunusable.miss hrun
  · exact (hfails.unusable hreply).miss hrun

/-- A cache whose document is written first to where the fingerprint stands. -/
def crossedCache : CacheSettings :=
  { enabled := true, fingerprintFile := "a.tmp", documentFile := "a" }

def noteSnapshot : String := (Snapshot.of Config.noteFingerprint Config.noteDocument).toText

/-- The cache holds a note. -/
def crossedBefore : Disk :=
  Disk.put (Disk.put (fun _ => none) crossedCache.documentPath (some noteSnapshot))
    crossedCache.fingerprintPath (some Config.noteFingerprint.toText)

/-- The fingerprint is taken away, and a snapshot comes to stand in its place. -/
def crossedWritten : Disk :=
  (crossedBefore.put crossedCache.fingerprintPath none).put
    (temporaryPath crossedCache.documentPath) (some noteSnapshot)

/-- The snapshot could not be moved, and has been removed. -/
def crossedAfter : Disk := crossedWritten.put crossedCache.fingerprintPath none

theorem failsWith_crossed : crossedCache.FailsWith Config.noteFingerprint Config.noteDocument
    crossedBefore ⟨crossedCache.documentPath, .busy⟩ (.ok ()) crossedAfter := by
  have hcrossed : Path.components (temporaryPath crossedCache.documentPath) =
      Path.components crossedCache.fingerprintPath := by decide
  have hstands : crossedWritten (Path.components crossedCache.fingerprintPath) =
      some noteSnapshot := by
    rw [← hcrossed]
    exact Disk.put_self ..
  refine ⟨crossedWritten, ?_, .removed hstands⟩
  refine runs_bind_error_iff.mpr (.inr ⟨crossedBefore, ?_, ?_⟩)
  · exact runs_located_ok_iff.mpr (runs_makeDirectories_iff.mpr rfl)
  refine runs_bind_error_iff.mpr
    (.inr ⟨crossedBefore.put crossedCache.fingerprintPath none, ?_, ?_⟩)
  · exact runs_call_iff.mpr ⟨.ok (), _, .removed (Disk.put_self ..), runs_done_iff.mpr ⟨rfl, rfl⟩⟩
  refine runs_bind_error_iff.mpr (.inl (runs_bind_error_iff.mpr (.inr ⟨crossedWritten, ?_, ?_⟩)))
  · exact runs_located_ok_iff.mpr (runs_write_ok_iff.mpr rfl)
  · exact runs_call_iff.mpr ⟨.error .busy, _, .notRenamed .., runs_done_iff.mpr ⟨rfl, rfl⟩⟩

theorem lookup_of_failed_store_crossed :
    Runs (crossedCache.store Config.noteFingerprint Config.noteDocument).run crossedBefore
        (.error ⟨crossedCache.documentPath, .busy⟩) crossedAfter ∧
      (∀ g, crossedCache.Misses g crossedAfter ∨
        crossedCache.found g crossedAfter = crossedCache.found g crossedBefore) ∧
      ∀ g, crossedCache.Misses g crossedAfter := by
  have hrun := runs_store_error_iff.mpr ⟨_, failsWith_crossed⟩
  have hlookup := lookup_of_failed_store hrun
  exact ⟨hrun, hlookup.1, hlookup.2.2 _ failsWith_crossed (.inl rfl)⟩

end CacheSettings

end GraphSchema
