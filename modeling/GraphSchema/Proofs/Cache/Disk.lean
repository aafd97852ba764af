import GraphSchema.Cache.Lookup
import GraphSchema.Cache.Store
import GraphSchema.Proofs.Cache.Snapshot
import Mathlib.Data.Set.Insert
import Mathlib.Logic.Relation

/-!
# Disks that fail

A disk on which every call may fail, and the steps of the programs that run on it. A write that
fails may leave the first part of its text behind. A program is careful if it only ever writes and
moves texts that are genuine: a genuine text is no snapshot, or one of the snapshots that are
allowed.
-/

namespace GraphSchema

/-- The texts of files, by the components of their paths. -/
abbrev Disk := List Path.Component → Option String

namespace Disk

/-- The disk with another text, or none, at a path. -/
def put (d : Disk) (path : String) (text : Option String) : Disk :=
  Function.update d (Path.components path) text

/-- The replies that a call may get, and the disk that it leaves behind with each. -/
inductive Answers (d : Disk) : (request : FileCall) → request.Reply → Disk → Prop
  | makeDirectories (path : String) (reply : Except FileError Unit) :
      Answers d (.makeDirectories path) reply d
  | removed {path text : String} (h : d (Path.components path) = some text) :
      Answers d (.remove path) (.ok ()) (d.put path none)
  | notRemoved {path : String} {reason : FileError}
      (h : reason = .missing → d (Path.components path) = none) :
      Answers d (.remove path) (.error reason) d
  | written (path text : String) : Answers d (.write path text) (.ok ()) (d.put path (some text))
  | cutOff {path text part : String} (h : part.toList <+: text.toList) (reason : FileError) :
      Answers d (.write path text) (.error reason) (d.put path (some part))
  | notWritten (path text : String) (reason : FileError) :
      Answers d (.write path text) (.error reason) d
  | renamed {source target text : String} (h : d (Path.components source) = some text) :
      Answers d (.rename source target) (.ok ()) ((d.put source none).put target (some text))
  | notRenamed (source target : String) (reason : FileError) :
      Answers d (.rename source target) (.error reason) d
  | found {path text : String} (h : d (Path.components path) = some text) :
      Answers d (.probe path) true d
  | notFound (path : String) : Answers d (.probe path) false d
  | read {path text : String} (h : d (Path.components path) = some text) :
      Answers d (.read path) (.ok text) d
  | notRead (path : String) (reason : FileError) : Answers d (.read path) (.error reason) d

theorem put_self (d : Disk) (path : String) (text : Option String) :
    d.put path text (Path.components path) = text := Function.update_self ..

theorem put_of_ne (d : Disk) {path : String} {key : List Path.Component}
    (h : key ≠ Path.components path) (text : Option String) : d.put path text key = d key :=
  Function.update_of_ne h ..

/-- What a disk does that does not fail. -/
def answer : (request : FileCall) → Disk → request.Reply × Disk
  | .makeDirectories _, d => (.ok (), d)
  | .remove path, d =>
      match d (Path.components path) with
      | some _ => (.ok (), d.put path none)
      | none => (.error .missing, d)
  | .write path text, d => (.ok (), d.put path (some text))
  | .rename source target, d =>
      match d (Path.components source) with
      | some text => (.ok (), (d.put source none).put target (some text))
      | none => (.error .missing, d)
  | .probe path, d => ((d (Path.components path)).isSome, d)
  | .read path, d =>
      match d (Path.components path) with
      | some text => (.ok text, d)
      | none => (.error .missing, d)

theorem answers_answer (d : Disk) (request : FileCall) :
    d.Answers request (answer request d).1 (answer request d).2 := by
  cases request with
  | makeDirectories path => exact .makeDirectories path _
  | remove path =>
    cases h : d (Path.components path) with
    | none => simpa only [answer, h] using Answers.notRemoved fun _ => h
    | some text => simpa only [answer, h] using Answers.removed h
  | write path text => exact .written path text
  | rename source target =>
    cases h : d (Path.components source) with
    | none => simpa only [answer, h] using Answers.notRenamed source target .missing
    | some text => simpa only [answer, h] using Answers.renamed h
  | probe path =>
    cases h : d (Path.components path) with
    | none => simpa only [answer, h, Option.isSome_none] using Answers.notFound path
    | some text => simpa only [answer, h, Option.isSome_some] using Answers.found h
  | read path =>
    cases h : d (Path.components path) with
    | none => simpa only [answer, h] using Answers.notRead path .missing
    | some text => simpa only [answer, h] using Answers.read h

end Disk

/-- One call of a program, with a reply that the disk may give. -/
inductive FileProgram.Step {α : Type} : FileProgram α × Disk → FileProgram α × Disk → Prop
  | call {request : FileCall} {next : request.Reply → FileProgram α} {reply : request.Reply}
      {d after : Disk} (h : d.Answers request reply after) :
      Step (.call request next, d) (next reply, after)

/-- A program runs to its end where no call fails. -/
theorem FileProgram.steps_run {α : Type} (p : FileProgram α) (d : Disk) :
    Relation.ReflTransGen Step (p, d) (.done (p.run Disk.answer d).1, (p.run Disk.answer d).2) := by
  induction p generalizing d with
  | done a => exact .refl
  | call request next ih => exact .head (.call (d.answers_answer request)) (ih _ _)

/-- A text is no snapshot, or that of an allowed document for an allowed fingerprint. -/
def Genuine (allowed : Fingerprint → Document → Prop) (text : String) : Prop :=
  ∀ s, Snapshot.ofText? text = some s → ∃ f d, allowed f d ∧ s = Snapshot.of f d

/-- Places where nothing but genuine texts stand. -/
def Disk.Trusted (allowed : Fingerprint → Document → Prop) (d : Disk)
    (places : Set (List Path.Component)) : Prop :=
  ∀ key ∈ places, ∀ text, d key = some text → Genuine allowed text

variable {allowed : Fingerprint → Document → Prop}

theorem genuine_snapshot {f : Fingerprint} {d : Document} (h : allowed f d) {part : String}
    (hpart : part.toList <+: (Snapshot.of f d).toText.toList) : Genuine allowed part :=
  fun _ hs => ⟨f, d, h, Snapshot.ofText?_truncated hpart hs⟩

theorem genuine_fingerprint {f : Fingerprint} {part : String}
    (hpart : part.toList <+: f.toText.toList) : Genuine allowed part := by
  intro s hs
  rw [Fingerprint.snapshot_truncated hpart] at hs
  exact absurd hs (by simp)

theorem genuine_malformed {text : String} (h : Snapshot.ofText? text = none) :
    Genuine allowed text := by
  intro s hs
  rw [h] at hs
  exact absurd hs (by simp)

namespace Disk.Trusted

variable {d : Disk} {places : Set (List Path.Component)}

theorem put_none (h : d.Trusted allowed places) (path : String) :
    (d.put path none).Trusted allowed places := by
  intro key hkey text htext
  by_cases heq : key = Path.components path
  · rw [heq, Disk.put_self] at htext
    exact absurd htext (by simp)
  · rw [Disk.put_of_ne d heq] at htext
    exact h key hkey text htext

theorem put_elsewhere (h : d.Trusted allowed places) {path : String}
    (hpath : Path.components path ∉ places) (text : Option String) :
    (d.put path text).Trusted allowed places := by
  intro key hkey other hother
  have hne : key ≠ Path.components path := fun heq => hpath (heq ▸ hkey)
  rw [Disk.put_of_ne d hne] at hother
  exact h key hkey other hother

theorem put_some (h : d.Trusted allowed places) (path : String) {text : String}
    (htext : Genuine allowed text) :
    (d.put path (some text)).Trusted allowed (insert (Path.components path) places) := by
  intro key hkey other hother
  by_cases heq : key = Path.components path
  · rw [heq, Disk.put_self] at hother
    rw [← Option.some.inj hother]
    exact htext
  · rw [Disk.put_of_ne d heq] at hother
    rcases hkey with rfl | hkey
    · exact absurd rfl heq
    · exact h key hkey other hother

theorem mono (h : d.Trusted allowed places) {fewer : Set (List Path.Component)}
    (hsub : fewer ⊆ places) : d.Trusted allowed fewer :=
  fun key hkey => h key (hsub hkey)

end Disk.Trusted

/-- What a program writes and moves is genuine, given places that are trusted and what it reads
there, and `post` holds at its end. A place that it has filled is trusted from then on. -/
def Careful (allowed : Fingerprint → Document → Prop) {α : Type}
    (post : Set (List Path.Component) → α → Prop) :
    FileProgram α → Set (List Path.Component) → Prop
  | .done a, places => post places a
  | .call (.write path text) next, places =>
      (∀ part : String, part.toList <+: text.toList → Genuine allowed part) ∧
        Careful allowed post (next (.ok ())) (insert (Path.components path) places) ∧
          ∀ reason, Careful allowed post (next (.error reason)) places
  | .call (.rename source target) next, places =>
      Path.components source ∈ places ∧
        Careful allowed post (next (.ok ())) (insert (Path.components target) places) ∧
          ∀ reason, Careful allowed post (next (.error reason)) places
  | .call (.read path) next, places =>
      (∀ text, (Path.components path ∈ places → Genuine allowed text) →
        Careful allowed post (next (.ok text)) places) ∧
          ∀ reason, Careful allowed post (next (.error reason)) places
  | .call (.makeDirectories _) next, places => ∀ reply, Careful allowed post (next reply) places
  | .call (.remove _) next, places => ∀ reply, Careful allowed post (next reply) places
  | .call (.probe _) next, places => ∀ reply, Careful allowed post (next reply) places

namespace Careful

variable {α β : Type} {places : Set (List Path.Component)}

theorem bind {post : Set (List Path.Component) → α → Prop}
    {final : Set (List Path.Component) → β → Prop} {p : FileProgram α} {next : α → FileProgram β}
    (h : Careful allowed post p places)
    (hnext : ∀ others a, post others a → Careful allowed final (next a) others) :
    Careful allowed final (p.bind next) places := by
  induction p generalizing places with
  | done a => exact hnext places a h
  | call request rest ih =>
    cases request with
    | write path text => exact ⟨h.1, ih _ h.2.1, fun reason => ih _ (h.2.2 reason)⟩
    | rename source target => exact ⟨h.1, ih _ h.2.1, fun reason => ih _ (h.2.2 reason)⟩
    | read path => exact ⟨fun text htext => ih _ (h.1 text htext), fun reason => ih _ (h.2 reason)⟩
    | makeDirectories path => exact fun reply => ih _ (h reply)
    | remove path => exact fun reply => ih _ (h reply)
    | probe path => exact fun reply => ih _ (h reply)

/-- A step of a careful program keeps every trusted place trusted, and the program is careful with
what comes next. -/
theorem step {post : Set (List Path.Component) → α → Prop} {p q : FileProgram α} {d after : Disk}
    (h : Careful allowed post p places) (hd : d.Trusted allowed places)
    (hstep : FileProgram.Step (p, d) (q, after)) :
    (∀ others, d.Trusted allowed others → after.Trusted allowed others) ∧
      ∃ more, after.Trusted allowed more ∧ Careful allowed post q more := by
  cases hstep with
  | call hanswer =>
    cases hanswer with
    | makeDirectories path reply => exact ⟨fun _ ho => ho, places, hd, h reply⟩
    | removed hfile => exact ⟨fun _ ho => ho.put_none _, places, hd.put_none _, h (.ok ())⟩
    | notRemoved hmissing => exact ⟨fun _ ho => ho, places, hd, h _⟩
    | written path text =>
      have htext := h.1 text List.prefix_rfl
      refine ⟨fun _ ho => ?_, _, hd.put_some path htext, h.2.1⟩
      exact (ho.put_some path htext).mono (Set.subset_insert _ _)
    | cutOff hpart reason =>
      -- A part of a text is left behind, which says the same as the whole text or nothing.
      have htext := h.1 _ hpart
      refine ⟨fun _ ho => ?_, places, ?_, h.2.2 reason⟩
      · exact (ho.put_some _ htext).mono (Set.subset_insert _ _)
      · exact (hd.put_some _ htext).mono (Set.subset_insert _ _)
    | notWritten path text reason => exact ⟨fun _ ho => ho, places, hd, h.2.2 reason⟩
    | renamed hsource =>
      have htext := hd _ h.1 _ hsource
      refine ⟨fun _ ho => ?_, _, (hd.put_none _).put_some _ htext, h.2.1⟩
      exact ((ho.put_none _).put_some _ htext).mono (Set.subset_insert _ _)
    | notRenamed source target reason => exact ⟨fun _ ho => ho, places, hd, h.2.2 reason⟩
    | found hfile => exact ⟨fun _ ho => ho, places, hd, h true⟩
    | notFound path => exact ⟨fun _ ho => ho, places, hd, h false⟩
    | read hfile => exact ⟨fun _ ho => ho, places, hd, h.1 _ fun hin => hd _ hin _ hfile⟩
    | notRead path reason => exact ⟨fun _ ho => ho, places, hd, h.2 reason⟩

/-- Wherever the run of a careful program ends or is stopped, trusted places are trusted still. -/
theorem run {post : Set (List Path.Component) → α → Prop} {p q : FileProgram α} {d after : Disk}
    (h : Careful allowed post p places) (hd : d.Trusted allowed places)
    (hrun : Relation.ReflTransGen FileProgram.Step (p, d) (q, after)) :
    (∀ others, d.Trusted allowed others → after.Trusted allowed others) ∧
      ∃ more, after.Trusted allowed more ∧ Careful allowed post q more := by
  generalize hstart : (p, d) = start at hrun
  induction hrun using Relation.ReflTransGen.head_induction_on generalizing p d places with
  | refl =>
    obtain ⟨rfl, rfl⟩ := Prod.mk.inj hstart
    exact ⟨fun _ ho => ho, places, hd, h⟩
  | head hstep hrest ih =>
    rename_i first second
    obtain ⟨p', d'⟩ := second
    subst hstart
    obtain ⟨hkeep, more, hmore, hnext⟩ := h.step hd hstep
    obtain ⟨hkeep', hend⟩ := ih hnext hmore rfl
    exact ⟨fun others ho => hkeep' others (hkeep others ho), hend⟩

end Careful

end GraphSchema
