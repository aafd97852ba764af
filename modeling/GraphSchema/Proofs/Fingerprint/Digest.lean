import GraphSchema.Proofs.Fingerprint.Recording
import GraphSchema.Proofs.Text.Bytes
import GraphSchema.Proofs.Text.Scanning
import Mathlib.Algebra.Group.Nat.Defs

/-!
# Digested bytes

The bytes that a digest is made of are read back entry by entry: a path ends where the first zero
byte stands, and a time has eight bytes. So they tell the fingerprint, which tells of each path the
time that was recorded last for it, and nothing else.
-/

namespace GraphSchema.Fingerprint

variable {f g : Fingerprint}

/-- The lower bytes of a number tell the number up to the power of their count. -/
theorem mod_pow_eq_of_bytes {n m : Nat} (count : Nat)
    (h : ∀ i < count, n / 256 ^ i % 256 = m / 256 ^ i % 256) :
    n % 256 ^ count = m % 256 ^ count := by
  induction count with
  | zero => rw [Nat.pow_zero, Nat.mod_one, Nat.mod_one]
  | succ count ih =>
    rw [Nat.mod_pow_succ, Nat.mod_pow_succ, ih fun i hi => h i (Nat.lt_succ_of_lt hi),
      h count (Nat.lt_succ_self _)]

theorem timeBytes_inj {s t : UInt64} (h : timeBytes s = timeBytes t) : s = t := by
  have hbytes : ∀ i < 8, s.toNat / 256 ^ i % 256 = t.toNat / 256 ^ i % 256 := by
    intro i hi
    have hbyte := List.map_inj_left.mp h i (List.mem_range.mpr hi)
    have hnat := congrArg UInt8.toNat hbyte
    rwa [UInt8.toNat_ofNat', UInt8.toNat_ofNat'] at hnat
  have hmod := mod_pow_eq_of_bytes 8 hbytes
  rw [show 256 ^ 8 = 2 ^ 64 from rfl, Nat.mod_eq_of_lt s.toNat_lt, Nat.mod_eq_of_lt t.toNat_lt]
    at hmod
  exact UInt64.toNat_inj.mp hmod

theorem entryBytes_append_inj {a b : String × UInt64} (ha : Path.hasZero a.1 = false)
    (hb : Path.hasZero b.1 = false) {more others : List UInt8}
    (h : entryBytes a ++ more = entryBytes b ++ others) : a = b ∧ more = others := by
  have hrun : ∀ {path : String}, Path.hasZero path = false →
      ∀ byte ∈ path.toUTF8.toList, (byte != 0) = true := by
    intro path hpath byte hbyte
    have hzero := Text.zero_notMem_toUTF8 (by simpa [Path.hasZero] using hpath)
    rw [bne_iff_ne]
    rintro rfl
    exact hzero hbyte
  rw [entryBytes, entryBytes, List.append_assoc, List.append_assoc] at h
  obtain ⟨hpath, hrest⟩ := Text.append_inj_of_run (hrun ha) (hrun hb) (by simp) (by simp) h
  have hlength : (timeBytes a.2).length = (timeBytes b.2).length := by simp [timeBytes]
  obtain ⟨htime, hmore⟩ := List.append_inj (List.cons.inj hrest).2 hlength
  exact ⟨Prod.ext (Text.toUTF8_inj hpath) (timeBytes_inj htime), hmore⟩

theorem entryBytes_ne_nil (e : String × UInt64) : entryBytes e ≠ [] := by simp [entryBytes]

/-- The bytes of entries are read back entry by entry. -/
theorem flatMap_entryBytes_inj {entries others : List (String × UInt64)}
    (hentries : ∀ e ∈ entries, Path.hasZero e.1 = false)
    (hothers : ∀ e ∈ others, Path.hasZero e.1 = false)
    (h : entries.flatMap entryBytes = others.flatMap entryBytes) : entries = others := by
  induction entries generalizing others with
  | nil =>
    cases others with
    | nil => rfl
    | cons b others =>
      rw [List.flatMap_cons, List.flatMap_nil] at h
      exact absurd (List.append_eq_nil_iff.mp h.symm).1 (entryBytes_ne_nil b)
  | cons a entries ih =>
    cases others with
    | nil =>
      rw [List.flatMap_cons, List.flatMap_nil] at h
      exact absurd (List.append_eq_nil_iff.mp h).1 (entryBytes_ne_nil a)
    | cons b others =>
      obtain ⟨ha, htail⟩ := List.forall_mem_cons.mp hentries
      obtain ⟨hb, htail'⟩ := List.forall_mem_cons.mp hothers
      rw [List.flatMap_cons, List.flatMap_cons] at h
      obtain ⟨hab, hrest⟩ := entryBytes_append_inj ha hb h
      rw [hab, ih htail htail' hrest]

/-- The bytes that the digest of a fingerprint is made of tell the fingerprint. -/
theorem digestBytes_inj (hf : ∀ e ∈ f.entries, Path.hasZero e.1 = false)
    (hg : ∀ e ∈ g.entries, Path.hasZero e.1 = false) (h : f.digestBytes = g.digestBytes) :
    f = g := by
  have heq := flatMap_entryBytes_inj hf hg h
  cases f
  cases g
  exact congrArg Fingerprint.mk heq

/-- The paths that a collection records: canonical, and without zero characters. -/
def HasRealPaths (records : List (String × UInt64)) : Prop :=
  ∀ e ∈ records, Path.IsCanonical e.1 ∧ Path.hasZero e.1 = false

/-- Two files, the second of which is recorded again. -/
def rewrittenRecords : List (String × UInt64) :=
  [("/lib/user.graphql", 7), ("/lib/a.graphql", 256), ("/lib/user.graphql", 0)]

/-- The same files in order, with their last times. -/
def settledRecords : List (String × UInt64) := [("/lib/a.graphql", 256), ("/lib/user.graphql", 0)]

theorem hasRealPaths_of_library {records : List (String × UInt64)}
    (h : ∀ e ∈ records, e.1 = "/lib/user.graphql" ∨ e.1 = "/lib/a.graphql") :
    HasRealPaths records := by
  have hnames : ∀ name ∈ ["lib", "user.graphql", "a.graphql"], Path.IsEntryName name := by
    intro name hname
    simp only [List.mem_cons, List.not_mem_nil, or_false] at hname
    rcases hname with rfl | rfl | rfl <;> exact ⟨by decide, by decide, by decide⟩
  intro e he
  rcases h e he with hpath | hpath
  · rw [hpath]
    refine ⟨⟨["lib", "user.graphql"], fun name hname => hnames name ?_, by decide⟩, by decide⟩
    simp only [List.mem_cons, List.not_mem_nil, or_false] at hname ⊢
    tauto
  · rw [hpath]
    refine ⟨⟨["lib", "a.graphql"], fun name hname => hnames name ?_, by decide⟩, by decide⟩
    simp only [List.mem_cons, List.not_mem_nil, or_false] at hname ⊢
    tauto

end GraphSchema.Fingerprint
