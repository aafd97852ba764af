import GraphSchema.Json.Basic
import GraphSchema.Path
import GraphSchema.Sha256

/-!
# Fingerprints

The state of a set of source files: the time of the last change of each, in
nanoseconds since the epoch, in the order of the paths. A path stands in it
once, however it is spelled. The digest hashes what the fingerprint says, each
entry as the bytes of its path, a zero byte, and eight bytes of time.
-/

namespace GraphSchema

/-- The times of files, ordered by path. -/
structure Fingerprint where
  entries : List (String × UInt64)
deriving DecidableEq, Inhabited, Repr

namespace Fingerprint

/-- The fingerprint of no files. -/
def empty : Fingerprint := ⟨[]⟩

/-- Puts a time under a path, in its place. Where the path is known,
`respell known new` says which spelling stays. -/
def insertEntry (respell : String → String → String) (path : String) (time : UInt64) :
    List (String × UInt64) → List (String × UInt64)
  | [] => [(path, time)]
  | (p, t) :: r =>
      match Path.compare path p with
      | .lt => (path, time) :: (p, t) :: r
      | .eq => (respell p path, time) :: r
      | .gt => (p, t) :: insertEntry respell path time r

/-- Records the time of a file. A path that is known keeps its spelling. -/
def insert (f : Fingerprint) (path : String) (time : UInt64) : Fingerprint :=
  ⟨insertEntry (fun known _ => known) path time f.entries⟩

/-- Records entries one after the other. -/
def insertAll (f : Fingerprint) (entries : List (String × UInt64)) : Fingerprint :=
  entries.foldl (fun f (path, time) => f.insert path time) f

/-- The fingerprint of a list of entries. Of several with one path the last one stands. -/
def ofList (entries : List (String × UInt64)) : Fingerprint :=
  ⟨entries.foldl (fun es (path, time) => insertEntry (fun _ new => new) path time es) []⟩

/-- The paths, in order. -/
def files (f : Fingerprint) : List String := f.entries.map (·.1)

/-- The number of files. -/
def size (f : Fingerprint) : Nat := f.entries.length

/-- Whether there are no files. -/
def isEmpty (f : Fingerprint) : Bool := f.entries.isEmpty

/-- The time of a file. -/
def find? (f : Fingerprint) (path : String) : Option UInt64 :=
  (f.entries.find? fun e => Path.same e.1 path).map (·.2)

/-- Whether two fingerprints say the same of the same files, however these are spelled. -/
def same (f g : Fingerprint) : Bool :=
  f.size == g.size && (f.entries.zip g.entries).all fun (a, b) => Path.same a.1 b.1 && a.2 == b.2

/-- The bytes of a time, lowest first. -/
def timeBytes (time : UInt64) : List UInt8 :=
  (List.range 8).map fun i => UInt8.ofNat (time.toNat / Nat.pow 256 i)

/-- The bytes of an entry. -/
def entryBytes (e : String × UInt64) : List UInt8 :=
  e.1.toUTF8.toList ++ 0 :: timeBytes e.2

/-- The bytes that the digest is made of. -/
def digestBytes (f : Fingerprint) : List UInt8 := f.entries.flatMap entryBytes

/-- The digest of a fingerprint. -/
def digest (f : Fingerprint) : String := Sha256.hexDigest f.digestBytes

/-- The stored form of a fingerprint. -/
def toJson (f : Fingerprint) : Json :=
  .object (f.entries.map fun (path, time) => (path, .natural time.toNat))

/-- The fingerprint that a value stores: an object of paths and times of 64 bits. -/
def ofJson? (j : Json) : Option Fingerprint := do
  let entries ← (← j.object?).mapM fun (path, v) => do
    return (path, UInt64.ofNat (← v.naturalBelow? UInt64.size))
  return empty.insertAll entries

end Fingerprint

end GraphSchema
