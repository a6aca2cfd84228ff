import CoreReuse.Index.Key
import CoreReuse.Index.Kind
import CoreReuse.Matching.Work
import CoreReuse.Random.Sample

/-!
One level of an index: the keys that a flat kind computes from hashes, and the positions that it
offers for a key among the keys that values were filed under. A bloom level files a value under the
bits of its clause hashes and looks up with the complement of the query's bits, so a value is left
out only if it has a bit that the query has not.
-/

namespace CoreReuse

def wholeDigest (hashes : List UInt64) : UInt64 :=
  Hash.combine (hashes.mergeSort (· ≤ ·))

namespace FlatKind

def coreKey (k : FlatKind) (h : Hasher) (core : ClauseSet) : Key × Hasher :=
  match k with
  | bloom nbits =>
    let (hashes, h) := h.hashAll core.clauses
    (.bits (Bits.ofHashes nbits hashes), h)
  | _ => (.flat, h)

def queryKey {π : Type} (k : FlatKind) (query : ClauseSet) : Search π Key :=
  match k with
  | list => return .flat
  | random _ => return .digest (wholeDigest (← Search.queryHashes query))
  | bloom nbits =>
    return .bits (Bits.ofHashes nbits (← Search.queryHashes query)).complement

/-- The key that finds what a query with the clauses of a core would find, from the core's key. -/
def lookupKey (k : FlatKind) (key : Key) : Key :=
  match k with
  | bloom nbits =>
    match key.bits? nbits.toNat with
    | some bs => .bits bs.complement
    | none => .flat
  | _ => key

def filed (k : FlatKind) (key : Key) : Key :=
  match k with
  | bloom nbits => .bits ((key.bits? nbits.toNat).getD (.empty nbits.toNat))
  | _ => .flat

def sampleSeed (seed : UInt64) : Key → UInt64
  | .digest hash => seed ^^^ hash
  | _ => seed

def select (k : FlatKind) (seed : UInt64) (key : Key) (filedUnder : List Key) : List Nat :=
  match k with
  | list => List.range filedUnder.length
  | random candidates =>
    Sample.positions candidates.toNat filedUnder.length (Generator.ofSeed (sampleSeed seed key))
  | bloom nbits =>
    match key.bits? nbits.toNat with
    | none => List.range filedUnder.length
    | some missing =>
      filedUnder.zipIdx.filterMap fun (stored, i) =>
        match stored with
        | .bits bs => if missing.disjoint bs then some i else none
        | _ => some i

variable {α : Type}

def file (k : FlatKind) (key : Key) (value : α) (entries : List (Key × α)) : List (Key × α) :=
  entries ++ [(k.filed key, value)]

def selectAmong (k : FlatKind) (seed : UInt64) (key : Key) (entries : List (Key × α)) : List Nat :=
  k.select seed key (entries.map (·.1))

def offered (k : FlatKind) (seed : UInt64) (key : Key) (entries : List (Key × α)) : List α :=
  let values := (entries.map (·.2)).toArray
  (k.selectAmong seed key entries).filterMap fun i => values[i]?

end FlatKind

end CoreReuse
