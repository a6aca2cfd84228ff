import Std.Data.TreeMap

namespace CoreReuse

structure Buckets where
  positions : Std.TreeMap UInt64 (List Nat)

namespace Buckets

def put (e : UInt64 × Nat) (b : Buckets) : Buckets :=
  ⟨b.positions.insert e.1 (e.2 :: b.positions.getD e.1 [])⟩

def ofHashes (hashes : List UInt64) : Buckets := hashes.zipIdx.foldr put ⟨∅⟩

def get (b : Buckets) (hash : UInt64) : List Nat := b.positions.getD hash []

def contains (b : Buckets) (hash : UInt64) : Bool := !(b.get hash).isEmpty

theorem get_put (e : UInt64 × Nat) (b : Buckets) (hash : UInt64) :
    (put e b).get hash = if e.1 = hash then e.2 :: b.get hash else b.get hash := by
  simp only [put, get, Std.TreeMap.getD_insert, Std.LawfulEqCmp.compare_eq_iff_eq]
  split
  · next h => rw [h]
  · rfl

theorem get_foldr_put (es : List (UInt64 × Nat)) (hash : UInt64) :
    (es.foldr put ⟨∅⟩).get hash = (es.filter (·.1 == hash)).map (·.2) := by
  induction es with
  | nil => simp [get]
  | cons e es ih =>
    rw [List.foldr_cons, get_put, ih, List.filter_cons]
    by_cases h : e.1 = hash <;> simp [h]

theorem get_ofHashes (hashes : List UInt64) (hash : UInt64) :
    (ofHashes hashes).get hash = (hashes.zipIdx.filter (·.1 == hash)).map (·.2) :=
  get_foldr_put _ _

theorem mem_get_ofHashes {hashes : List UInt64} {hash : UInt64} {i : Nat} :
    i ∈ (ofHashes hashes).get hash ↔ hashes[i]? = some hash := by
  simp only [get_ofHashes, List.mem_map, List.mem_filter, beq_iff_eq, Prod.exists,
    List.mem_zipIdx_iff_getElem?]
  constructor
  · rintro ⟨x, j, ⟨hj, rfl⟩, rfl⟩
    exact hj
  · intro hi
    exact ⟨hash, i, ⟨hi, rfl⟩, rfl⟩

theorem contains_iff {b : Buckets} {hash : UInt64} : b.contains hash = true ↔ ∃ i, i ∈ b.get hash := by
  cases h : b.get hash <;> simp [contains, h]

end Buckets

end CoreReuse
