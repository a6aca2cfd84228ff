import CoreReuse.Buckets
import Mathlib.Data.List.TakeWhile

namespace CoreReuse

abbrev Entry := UInt64 × Nat

def Entry.precedes (e f : Entry) : Bool := e.1 < f.1 || e.1 == f.1 && e.2 ≤ f.2

namespace Entry

variable {e f g : Entry}

theorem precedes_iff : precedes e f = true ↔ e.1 < f.1 ∨ e.1 = f.1 ∧ e.2 ≤ f.2 := by
  simp [precedes]

theorem precedes_trans (h : precedes e f = true) (h' : precedes f g = true) : precedes e g = true := by
  rw [precedes_iff, UInt64.lt_iff_toNat_lt, ← UInt64.toNat_inj] at h h' ⊢
  omega

theorem precedes_total (e f : Entry) : (precedes e f || precedes f e) = true := by
  rw [Bool.or_eq_true, precedes_iff, precedes_iff, UInt64.lt_iff_toNat_lt, UInt64.lt_iff_toNat_lt,
    ← UInt64.toNat_inj, ← UInt64.toNat_inj]
  omega

theorem precedes_antisymm (h : precedes e f = true) (h' : precedes f e = true) : e = f := by
  rw [precedes_iff, UInt64.lt_iff_toNat_lt, ← UInt64.toNat_inj] at h h'
  exact Prod.ext (UInt64.toNat_inj.mp (by omega)) (by omega)

theorem hash_le_of_precedes (h : precedes e f = true) : e.1 ≤ f.1 := by
  rw [precedes_iff, UInt64.lt_iff_toNat_lt, ← UInt64.toNat_inj] at h
  rw [UInt64.le_iff_toNat_le]
  omega

end Entry

structure Listing where
  entries : List Entry
  sorted : entries.Pairwise fun e f => e.precedes f = true

def halve (test : Nat → Bool) (first size : Nat) : Nat :=
  if 1 < size then
    let middle := first + size / 2
    halve test (if test middle then middle else first) (size - size / 2)
  else
    if test first then first + 1 else first
termination_by size

namespace Listing

def ofHashes (hashes : List UInt64) : Listing where
  entries := hashes.zipIdx.mergeSort Entry.precedes
  sorted := @List.pairwise_mergeSort Entry Entry.precedes (fun _ _ _ => Entry.precedes_trans)
    Entry.precedes_total hashes.zipIdx

def start (l : Listing) (hash : UInt64) : Nat :=
  halve (fun i => l.entries[i]?.any (·.1 < hash)) 0 l.entries.length

def get (l : Listing) (hash : UInt64) : List Nat :=
  ((l.entries.drop (l.start hash)).takeWhile (·.1 == hash)).map (·.2)

def contains (l : Listing) (hash : UInt64) : Bool := (l.get hash).head?.isSome

end Listing

theorem halve_eq {test : Nat → Bool} {k : Nat} (ht : ∀ i, test i = decide (i < k)) {first size : Nat}
    (hf : first ≤ k) (hs : k ≤ first + size) : halve test first size = k := by
  fun_induction halve test first size with
  | case1 first size hsize middle ih =>
    simp only [ht, decide_eq_true_eq] at ih ⊢
    split at ih
    · next hmiddle =>
      rw [if_pos hmiddle]
      exact ih (by omega) (by omega)
    · next hmiddle =>
      rw [if_neg hmiddle]
      exact ih hf (by omega)
  | case2 first size hsize hfirst =>
    simp only [ht, decide_eq_true_eq] at hfirst
    omega
  | case3 first size hsize hfirst =>
    simp only [ht, decide_eq_true_eq] at hfirst
    omega

section Prefix

variable {α : Type} {p : α → Bool} {xs : List α}

theorem eq_false_of_head {x : α} (hp : (x :: xs).Pairwise fun y z => p z = true → p y = true)
    (hx : ¬ p x = true) : ∀ y ∈ xs, ¬ p y = true :=
  fun y hy h => hx ((List.pairwise_cons.mp hp).1 y hy h)

theorem takeWhile_eq_filter (hp : xs.Pairwise fun y z => p z = true → p y = true) :
    xs.takeWhile p = xs.filter p := by
  induction xs with
  | nil => rfl
  | cons x xs ih =>
    by_cases hx : p x = true
    · rw [List.takeWhile_cons_of_pos hx, List.filter_cons_of_pos hx, ih (List.pairwise_cons.mp hp).2]
    · rw [List.takeWhile_cons_of_neg hx, List.filter_cons_of_neg hx,
        List.filter_eq_nil_iff.mpr (eq_false_of_head hp hx)]

theorem dropWhile_eq_filter (hp : xs.Pairwise fun y z => p z = true → p y = true) :
    xs.dropWhile p = xs.filter fun x => !p x := by
  induction xs with
  | nil => rfl
  | cons x xs ih =>
    by_cases hx : p x = true
    · rw [List.dropWhile_cons_of_pos hx, List.filter_cons_of_neg (by simp [hx]),
        ih (List.pairwise_cons.mp hp).2]
    · have hxs : ∀ y ∈ x :: xs, (!p y) = true := by
        simpa [hx] using eq_false_of_head hp hx
      rw [List.dropWhile_cons_of_neg hx, List.filter_eq_self.mpr hxs]

theorem any_getElem? (hp : xs.Pairwise fun y z => p z = true → p y = true) (i : Nat) :
    xs[i]?.any p = decide (i < (xs.takeWhile p).length) := by
  induction xs generalizing i with
  | nil => rfl
  | cons x xs ih =>
    by_cases hx : p x = true
    · cases i with
      | zero => simp [hx]
      | succ i => simp [hx, ih (List.pairwise_cons.mp hp).2 i]
    · rw [List.takeWhile_cons_of_neg hx]
      cases h : (x :: xs)[i]? with
      | none => simp
      | some y =>
        rcases List.mem_cons.mp (List.mem_of_getElem? h) with rfl | hy
        · simpa using hx
        · simpa using eq_false_of_head hp hx y hy

end Prefix

namespace Listing

variable {l : Listing} {hash : UInt64}

theorem smaller_first (l : Listing) (hash : UInt64) :
    l.entries.Pairwise fun e f => decide (f.1 < hash) = true → decide (e.1 < hash) = true := by
  refine l.sorted.imp fun {e f} h hf => ?_
  have hle := Entry.hash_le_of_precedes h
  simp only [decide_eq_true_eq] at hf ⊢
  exact UInt64.lt_of_le_of_lt hle hf

theorem drop_start (l : Listing) (hash : UInt64) :
    l.entries.drop (l.start hash) = l.entries.filter fun e => !decide (e.1 < hash) := by
  have hp := l.smaller_first hash
  have hlen : (l.entries.takeWhile (·.1 < hash)).length ≤ 0 + l.entries.length := by
    simpa using (List.takeWhile_prefix _).length_le
  have hstart : l.start hash = (l.entries.takeWhile (·.1 < hash)).length :=
    halve_eq (any_getElem? hp) (Nat.zero_le _) hlen
  calc l.entries.drop (l.start hash)
      = (l.entries.takeWhile (·.1 < hash) ++ l.entries.dropWhile (·.1 < hash)).drop
          (l.entries.takeWhile (·.1 < hash)).length := by rw [List.takeWhile_append_dropWhile, hstart]
    _ = l.entries.dropWhile (·.1 < hash) := List.drop_left
    _ = l.entries.filter fun e => !decide (e.1 < hash) := dropWhile_eq_filter hp

theorem run_first (l : Listing) (hash : UInt64) :
    (l.entries.filter fun e => !decide (e.1 < hash)).Pairwise fun e f =>
      (f.1 == hash) = true → (e.1 == hash) = true := by
  refine (l.sorted.filter _).imp_of_mem fun {e f} he _ h hf => ?_
  have hle := Entry.hash_le_of_precedes h
  have hge := (List.mem_filter.mp he).2
  simp only [Bool.not_eq_true', decide_eq_false_iff_not, UInt64.not_lt, beq_iff_eq] at hge hf ⊢
  exact UInt64.le_antisymm (hf ▸ hle) hge

theorem get_eq_filter (l : Listing) (hash : UInt64) :
    l.get hash = (l.entries.filter (·.1 == hash)).map (·.2) := by
  have hrun : ∀ e ∈ l.entries, ((e.1 == hash) && !decide (e.1 < hash)) = (e.1 == hash) := by
    intro e _
    cases h : e.1 == hash with
    | false => rfl
    | true => simp [beq_iff_eq.mp h]
  rw [get, drop_start, takeWhile_eq_filter (l.run_first hash), List.filter_filter,
    List.filter_congr hrun]

theorem positions_increase (hashes : List UInt64) : hashes.zipIdx.Pairwise fun e f => e.2 < f.2 := by
  have h : (hashes.zipIdx.map (·.2)).Pairwise (· < ·) := by
    rw [List.zipIdx_map_snd]
    exact List.pairwise_lt_range'
  exact List.pairwise_map.mp h

theorem filter_ofHashes (hashes : List UInt64) (hash : UInt64) :
    (ofHashes hashes).entries.filter (·.1 == hash) = hashes.zipIdx.filter (·.1 == hash) := by
  -- The entries of one hash are in order as they were listed, and there is only one way to order them.
  have hperm : (ofHashes hashes).entries.Perm hashes.zipIdx := List.mergeSort_perm _ _
  have hsorted := (ofHashes hashes).sorted.filter (·.1 == hash)
  have hlisted : (hashes.zipIdx.filter (·.1 == hash)).Pairwise fun e f => Entry.precedes e f = true := by
    refine ((positions_increase hashes).filter _).imp_of_mem fun {e f} he hf h => ?_
    have he := (List.mem_filter.mp he).2
    have hf := (List.mem_filter.mp hf).2
    rw [beq_iff_eq] at he hf
    exact Entry.precedes_iff.mpr (.inr ⟨he.trans hf.symm, Nat.le_of_lt h⟩)
  exact List.Perm.eq_of_pairwise (fun _ _ _ _ => Entry.precedes_antisymm) hsorted hlisted
    (hperm.filter _)

theorem get_ofHashes (hashes : List UInt64) (hash : UInt64) :
    (ofHashes hashes).get hash = (Buckets.ofHashes hashes).get hash := by
  rw [get_eq_filter, filter_ofHashes, Buckets.get_ofHashes]

end Listing

namespace Buckets

theorem pairwise_get_ofHashes (hashes : List UInt64) (hash : UInt64) :
    ((ofHashes hashes).get hash).Pairwise (· < ·) := by
  rw [get_ofHashes, List.pairwise_map]
  exact (Listing.positions_increase hashes).filter _

theorem get_exactly (hashes : List UInt64) (hash : UInt64) :
    let table := ofHashes hashes
    let listing := Listing.ofHashes hashes
    (∀ i : Nat, i ∈ table.get hash ↔ hashes[i]? = some hash) ∧ (table.get hash).Pairwise (· < ·) ∧
      (table.contains hash = true ↔ ∃ i : Nat, hashes[i]? = some hash) ∧
      listing.get hash = table.get hash ∧ listing.contains hash = table.contains hash := by
  intro table listing
  have hget : listing.get hash = table.get hash := Listing.get_ofHashes hashes hash
  refine ⟨fun i => mem_get_ofHashes, pairwise_get_ofHashes hashes hash, ?_, hget, ?_⟩
  · simp only [table, contains_iff, mem_get_ofHashes]
  · rw [Listing.contains, hget, contains]
    cases table.get hash <;> rfl

end Buckets

end CoreReuse
