import CoreReuse.Proofs.Matching.Composed
import CoreReuse.Proofs.Matching.Joining

namespace CoreReuse

variable {π α β : Type}

structure Work.Grows (v w : Work π) : Prop where
  core : v.core.Grows w.core
  query : v.query.Grows w.query

namespace Work.Grows

variable {u v w : Work π}

theorem refl (w : Work π) : w.Grows w := ⟨.refl _, .refl _⟩

theorem trans (h : u.Grows v) (h' : v.Grows w) : u.Grows w :=
  ⟨h.core.trans h'.core, h.query.trans h'.query⟩

theorem overflowed (h : v.Grows w) (hv : v.core.overflowed = true) :
    w.coreAfter.overflowed = true := by
  rw [coreAfter, h.core.overflowed hv]
  rfl

end Work.Grows

namespace Search

def Keeps (s : Search π α) : Prop := ∀ w : Work π, w.Grows (s.run w).2

theorem keeps_pure (a : α) : Keeps (pure a : Search π α) := fun w => .refl w

theorem Keeps.bind {s : Search π α} {f : α → Search π β} (hs : Keeps s) (hf : ∀ a, Keeps (f a)) :
    Keeps (s >>= f) := by
  intro w
  have hw := hs w
  rw [run_bind]
  rcases hr : s.run w with ⟨e | a, w'⟩ <;> rw [hr] at hw
  · exact hw
  · exact hw.trans (hf a w')

theorem keeps_poll [PollSource π] : Keeps (poll : Search π Unit) := by
  intro w
  simp only [poll, run_bind, run_get, run_set]
  split
  · exact ⟨.refl _, .refl _⟩
  · exact ⟨.refl _, .refl _⟩

theorem keeps_emit (e : Trace.Event) : Keeps (emit e : Search π Unit) :=
  fun _ => ⟨.refl _, .refl _⟩

theorem keeps_hashCore (t : Term) : Keeps (hashCore t : Search π UInt64) :=
  fun w => ⟨Hasher.hash_grows w.core t, .refl _⟩

theorem keeps_unify (r : Renaming) (l t : Term) : Keeps (unify r l t : Search π (Option Renaming)) :=
  fun w =>
    have hg := (Unifier.unify_follows (s := {}) (u := ⟨r, true, w.core, w.query⟩) l t).grows
    ⟨hg.left, hg.right⟩

theorem keeps_queryHashes (query : ClauseSet) :
    Keeps (queryHashes query : Search π (List UInt64)) := by
  intro w
  cases hh : w.hashes with
  | some hs =>
    rw [run_queryHashes_of_some hh]
    exact .refl w
  | none =>
    rw [run_queryHashes_of_none hh]
    exact ⟨.refl _, Hasher.hashAll_grows _ _⟩

theorem keeps_queryBuckets (query : ClauseSet) : Keeps (queryBuckets query : Search π Buckets) := by
  apply (keeps_queryHashes query).bind
  intro hashes w
  cases hb : w.buckets with
  | some bs =>
    simp only [run_bind, run_get, run_pure, hb]
    exact .refl w
  | none =>
    simp only [run_bind, run_get, run_modify, run_pure, hb]
    exact ⟨.refl _, .refl _⟩

theorem composes_keeps [PollSource π] (query : ClauseSet) :
    Composes (fun _ => True) query fun _ (s : Search π _) => Keeps s where
  pure := keeps_pure
  bind := Keeps.bind
  poll := keeps_poll
  emit := keeps_emit
  hashCore _ := keeps_hashCore _
  queryHashes := keeps_queryHashes query
  queryBuckets := keeps_queryBuckets query
  unify _ _ := keeps_unify _ _ _

theorem run_hashCore_bind (t : Term) (f : UInt64 → Search π α) (w : Work π) :
    (hashCore t >>= f).run w = (f (w.core.hash t).1).run { w with core := (w.core.hash t).2 } := rfl

theorem run_bind_ok {s : Search π α} {f : α → Search π β} {w w' : Work π} {b : β}
    (h : (s >>= f).run w = (.ok b, w')) : ∃ a v, s.run w = (.ok a, v) ∧ (f a).run v = (.ok b, w') := by
  rw [run_bind] at h
  rcases hr : s.run w with ⟨e | a, v⟩ <;> rw [hr] at h
  · cases h
  · exact ⟨a, v, rfl, h⟩

end Search

namespace Joining

open Search

variable [PollSource π]

theorem exists_collect_cons_eq (buckets : Buckets) (query : ClauseSet) (c : Term) (cs : List Term)
    (targets : Targets) :
    ∃ f : UInt64 → Search π (Option (List (List Renaming) × Targets)), (∀ hash, Keeps (f hash)) ∧
      collect buckets query (c :: cs) targets = hashCore c >>= f := by
  have h := composes_keeps (π := π) query
  refine ⟨_, fun hash => ?_, rfl⟩
  apply (renamingsTo_composed h trivial (fun _ _ => trivial) []).bind
  intro found
  split
  · exact keeps_pure none
  · split
    · exact keeps_pure none
    · next after _ =>
      apply (collect_composed h (fun _ _ => trivial) (fun _ _ => trivial) after).bind
      rintro (_ | ⟨sets, targets⟩)
      · exact keeps_pure none
      · exact keeps_pure _

variable {V : Vocabulary} {m : Option Nat} {core query : ClauseSet} {c : Term} {cs : List Term}
variable {w w' : Work π}

theorem remembered_of_covered {buckets : Buckets} {b : Bool} (hw : w.Sound V m query) (hc : c ∈ V)
    (hh : Hash.Whole m 1 c.height) (hr : (covered buckets (c :: cs)).run w = (.ok b, w')) :
    (w'.core.memo[c.node]?).isSome := by
  rw [covered, run_hashCore_bind] at hr
  have hk : Keeps (if buckets.contains (w.core.hash c).1 then covered buckets cs else return false :
      Search π Bool) := by
    split
    · exact covered_composed (composes_keeps query) fun _ _ => trivial
    · exact keeps_pure false
  have hg := hk { w with core := (w.core.hash c).2 }
  rw [hr] at hg
  exact hg.core.memo _ (Hasher.remembered_hash hw.core hc hh)

theorem overflowed_of_collect {buckets : Buckets} {targets : Targets} {k : Nat}
    {out : Option (List (List Renaming) × Targets)} (hm : w.core.maxHeight = some k)
    (hk : wordLimit ≤ k + 2) (hc : (w.core.memo[c.node]?).isSome)
    (hr : (collect buckets query (c :: cs) targets).run w = (.ok out, w')) :
    w'.core.overflowed = true := by
  obtain ⟨f, hf, he⟩ := exists_collect_cons_eq (π := π) buckets query c cs targets
  rw [he, run_hashCore_bind] at hr
  have hg := hf (w.core.hash c).1 { w with core := (w.core.hash c).2 }
  rw [hr] at hg
  exact hg.core.overflowed (Hasher.overflowed_of_remembered hm hk hc)

theorem overflowed_of_matchClauses {k : Nat} (hw : w.Sound V (some k) query)
    (hk : wordLimit ≤ k + 2) (hc : ∀ t ∈ c :: cs, t ∈ V) (hq : ∀ q ∈ query.clauses, q ∈ V)
    (hh : c.height ≤ k + 1) (hr : (matchClauses (c :: cs) query).run w = (.ok true, w')) :
    w'.coreAfter.overflowed = true := by
  have hcV := hc c List.mem_cons_self
  have hwhole : Hash.Whole (some k) 1 c.height := by
    rintro b ⟨⟩
    omega
  obtain ⟨buckets, w1, h1, hr⟩ := run_bind_ok hr
  obtain ⟨rfl, hw1⟩ := (computes_queryBuckets hq).eq_of_ok hw h1
  obtain ⟨b, w2, h2, hr⟩ := run_bind_ok hr
  obtain ⟨_, n, hcov, -⟩ : Yields V (some k) query
    (covered (.ofQuery (some k) query) (c :: cs) : Search π Bool) _ := covered_yields hc
  obtain ⟨-, hw2⟩ := hcov.eq_of_ok hw1 h2
  -- The first pass hashed the first clause, so collecting hashes a node that is remembered.
  have hmem := remembered_of_covered hw1 hcV hwhole h2
  cases b with
  | false => cases hr
  | true =>
    obtain ⟨out, w3, h3, hr⟩ := run_bind_ok hr
    have ho := overflowed_of_collect hw2.core.maxHeight_eq hk hmem h3
    suffices hg : w3.Grows w' from hg.overflowed ho
    cases out with
    | none => cases hr
    | some found =>
      obtain ⟨sets, targets⟩ := found
      dsimp only at hr
      split at hr
      · cases hr
      · have hg := joinAll_composed (composes_keeps (π := π) query)
          (.ofSets (sets.map fun set => set.filter targets.allows)) w3
        rw [hr] at hg
        exact hg

theorem overflowed_of_matches {k : Nat} (hw : w.Sound V (some k) query) (hk : wordLimit ≤ k + 2)
    (hne : core.clauses ≠ []) (hc : ∀ c ∈ core.clauses, c ∈ V) (hq : ∀ q ∈ query.clauses, q ∈ V)
    (hh : ∀ c ∈ core.clauses, c.height ≤ k + 1)
    (hr : («matches» core query).run w = (.ok true, w')) : w'.coreAfter.overflowed = true := by
  obtain ⟨c, cs, hcs⟩ := List.exists_cons_of_ne_nil hne
  have he : core.isEmpty = false := by simp [ClauseSet.isEmpty, hcs]
  rw [«matches», he, if_neg Bool.false_ne_true, hcs] at hr
  rw [hcs] at hc hh
  exact overflowed_of_matchClauses hw hk hc hq (hh c List.mem_cons_self) hr

end Joining

end CoreReuse
