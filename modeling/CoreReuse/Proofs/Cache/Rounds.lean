import CoreReuse.Cache.Indexed
import CoreReuse.Proofs.Index.Stores
import CoreReuse.Proofs.Matching.Renamed

namespace CoreReuse

open Hash Search PollSource

variable {π : Type} [PollSource π] {V : Vocabulary} {m : Option Nat} {core query : ClauseSet}
variable {t : Tester}

def Tester.Admits (t : Tester) (core query : List Term) : Prop :=
  match t with
  | simple => ∀ c ∈ core, ∃ q ∈ query, (q == c) = true
  | _ => ∃ τ, Embeds τ core query

theorem Tester.yields (hc : ∀ c ∈ core.clauses, c ∈ V) (hq : ∀ q ∈ query.clauses, q ∈ V) :
    Yields V m query (t.«matches» core query : Search π Bool) fun b =>
      b = true ↔ t.Admits core.clauses query.clauses := by
  cases t with
  | simple => exact Verbatim.matchClauses_yields core.clauses
  | full => exact Assignment.matches_yields hc hq
  | fullOpt => exact Joining.matches_yields hc hq

theorem Tester.Renames.admits_iff (ht : t.Renames) (core query : List Term) :
    t.Admits core query ↔ ∃ τ, Embeds τ core query := by
  rcases ht with rfl | rfl
  · exact Iff.rfl
  · exact Iff.rfl

theorem Tester.Admits.embeds {core query : List Term} (h : t.Admits core query) :
    ∃ τ, Embeds τ core query := by
  cases t with
  | simple => exact ⟨_, (renames_identity h).embeds⟩
  | full => exact h
  | fullOpt => exact h

theorem Tester.Admits.hashes_subset (h : t.Admits core.clauses query.clauses) :
    core.hashes m ⊆ query.hashes m := by
  obtain ⟨τ, he⟩ := h.embeds
  intro x hx
  obtain ⟨c, hc, rfl⟩ := List.mem_map.mp hx
  obtain ⟨q, hq, hcq⟩ := he c hc
  exact List.mem_map.mpr ⟨q, hq, (hcq.structural_eq m).symm⟩

namespace IndexedCache

theorem test_yields (hc : ∀ c ∈ core.clauses, c ∈ V) (hq : ∀ q ∈ query.clauses, q ∈ V) :
    Yields V m query (test t query core : Search π Bool) fun b =>
      b = true ↔ t.Admits core.clauses query.clauses :=
  computes_poll.yields.bind fun _ _ => Tester.yields hc hq

variable {w : Work π} {cores : List ClauseSet} {n : Nat}

theorem testAll_spec (hc : ∀ core ∈ cores, ∀ c ∈ core.clauses, c ∈ V) (hq : ∀ q ∈ query.clauses, q ∈ V)
    (hw : w.Sound V m query) :
    (testAll t query cores n w).work.Sound V m query ∧
      (Quiet w.source → ∃ hit, (testAll t query cores n w).answer = .ok hit) ∧
      ∀ hit, (testAll t query cores n w).answer = .ok hit →
        (hit.isSome = true ↔ ∃ core ∈ cores, t.Admits core.clauses query.clauses) := by
  induction cores generalizing n w with
  | nil =>
    refine ⟨hw, fun _ => ⟨none, rfl⟩, ?_⟩
    rintro _ ⟨⟩
    simp
  | cons core cores ih =>
    obtain ⟨hcore, hcores⟩ := List.forall_mem_cons.mp hc
    obtain ⟨b, k, hk, hb⟩ := test_yields (π := π) (t := t) (m := m) hcore hq
    have hs := (hk w hw).2.1
    have hquiet := hk.quiet hw
    have hok := hk.ok_of_quiet hw
    have heq : ∀ a v, (test t query core).run w = (.ok a, v) → a = b :=
      fun a v h => (hk.eq_of_ok hw h).1
    simp only [testAll, List.mem_cons, exists_eq_or_imp, ← hb]
    rcases hr : (test t query core).run w with ⟨e | a, v⟩ <;> rw [hr] at hs hquiet hok
    · refine ⟨hs, fun hsource => ?_, nofun⟩
      cases hok hsource
    · obtain rfl := heq a v hr
      cases a with
      | true =>
        refine ⟨hs, fun _ => ⟨_, rfl⟩, ?_⟩
        rintro _ ⟨⟩
        simp
      | false =>
        obtain ⟨h1, h2, h3⟩ := ih (n := n + 1) hcores hs
        refine ⟨h1, fun hsource => h2 (hquiet hsource), fun hit hhit => ?_⟩
        simpa using h3 hit hhit

theorem exists_run_of_testAll (hc : ∀ core ∈ cores, ∀ c ∈ core.clauses, c ∈ V)
    (hq : ∀ q ∈ query.clauses, q ∈ V) (hw : w.Sound V m query)
    (h : (testAll t query cores n w).answer = .ok (some core)) :
    core ∈ cores ∧ ∃ v : Work π, v.Sound V m query ∧
      (t.«matches» core query).run v = (.ok true, (testAll t query cores n w).work) := by
  induction cores generalizing n w with
  | nil => cases h
  | cons d cores ih =>
    obtain ⟨hd, hcores⟩ := List.forall_mem_cons.mp hc
    obtain ⟨b, k, hk, -⟩ := test_yields (π := π) (t := t) (m := m) hd hq
    have hs := (hk w hw).2.1
    rw [testAll] at h ⊢
    rcases hr : (test t query d).run w with ⟨e | _ | _, v⟩ <;> rw [hr] at h hs
    · cases h
    · obtain ⟨h1, h2⟩ := ih hcores hs h
      exact ⟨List.mem_cons_of_mem d h1, h2⟩
    · cases h
      obtain ⟨_, v', h1, h2⟩ := run_bind_ok hr
      exact ⟨List.mem_cons_self, v', (computes_poll.eq_of_ok hw h1).2, h2⟩

end IndexedCache

end CoreReuse
