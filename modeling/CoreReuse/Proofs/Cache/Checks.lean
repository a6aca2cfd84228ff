import CoreReuse.Cache.Built
import CoreReuse.Proofs.Cache.Rounds

namespace CoreReuse

open Hash Search PollSource

variable {π : Type} [PollSource π] {V : Vocabulary} {m : Option Nat} {core query : ClauseSet}
variable {cores : List ClauseSet}

namespace IndexedCache

variable {c : IndexedCache}

structure Holds (V : Vocabulary) (m : Option Nat) (c : IndexedCache) (cores : List ClauseSet) :
    Prop where
  hasher : c.core.Sound V m
  valid : ∀ l ∈ c.index.outermost :: c.index.inner, l.validate = .ok ()
  filed : Store.Filed m c.index.outermost c.index.inner c.index.store
  atMost : Store.AtMost cores.length c.index.inner c.index.store
  contents : ∀ core, core ∈ Store.contents c.index.inner c.index.store ↔ core ∈ cores
  built : ∀ core ∈ cores, ∀ t ∈ core.clauses, t ∈ V

omit [PollSource π] in
theorem Holds.of_index_eq {c' : IndexedCache} (h : c.Holds V m cores) (hi : c'.index = c.index)
    (hs : c'.core.Sound V m) : c'.Holds V m cores := by
  refine ⟨hs, ?_, ?_, ?_, ?_, h.built⟩ <;> rw [hi]
  · exact h.valid
  · exact h.filed
  · exact h.atMost
  · exact h.contents

theorem index_add (c : IndexedCache) (core : ClauseSet) :
    (c.add core).1.index = c.index.insert (c.index.coreKey c.core core).1 core := by
  unfold add index
  rw [c.proposer.forwards_index.coreKey_eq]
  exact c.proposer.index_insert _ _

theorem core_add (c : IndexedCache) (core : ClauseSet) :
    (c.add core).1.core = (c.index.coreKey c.core core).2 := by
  unfold add index
  rw [c.proposer.forwards_index.coreKey_eq]
  rfl

theorem begin_eq (c : IndexedCache) (query : ClauseSet) :
    (c.begin query : Search π Key) = Search.poll >>= fun _ => c.index.queryKey query := by
  unfold begin
  rw [c.proposer.forwards_index.queryKey_eq]
  rfl

theorem check_eq_index (c : IndexedCache) (query : ClauseSet) (source : π) :
    c.check query source =
      match (c.begin query).run (.start c.core source) with
      | (.error e, w) => { answer := .error e, cache := c, source := w.source }
      | (.ok key, w) =>
        let r := testAll c.tester query (c.index.candidates key) 0 w
        { answer := r.answer.map Option.isSome
          cache := c.afterRound r
          source := r.work.source
          events := r.work.events ++ c.roundEvents r } := by
  unfold check index
  simp only [c.proposer.forwards_index.candidates_eq]
  rfl

omit [PollSource π] in
theorem index_afterRound (c : IndexedCache) (r : Round π) : (c.afterRound r).index = c.index :=
  c.proposer.index_drop r.consumed

theorem Holds.add (h : c.Holds V m cores) (hc : ∀ t ∈ core.clauses, t ∈ V) :
    (c.add core).1.Holds V m (cores ++ [core]) := by
  obtain ⟨hkey, hs⟩ := Store.coreKey_sound c.index.outermost c.index.inner h.hasher hc
  have hindex : (c.add core).1.index = c.index.insert
      (Store.keyOf c.index.outermost c.index.inner (core.hashes m)) core := by
    rw [index_add, ← hkey]
    rfl
  refine ⟨c.core_add core ▸ hs, ?_, ?_, ?_, fun d => ?_, ?_⟩
  · rw [hindex]
    exact h.valid
  · rw [hindex]
    exact h.filed.insert h.valid
  · rw [hindex, List.length_append]
    exact h.atMost.insert
  · rw [hindex]
    refine (Store.mem_contents_insert h.filed).trans ?_
    rw [h.contents, List.mem_append, List.mem_singleton, or_comm]
  · intro d hd
    rcases List.mem_append.mp hd with hd | hd
    · exact h.built d hd
    · exact List.mem_singleton.mp hd ▸ hc

theorem begin_yields (hq : ∀ q ∈ query.clauses, q ∈ V) :
    Yields V m query (c.begin query : Search π Key)
      (· = Store.queryKeyOf c.index.outermost c.index.inner (query.hashes m)) := by
  rw [begin_eq]
  exact (computes_poll.bind (Store.computes_queryKey hq)).yields

theorem check_cases (hq : ∀ q ∈ query.clauses, q ∈ V) (h : c.core.Sound V m) (source : π) :
    (¬ Quiet source ∧ (c.check query source).cache = c ∧
      (c.check query source).answer = .error .interrupted) ∨
    ∃ w : Work π, w.Sound V m query ∧ (Quiet source → Quiet w.source) ∧
      let r := testAll c.tester query (c.index.candidates
        (Store.queryKeyOf c.index.outermost c.index.inner (query.hashes m))) 0 w
      (c.check query source).cache = c.afterRound r ∧
        (c.check query source).answer = r.answer.map Option.isSome := by
  have hw := Work.sound_start query h source
  obtain ⟨key, n, hn, rfl⟩ := begin_yields (π := π) (c := c) (m := m) hq
  have hs := (hn _ hw).2.1
  have hquiet := hn.quiet hw
  have hok := hn.ok_of_quiet hw
  rw [check_eq_index]
  rcases hr : (c.begin query).run (.start c.core source) with ⟨e | key, w⟩ <;> rw [hr] at hs hquiet hok
  · refine .inl ⟨fun hsource => ?_, rfl, ?_⟩
    · cases hok hsource
    · cases e
      rfl
  · obtain rfl := (hn.eq_of_ok hw hr).1
    exact .inr ⟨w, hs, hquiet, rfl, rfl⟩

theorem check_unchanged (c : IndexedCache) (query : ClauseSet) (source : π) :
    (c.check query source).cache.index = c.index ∧ (c.check query source).cache.tester = c.tester := by
  unfold check
  split
  · exact ⟨rfl, rfl⟩
  · exact ⟨c.index_afterRound _, rfl⟩

theorem Holds.candidates (h : c.Holds V m cores) (key : Key) :
    ∀ core ∈ c.index.candidates key, core ∈ cores :=
  fun core hc => (h.contents core).mp (Store.mem_contents_of_mem_candidates hc)

omit [PollSource π] in
theorem Holds.afterRound {r : Round π} (h : c.Holds V m cores) (hr : r.work.Sound V m query) :
    (c.afterRound r).Holds V m cores :=
  h.of_index_eq (c.index_afterRound r) hr.coreAfter

omit [PollSource π] in
theorem exists_of_map_isSome {r : Round π} {b : Bool} (h : r.answer.map Option.isSome = .ok b) :
    ∃ hit, r.answer = .ok hit ∧ hit.isSome = b := by
  cases hr : r.answer with
  | error e =>
    rw [hr] at h
    cases h
  | ok hit =>
    rw [hr] at h
    exact ⟨hit, rfl, Except.ok.inj h⟩

theorem Holds.check (h : c.Holds V m cores) (hq : ∀ q ∈ query.clauses, q ∈ V) (source : π) :
    (c.check query source).cache.Holds V m cores ∧
      (Quiet source → ∃ b, (c.check query source).answer = .ok b) ∧
      ∀ b, (c.check query source).answer = .ok b →
        (b = true → ∃ core ∈ cores, c.tester.Admits core.clauses query.clauses) ∧
        ((c.index.outermost.innermost c.index.inner).OffersAll cores.length →
          (∃ core ∈ cores, c.tester.Admits core.clauses query.clauses) → b = true) := by
  rcases check_cases hq h.hasher source with ⟨hn, hcache, hanswer⟩ | ⟨w, hw, hquiet, hcache, hanswer⟩
  · rw [hcache, hanswer]
    exact ⟨h, fun hsource => absurd hsource hn, nofun⟩
  · have hcand := h.candidates (Store.queryKeyOf c.index.outermost c.index.inner (query.hashes m))
    obtain ⟨h1, h2, h3⟩ := testAll_spec (t := c.tester) (n := 0)
      (fun core hc => h.built core (hcand core hc)) hq hw
    rw [hcache, hanswer]
    refine ⟨h.afterRound h1, fun hsource => ?_, fun b hb => ?_⟩
    · obtain ⟨hit, hhit⟩ := h2 (hquiet hsource)
      exact ⟨hit.isSome, by rw [hhit]; rfl⟩
    · obtain ⟨hit, hhit, rfl⟩ := exists_of_map_isSome hb
      have h4 := h3 hit hhit
      refine ⟨fun ht => ?_, fun hroom ⟨core, hcore, hadm⟩ => h4.mpr ⟨core, ?_, hadm⟩⟩
      · obtain ⟨core, hcore, hadm⟩ := h4.mp ht
        exact ⟨core, hcand core hcore, hadm⟩
      · exact Store.mem_candidates h.filed h.atMost hroom hadm.hashes_subset
          ((h.contents core).mpr hcore)

theorem Holds.overflowed_of_check {k : Nat} (h : c.Holds V (some k) cores) (hk : wordLimit ≤ k + 2)
    (ht : c.tester = .fullOpt) (hq : ∀ q ∈ query.clauses, q ∈ V)
    (hcores : ∀ core ∈ cores, core.clauses ≠ [] ∧ ∀ t ∈ core.clauses, t.height ≤ k + 1) {source : π}
    (hr : (c.check query source).answer = .ok true) :
    (c.check query source).cache.core.overflowed = true := by
  rcases check_cases hq h.hasher source with ⟨-, -, hanswer⟩ | ⟨w, hw, -, hcache, hanswer⟩
  · rw [hanswer] at hr
    cases hr
  · rw [hanswer] at hr
    obtain ⟨hit, hhit, hsome⟩ := exists_of_map_isSome hr
    obtain ⟨core, rfl⟩ := Option.isSome_iff_exists.mp hsome
    obtain ⟨hmem, v, hv, hrun⟩ := exists_run_of_testAll
      (fun core hc => h.built core (h.candidates _ core hc)) hq hw hhit
    have hcore := h.candidates _ core hmem
    have hjoin : c.tester.«matches» core query = (Joining.«matches» core query : Search π Bool) := by
      rw [ht]
      rfl
    rw [hjoin] at hrun
    rw [hcache]
    exact Joining.overflowed_of_matches hv hk (hcores core hcore).1 (h.built core hcore) hq
      (hcores core hcore).2 hrun

end IndexedCache

end CoreReuse
