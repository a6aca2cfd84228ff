import CoreReuse.Proofs.Pipeline.Runs
import CoreReuse.Proofs.Workload.Generation
import Mathlib.Data.Finset.Card

namespace CoreReuse

open PollSource

variable {V : Vocabulary} {c : Config} {p : Pipeline Cache}

namespace Workload

theorem foldl_succ (cs : List Term) (n : Nat) : cs.foldl (fun n _ => n + 1) n = n + cs.length := by
  induction cs generalizing n with
  | nil => rfl
  | cons c cs ih => rw [List.foldl_cons, ih, List.length_cons, Nat.add_right_comm, Nat.add_assoc]

theorem scriptedSolver_verdict {core query : ClauseSet} (h : core.size ≤ query.size) (timeout : UInt64) :
    (scriptedSolver core).verdict query timeout = (.unsat, query.size) := by
  have hcount : query.clauses.foldl (scriptedSolver core).assertClause (scriptedSolver core).start =
      query.size := (foldl_succ query.clauses 0).trans (Nat.zero_add _)
  rw [Solver.verdict, hcount]
  exact congrArg (·, query.size) (if_pos h)

def decideAll (now : Nat) : List Made → Pipeline Cache → Tally → Option Tally
  | [], _, t => some t
  | m :: ms, p, t =>
    let d := p.check m.whole now (scriptedSolver m.part)
    if d.pipeline.cache.base.overflowed then none else decideAll now ms d.pipeline (t.count d.result)

theorem decideAll_cons {now : Nat} {m : Made}
    (h : (p.check m.whole now (scriptedSolver m.part)).pipeline.cache.base.overflowed = false) (ms : List Made)
    (t : Tally) :
    decideAll now (m :: ms) p t = decideAll now ms (p.check m.whole now (scriptedSolver m.part)).pipeline
      (t.count (p.check m.whole now (scriptedSolver m.part)).result) := by
  rw [decideAll]
  exact if_neg (by rw [h]; exact Bool.false_ne_true)

theorem run_succ {w rest : Workload} {whole part : ClauseSet} {query : Nat} {n mid : NodeId}
    (h : w.next query n = .ok ((whole, part, rest), mid)) (now k : Nat) (p : Pipeline Cache) (t : Tally) :
    run now (k + 1) query w p t n =
      let d := p.check whole now (scriptedSolver part)
      if d.pipeline.cache.base.overflowed then .ok (none, mid)
      else run now k (query + 1) rest d.pipeline (t.count d.result) mid := by
  rw [run, bind_eq_of_ok h]
  dsimp only
  split
  · rfl
  · rfl

theorem run_eq_decideAll {w : Workload} (hw : 0 < w.families) {k query : Nat} {n stop : NodeId}
    {ms : List Made} (h : make k query w n = .ok (ms, stop)) (now : Nat) (p : Pipeline Cache) (t : Tally) :
    ∃ stop', run now k query w p t n = .ok (decideAll now ms p t, stop') := by
  induction k generalizing w query n ms p t with
  | zero =>
    cases h
    exact ⟨_, rfl⟩
  | succ k ih =>
    obtain ⟨whole, part, random, hnext, -⟩ := next_spec w hw query n
    rw [make_succ hnext] at h
    rw [run_succ hnext]
    cases hrest : make k (query + 1) { w with random } (n + 3 * (w.coreSize + w.noise)) with
    | error e =>
      rw [hrest] at h
      cases h
    | ok r =>
      rw [hrest] at h
      cases h
      simp only [decideAll]
      split
      · exact ⟨_, rfl⟩
      · exact ih (w := { w with random }) hw hrest _ _

structure Served (V : Vocabulary) (c : Config) (p : Pipeline Cache) (seen : List Made) : Prop where
  run : p.Run V c (seen.map Made.part)
  cacheTimeout_eq : p.cacheTimeout = none
  cancellation_eq : p.cancellation = {}

theorem Served.quiet {seen : List Made} (h : Served V c p seen) (now : Nat) :
    Quiet (Watch.mk (p.interrupt now) now) := by
  have hi : p.interrupt now = .none := by
    rw [Pipeline.interrupt, h.cacheTimeout_eq, h.cancellation_eq]
    rfl
  rw [hi]
  exact quiet_none now

theorem Served.check {seen : List Made} {m : Made} (hm : c.mode = .enabled) (h : Served V c p seen)
    (hV : ∀ q ∈ m.whole.clauses, q ∈ V) (hs : m.part.clauses.Sublist m.whole.clauses) (now : Nat) :
    let d := p.check m.whole now (scriptedSolver m.part)
    (d.result = .cachedUnsat ∧ Served V c d.pipeline seen ∧
      ∃ s ∈ seen, c.tester.Admits s.part.clauses m.whole.clauses) ∨
    (d.result = .solverUnsat m.part ∧ Served V c d.pipeline (seen ++ [m]) ∧
      (c.index.innermost.OffersAll seen.length → ∀ s ∈ seen, c.accepts s.part = true →
        ¬ c.tester.Admits s.part.clauses m.whole.clauses)) := by
  intro d
  let source := Watch.mk (p.interrupt now) now
  have hcore : ∀ core, d.result.core? = some core → ∀ t ∈ core.clauses, t ∈ V := by
    intro core hcore
    obtain rfl := Pipeline.eq_unsatCore_of_core? hcore
    exact fun t ht => hV t (hs.subset ht)
  have hrun := h.run.call source (scriptedSolver m.part) hV hcore
  have hset := Pipeline.checkWith_settings p m.whole source (scriptedSolver m.part)
  obtain ⟨hadmits, hfind⟩ := h.run.hit_admits hm hV source (scriptedSolver m.part)
  rcases Pipeline.checkWith_cases p m.whole source (scriptedSolver m.part) with ⟨-, hhit⟩ | ⟨-, hsolved⟩
  · have hr := hhit.result_eq
    rw [hr, PipelineResult.core?_cachedUnsat, Option.toList_none, List.append_nil] at hrun
    obtain ⟨core, hmem, -, hadm⟩ := hadmits hr
    obtain ⟨s, hs, rfl⟩ := List.mem_map.mp hmem
    exact .inl ⟨hr, ⟨hrun, hset.1.trans h.cacheTimeout_eq, hset.2.trans h.cancellation_eq⟩, s, hs, hadm⟩
  · have hr := hsolved.result_eq
    rw [scriptedSolver_verdict hs.length_le] at hr
    have hr : d.result = .solverUnsat m.part := hr
    have hseen : seen.map Made.part ++ d.result.core?.toList = (seen ++ [m]).map Made.part := by
      rw [hr, List.map_append]
      rfl
    refine .inr ⟨hr, ⟨hseen ▸ hrun, hset.1.trans h.cacheTimeout_eq, hset.2.trans h.cancellation_eq⟩,
      fun hroom s hs hacc hadm => ?_⟩
    have hlen : ((seen.map Made.part).filter c.accepts).length ≤ seen.length :=
      (List.length_filter_le _ _).trans_eq (List.length_map _)
    have hcached := hfind (hroom.mono hlen) (h.quiet now) ⟨s.part, List.mem_map_of_mem hs, hacc, hadm⟩
    cases hr.symm.trans hcached

structure Tells (c : Config) (key : Made → Nat) (limit : Nat) (s m : Made) : Prop where
  admits_iff : c.tester.Admits s.part.clauses m.whole.clauses ↔ key s = key m
  offered : key s = key m → c.accepts s.part = true ∧ c.index.innermost.OffersAll limit

def keys (key : Made → Nat) (ms : List Made) : Finset Nat := (ms.map key).toFinset

variable {key : Made → Nat} {limit : Nat} {m : Made} {ms seen : List Made}

theorem mem_keys {k : Nat} : k ∈ keys key ms ↔ ∃ m ∈ ms, key m = k := by
  rw [keys, List.mem_toFinset, List.mem_map]

theorem keys_cons : keys key (m :: ms) = insert (key m) (keys key ms) := by
  rw [keys, List.map_cons, List.toFinset_cons, keys]

theorem keys_concat : keys key (seen ++ [m]) = insert (key m) (keys key seen) := by
  rw [keys, List.map_append, List.toFinset_append, Finset.union_comm]
  rfl

theorem card_insert_sdiff {k : Nat} {s t : Finset Nat} (h : k ∉ t) :
    (insert k s \ t).card = (s \ insert k t).card + 1 := by
  have heq : insert k s \ t = insert k (s \ insert k t) := by
    ext x
    simp only [Finset.mem_sdiff, Finset.mem_insert]
    by_cases hx : x = k
    · simp [hx, h]
    · simp [hx]
  have hk : k ∉ s \ insert k t := by simp
  rw [heq, Finset.card_insert_of_notMem hk]

theorem length_le_of_keys (hn : (seen.map key).Nodup) (hlt : ∀ s ∈ seen, key s < limit) :
    seen.length ≤ limit := by
  have hsub : seen.map key ⊆ List.range limit := by
    intro k hk
    obtain ⟨s, hs, rfl⟩ := List.mem_map.mp hk
    exact List.mem_range.mpr (hlt s hs)
  have hlen := (hn.subperm hsub).length_le
  rwa [List.length_map, List.length_range] at hlen

theorem Served.decideAll (hm : c.mode = .enabled) (hf : V.Fits c.height) (h : Served V c p seen)
    (hV : ∀ m ∈ ms, ∀ q ∈ m.whole.clauses, q ∈ V)
    (hs : ∀ m ∈ ms, m.part.clauses.Sublist m.whole.clauses) (hn : (seen.map key).Nodup)
    (hlt : ∀ m ∈ seen ++ ms, key m < limit) (ht : (seen ++ ms).Pairwise (Tells c key limit)) (now : Nat)
    (t : Tally) :
    ∃ t', Workload.decideAll now ms p t = some t' ∧
      t'.solved = t.solved + (keys key ms \ keys key seen).card ∧
      t'.hits + t'.solved = t.hits + t.solved + ms.length := by
  -- What is left of the workload shrinks; the cores that are stored keep having different keys.
  induction ms generalizing p seen t with
  | nil => exact ⟨t, rfl, by simp [keys], rfl⟩
  | cons m ms ih =>
    obtain ⟨hVm, hV⟩ := List.forall_mem_cons.mp hV
    obtain ⟨hsm, hs⟩ := List.forall_mem_cons.mp hs
    have htell : ∀ s ∈ seen, Tells c key limit s m :=
      fun s hs => (List.pairwise_append.mp ht).2.2 s hs m List.mem_cons_self
    rcases h.check hm hVm hsm now with ⟨hr, hserved, s, hs', hadm⟩ | ⟨hr, hserved, hnone⟩
    · have hold : key m ∈ keys key seen := mem_keys.mpr ⟨s, hs', (htell s hs').admits_iff.mp hadm⟩
      have hsub : (seen ++ ms).Sublist (seen ++ m :: ms) :=
        (List.Sublist.refl seen).append (List.sublist_cons_self m ms)
      obtain ⟨t', ht', hsolved, hall⟩ := ih hserved hV hs hn (fun m hm => hlt m (hsub.subset hm))
        (ht.sublist hsub) { t with hits := t.hits + 1 }
      refine ⟨t', ?_, ?_, ?_⟩
      · rw [decideAll_cons (hserved.run.calm hm hf), hr]
        exact ht'
      · rw [hsolved, keys_cons, Finset.insert_sdiff_of_mem _ hold]
      · change t'.hits + t'.solved = t.hits + 1 + t.solved + ms.length at hall
        rw [List.length_cons]
        omega
    · have hnew : key m ∉ keys key seen := by
        intro hold
        obtain ⟨s, hs', hk⟩ := mem_keys.mp hold
        obtain ⟨hacc, hroom⟩ := (htell s hs').offered hk
        have hlen := length_le_of_keys hn fun s hs => hlt s (List.mem_append_left _ hs)
        exact hnone (hroom.mono hlen) s hs' hacc ((htell s hs').admits_iff.mpr hk)
      have hsplit : seen ++ [m] ++ ms = seen ++ m :: ms := by rw [List.append_assoc, List.singleton_append]
      have hn' : ((seen ++ [m]).map key).Nodup := by
        rw [List.map_append, List.map_singleton, ← List.concat_eq_append]
        exact hn.concat fun hk => hnew (List.mem_toFinset.mpr hk)
      obtain ⟨t', ht', hsolved, hall⟩ := ih hserved hV hs hn' (hsplit ▸ hlt) (hsplit ▸ ht)
        { t with solved := t.solved + 1 }
      refine ⟨t', ?_, ?_, ?_⟩
      · rw [decideAll_cons (hserved.run.calm hm hf), hr]
        exact ht'
      · rw [hsolved, keys_cons, card_insert_sdiff hnew, keys_concat, Nat.add_right_comm]
        rfl
      · change t'.hits + t'.solved = t.hits + (t.solved + 1) + ms.length at hall
        rw [List.length_cons]
        omega

end Workload

end CoreReuse
