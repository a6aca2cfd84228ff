import CoreReuse.Proofs.Cache.Contents
import CoreReuse.Proofs.Pipeline.Calls

namespace CoreReuse

open Hash Search PollSource

variable {σ μ π : Type} [PollSource π] {V : Vocabulary} {c : Config}

/-- The pipelines that come of a configuration by calls, with the cores that solvers have returned.
Checks of the cache may be interrupted. -/
inductive Pipeline.Run (V : Vocabulary) (c : Config) : Pipeline Cache → List ClauseSet → Prop where
  | built {p : Pipeline Cache} {trace : List Trace.Event} {next : Nat} :
      c.buildPipeline next = .ok (p, trace) → Run V c p []
  | elsewhere {p : Pipeline Cache} {cores : List ClauseSet} (next : Nat) : Run V c p cores →
      Run V c { p with next } cores
  | call {p : Pipeline Cache} {cores : List ClauseSet} {query : ClauseSet} {π σ μ : Type}
      [PollSource π] (source : π) (solver : Solver σ μ) : Run V c p cores →
      (∀ q ∈ query.clauses, q ∈ V) →
      (∀ core, (p.checkWith query source solver).result.core? = some core → ∀ t ∈ core.clauses, t ∈ V) →
      Run V c (p.checkWith query source solver).pipeline
        (cores ++ (p.checkWith query source solver).result.core?.toList)

namespace Pipeline

variable {p : Pipeline Cache} {cores : List ClauseSet} {query : ClauseSet} {source : π}
variable {solver : Solver σ μ}

theorem settings_of_buildPipeline {trace : List Trace.Event} {next : Nat}
    (h : c.buildPipeline next = .ok (p, trace)) :
    ∃ events, c.build = .ok (p.cache, events) ∧ p.cacheTimeout = c.cacheTimeout ∧ p.cancellation = {} := by
  unfold Config.buildPipeline at h
  cases hb : c.build with
  | error e =>
    rw [hb] at h
    cases h
  | ok built =>
    rw [hb] at h
    cases h
    exact ⟨built.2, rfl, rfl, rfl⟩

theorem reached_checkWith (h : Config.Reached V c p.cache cores) (hq : ∀ q ∈ query.clauses, q ∈ V)
    (hcore : ∀ core, (p.checkWith query source solver).result.core? = some core →
      ∀ t ∈ core.clauses, t ∈ V) :
    Config.Reached V c (p.checkWith query source solver).pipeline.cache
      (cores ++ (p.checkWith query source solver).result.core?.toList) := by
  have hchecked := h.check source hq
  rcases checkWith_cases p query source solver with ⟨-, hhit⟩ | ⟨-, hsolved⟩
  · have hnone : (p.checkWith query source solver).result.core? = none :=
      congrArg PipelineResult.core? hhit.result_eq
    rw [hhit.cache_eq, hnone, Option.toList_none, List.append_nil]
    exact hchecked
  · rw [hsolved.cache_eq]
    cases hc : (p.checkWith query source solver).result.core? with
    | none =>
      rw [Option.toList_none, List.append_nil]
      exact hchecked
    | some core => exact hchecked.add (hcore core hc)

theorem Run.reached (h : Run V c p cores) : Config.Reached V c p.cache cores := by
  induction h with
  | built hb =>
    obtain ⟨events, hb, -⟩ := settings_of_buildPipeline hb
    exact .built hb
  | elsewhere _ _ ih => exact ih
  | call source solver _ hq hcore ih => exact reached_checkWith ih hq hcore

theorem Run.hit_admits (hm : c.mode = .enabled) (h : Run V c p cores) (hq : ∀ q ∈ query.clauses, q ∈ V)
    (source : π) (solver : Solver σ μ) :
    ((p.checkWith query source solver).result = .cachedUnsat →
      ∃ core ∈ cores, c.accepts core = true ∧ c.tester.Admits core.clauses query.clauses) ∧
    (c.index.innermost.OffersAll (cores.filter c.accepts).length → Quiet source →
      (∃ core ∈ cores, c.accepts core = true ∧ c.tester.Admits core.clauses query.clauses) →
      (p.checkWith query source solver).result = .cachedUnsat) := by
  obtain ⟨i, hi, hserves⟩ := h.reached.serves hm
  have hanswer : (UnsatCache.check p.cache query source).answer = (i.check query source).answer := by
    rw [hi, Config.check_around]
    rfl
  rw [result_eq_cachedUnsat_iff, hanswer]
  exact hserves.hit_admits hq source

theorem Run.calm (hm : c.mode = .enabled) (h : Run V c p cores) (hf : V.Fits c.height) :
    p.cache.base.overflowed = false := by
  obtain ⟨i, hi, hserves⟩ := h.reached.serves hm
  rw [hi]
  exact hserves.holds.hasher.calm hf

/-- One call after any run. The cache then stores the cores of all solvers so far that are not too
large. A hit asks no solver and leaves the stored cores as they are, and one of them is confirmed;
every other call asks its solver. Unless cores are left out by sampling, a call whose check is not
interrupted is a hit whenever it can be. -/
theorem Run.decides (hm : c.mode = .enabled) (h : Run V c p cores)
    (hq : ∀ q ∈ query.clauses, q ∈ V) (source : π) (solver : Solver σ μ)
    (hcore : ∀ core, (p.checkWith query source solver).result.core? = some core →
      ∀ t ∈ core.clauses, t ∈ V) :
    let o := UnsatCache.check p.cache query source
    let d := p.checkWith query source solver
    (∃ i j, p.cache.base = .indexed i ∧ d.pipeline.cache.base = .indexed j ∧ c.Stores i.index cores ∧
      c.Stores j.index (cores ++ d.result.core?.toList) ∧
      (d.result = .cachedUnsat → j.index = i.index)) ∧
    (d.result = .cachedUnsat → d.Hit p o.cache ∧
      ∃ core ∈ cores, c.accepts core = true ∧ c.tester.Confirms c.height core query) ∧
    (d.result ≠ .cachedUnsat → d.Solved p o.cache query solver o.interrupted) ∧
    (c.index.innermost.OffersAll (cores.filter c.accepts).length → Quiet source →
      (∃ core ∈ cores, c.accepts core = true ∧ c.tester.Confirms c.height core query) →
      d.result = .cachedUnsat) ∧
    (V.Fits c.height → d.pipeline.cache.base.overflowed = false) := by
  intro o d
  obtain ⟨i, hi, hserves, hindex⟩ := h.reached.index_eq hm
  obtain ⟨j, hj, hserves', hindex'⟩ := (reached_checkWith h.reached hq hcore).index_eq hm
  have hanswer : o.answer = (i.check query source).answer := by
    rw [show o = UnsatCache.check (c.around i) query source from hi ▸ rfl, Config.check_around]
    rfl
  have hiff : d.result = .cachedUnsat ↔ o.answer = .ok true := result_eq_cachedUnsat_iff
  obtain ⟨hhit, hfind⟩ := hserves.hit_iff hq source
  refine ⟨⟨i, j, by rw [hi]; rfl, by rw [hj]; rfl, hserves.stores hindex, hserves'.stores hindex', ?_⟩,
    fun hr => ⟨checkWith_hit (hiff.mp hr), hhit (hanswer ▸ hiff.mp hr)⟩,
    fun hr => checkWith_solved fun ha => hr (hiff.mpr ha),
    fun hroom hs hex => hiff.mpr (hanswer.trans (hfind hroom hs hex)), fun hf => ?_⟩
  · intro hr
    rw [hindex, hindex', hr, PipelineResult.core?_cachedUnsat, Option.toList_none, List.append_nil]
  · rw [hj]
    exact hserves'.holds.hasher.calm hf

end Pipeline

def Solver.answering (status : SolverStatus) (core : ClauseSet) : Solver Unit Unit where
  start := ()
  assertClause s _ := s
  check s _ := (status, s)
  model s := ((), s)
  unsatCore s := (core, s)

theorem Pipeline.Run.decides_unaries :
    ∃ p : Pipeline Cache, Run .unaries .bloomOverList p [.unary 0 "x"] ∧
      let d := p.checkWith (.unary 2 "a") ({} : Watch) (.answering .unsat (.unary 2 "a"))
      d.result = .cachedUnsat ∧ d.calls = [] ∧ d.pipeline.cache.base.overflowed = false := by
  have hx := Vocabulary.mem_unaries_core
  have ha := Vocabulary.mem_unaries_query
  have hbuilt : Run .unaries .bloomOverList _ [] :=
    .built (show Config.bloomOverList.buildPipeline = .ok _ from rfl)
  have hfirst := hbuilt.decides rfl hx ({} : Watch) (.answering .unsat (.unary 0 "x"))
    fun core hcore => eq_unsatCore_of_core? hcore ▸ hx
  obtain ⟨-, hhit, hmiss, -⟩ := hfirst
  have hsolved := hmiss fun hr => by
    obtain ⟨-, core, hcore, -⟩ := hhit hr
    cases hcore
  have h := hbuilt.call ({} : Watch) (.answering .unsat (.unary 0 "x")) hx
    fun core hcore => eq_unsatCore_of_core? hcore ▸ hx
  rw [hsolved.result_eq] at h
  obtain ⟨-, hhit, -, hfind, hcalm⟩ := h.decides rfl ha ({} : Watch) (.answering .unsat (.unary 2 "a"))
    fun core hcore => eq_unsatCore_of_core? hcore ▸ ha
  have hr := hfind trivial (quiet_none 0) ⟨_, List.mem_singleton.mpr rfl, rfl, by decide +kernel⟩
  exact ⟨_, h, hr, (hhit hr).1.calls_eq, hcalm Vocabulary.unaries_fits⟩

def ClauseSet.otherUnary : ClauseSet := .atoms [(4, "q", "a")]

theorem Config.repeated_query_overflows :
    ¬ highest.tester.Confirms highest.height (.unary 0 "x") .otherUnary ∧
      ∃ p trace, highest.buildPipeline = .ok (p, trace) ∧
        let first := p.checkWith (.unary 0 "x") ({} : Watch) (.answering .unsat (.unary 0 "x"))
        let second := first.pipeline.checkWith .otherUnary ({} : Watch) (.answering .sat .empty)
        let third := second.pipeline.checkWith .otherUnary ({} : Watch) (.answering .sat .empty)
        second.pipeline.cache.base.overflowed = false ∧ third.pipeline.cache.base.overflowed = true :=
  ⟨by decide +kernel, _, _, rfl, by decide +kernel, by decide +kernel⟩

end CoreReuse
