import CoreReuse.Pipeline

namespace CoreReuse

variable {κ σ μ π : Type}

namespace Decided

def events (d : Decided κ μ) : List PipelineEvent :=
  d.actions.filterMap fun
    | .event e => some e
    | .call _ => none

def calls (d : Decided κ μ) : List SolverCall :=
  d.actions.filterMap fun
    | .event _ => none
    | .call c => some c

end Decided

def PipelineResult.core? : PipelineResult μ → Option ClauseSet
  | solverUnsat core => some core
  | _ => none

@[simp] theorem PipelineResult.core?_cachedUnsat : (cachedUnsat : PipelineResult μ).core? = none := rfl

def PipelineResult.inserted (id : Nat) (r : PipelineResult μ) : List PipelineEvent :=
  r.core?.toList.map fun core => .coreInserted id core.size

def SolverStatus.reasons : SolverStatus → List SolverCall
  | sat => [.model]
  | unsat => [.unsatCore]
  | unknown => []

namespace Solver

def verdict (solver : Solver σ μ) (query : ClauseSet) (timeout : UInt64) : SolverStatus × σ :=
  solver.check (query.clauses.foldl solver.assertClause solver.start) timeout

def result (solver : Solver σ μ) (decided : SolverStatus × σ) : PipelineResult μ :=
  match decided.1 with
  | .sat => .solverSat (solver.model decided.2).1
  | .unsat => .solverUnsat (solver.unsatCore decided.2).1
  | .unknown => .solverUnknown

end Solver

def Outcome.interrupted (o : Outcome κ π) : Bool :=
  match o.answer with
  | .ok _ => false
  | .error _ => true

variable [UnsatCache κ]

namespace Decided

structure Hit (d : Decided κ μ) (p : Pipeline κ) (checked : κ) : Prop where
  result_eq : d.result = .cachedUnsat
  calls_eq : d.calls = []
  events_eq : d.events = [.cacheChecked p.next true false]
  cache_eq : d.pipeline.cache = checked

structure Solved (d : Decided κ μ) (p : Pipeline κ) (checked : κ) (query : ClauseSet)
    (solver : Solver σ μ) (interrupted : Bool) : Prop where
  result_eq : d.result = solver.result (solver.verdict query p.solverTimeout)
  calls_eq : d.calls = .make :: query.clauses.map .assertClause ++ [.check p.solverTimeout] ++
    (solver.verdict query p.solverTimeout).1.reasons ++ [.drop]
  events_eq : d.events = [.cacheChecked p.next false interrupted,
    .solved p.next (solver.verdict query p.solverTimeout).1] ++ d.result.inserted p.next
  cache_eq : d.pipeline.cache =
    d.result.core?.elim checked fun core => (UnsatCache.add checked core).1

end Decided

namespace Pipeline

variable [PollSource π] {p : Pipeline κ} {query : ClauseSet} {source : π} {solver : Solver σ μ}

theorem checkWith_hit (h : (UnsatCache.check p.cache query source).answer = .ok true) :
    (p.checkWith query source solver).Hit p (UnsatCache.check p.cache query source).cache := by
  unfold checkWith
  simp only [h]
  exact ⟨rfl, rfl, rfl, rfl⟩

theorem solve_solved (p : Pipeline κ) (query : ClauseSet) (solver : Solver σ μ) :
    let d := p.solve query solver
    let decided := solver.verdict query p.solverTimeout
    d.result = solver.result decided ∧
      d.calls = .make :: query.clauses.map .assertClause ++ [.check p.solverTimeout] ++
        decided.1.reasons ++ [.drop] ∧
      d.events = .solved p.next decided.1 :: d.result.inserted p.next ∧
      d.pipeline.cache = d.result.core?.elim p.cache fun core => (UnsatCache.add p.cache core).1 := by
  have hcalls : ∀ clauses : List Term, (clauses.map fun c => Action.call (.assertClause c)).filterMap
      (fun | .event _ => none | .call c => some c) = clauses.map SolverCall.assertClause := by
    intro clauses
    rw [List.filterMap_map]
    exact congrFun List.filterMap_eq_map' clauses
  have hevents : ∀ clauses : List Term, (clauses.map fun c => Action.call (.assertClause c)).filterMap
      (fun | .event e => some e | .call _ => none) = [] := by
    intro clauses
    rw [List.filterMap_map]
    exact List.filterMap_eq_nil_iff.mpr fun _ _ => rfl
  rcases hv : solver.verdict query p.solverTimeout with ⟨status, s⟩
  have hcheck : solver.check (query.clauses.foldl solver.assertClause solver.start) p.solverTimeout =
    (status, s) := hv
  simp only [solve, hcheck]
  cases status <;>
    refine ⟨rfl, ?_, ?_, rfl⟩ <;>
    simp [Decided.calls, Decided.events, hcalls, hevents, SolverStatus.reasons,
      PipelineResult.inserted, PipelineResult.core?]

theorem checkWith_solved (h : (UnsatCache.check p.cache query source).answer ≠ .ok true) :
    (p.checkWith query source solver).Solved p (UnsatCache.check p.cache query source).cache query
      solver (UnsatCache.check p.cache query source).interrupted := by
  have hsolve := solve_solved { p with cache := (UnsatCache.check p.cache query source).cache } query
    solver
  obtain ⟨h1, h2, h3, h4⟩ := hsolve
  cases ha : (UnsatCache.check p.cache query source).answer with
  | error e =>
    simp only [checkWith, Outcome.interrupted, ha]
    exact ⟨h1, h2, congrArg _ h3, h4⟩
  | ok hit =>
    cases hit with
    | true => exact absurd ha h
    | false =>
      simp only [checkWith, Outcome.interrupted, ha]
      exact ⟨h1, h2, congrArg _ h3, h4⟩

theorem checkWith_cases (p : Pipeline κ) (query : ClauseSet) (source : π) (solver : Solver σ μ) :
    let o := UnsatCache.check p.cache query source
    (o.answer = .ok true ∧ (p.checkWith query source solver).Hit p o.cache) ∨
      (o.answer ≠ .ok true ∧
        (p.checkWith query source solver).Solved p o.cache query solver o.interrupted) := by
  by_cases ha : (UnsatCache.check p.cache query source).answer = .ok true
  · exact .inl ⟨ha, checkWith_hit ha⟩
  · exact .inr ⟨ha, checkWith_solved ha⟩

theorem checkWith_settings (p : Pipeline κ) (query : ClauseSet) (source : π) (solver : Solver σ μ) :
    (p.checkWith query source solver).pipeline.cacheTimeout = p.cacheTimeout ∧
      (p.checkWith query source solver).pipeline.cancellation = p.cancellation := by
  have hsolve : ∀ q : Pipeline κ, (q.solve query solver).pipeline.cacheTimeout = q.cacheTimeout ∧
      (q.solve query solver).pipeline.cancellation = q.cancellation := by
    intro q
    simp only [solve]
    split <;> exact ⟨rfl, rfl⟩
  cases ha : (UnsatCache.check p.cache query source).answer with
  | error e =>
    simp only [checkWith, ha]
    exact hsolve _
  | ok hit =>
    cases hit with
    | true =>
      simp only [checkWith, ha]
      exact ⟨rfl, rfl⟩
    | false =>
      simp only [checkWith, ha]
      exact hsolve _

theorem result_eq_cachedUnsat_iff :
    (p.checkWith query source solver).result = .cachedUnsat ↔
      (UnsatCache.check p.cache query source).answer = .ok true := by
  rcases checkWith_cases p query source solver with ⟨ha, hhit⟩ | ⟨ha, hsolved⟩
  · exact iff_of_true hhit.result_eq ha
  · refine iff_of_false (fun h => ?_) ha
    rw [hsolved.result_eq, Solver.result] at h
    split at h <;> cases h

theorem eq_unsatCore_of_core? {core : ClauseSet}
    (h : (p.checkWith query source solver).result.core? = some core) :
    core = (solver.unsatCore (solver.verdict query p.solverTimeout).2).1 := by
  rcases checkWith_cases p query source solver with ⟨-, hhit⟩ | ⟨-, hsolved⟩
  · rw [hhit.result_eq] at h
    cases h
  · rw [hsolved.result_eq, Solver.result] at h
    split at h <;> cases h
    rfl

end Pipeline

end CoreReuse
