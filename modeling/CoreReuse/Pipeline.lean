import CoreReuse.Cache.Built
import CoreReuse.Solver

/-!
Deciding queries: the cache is asked first, and the solver if the cache does not know. Every core
that the solver finds goes into the cache. A run of the pipeline gives, beside its result, what was
done in what order.
-/

namespace CoreReuse

inductive PipelineState where
  | init
  | cacheChecking
  | cacheHit
  | solving
  | solverSat
  | solverUnsat
  | solverUnknown
deriving DecidableEq, Repr

def PipelineState.name : PipelineState → String
  | init => "Init"
  | cacheChecking => "CacheChecking"
  | cacheHit => "CacheHit"
  | solving => "Solving"
  | solverSat => "SolverSat"
  | solverUnsat => "SolverUnsat"
  | solverUnknown => "SolverUnknown"

inductive PipelineResult (μ : Type) where
  | cachedUnsat
  | solverSat (model : μ)
  | solverUnsat (core : ClauseSet)
  | solverUnknown

namespace PipelineResult

variable {μ : Type}

def isUnsat : PipelineResult μ → Bool
  | cachedUnsat => true
  | solverSat _ => false
  | solverUnsat _ => true
  | solverUnknown => false

def state : PipelineResult μ → PipelineState
  | cachedUnsat => .cacheHit
  | solverSat _ => .solverSat
  | solverUnsat _ => .solverUnsat
  | solverUnknown => .solverUnknown

end PipelineResult

inductive PipelineEvent where
  | cacheChecked (query : Nat) (hit interrupted : Bool)
  | solved (query : Nat) (status : SolverStatus)
  | coreInserted (query : Nat) (size : Nat)
deriving DecidableEq, Repr

inductive SolverCall where
  | make
  | assertClause (clause : Term)
  | check (timeout : UInt64)
  | model
  | unsatCore
  | drop

inductive Action where
  | event (e : PipelineEvent)
  | call (c : SolverCall)

structure Pipeline (κ : Type) where
  cache : κ
  cacheTimeout : Option UInt64 := none
  solverTimeout : UInt64 := 5000
  cancellation : Token := {}
  /-- The id of the next query. All pipelines of a process take their ids from one counter. -/
  next : Nat := 0

structure Decided (κ μ : Type) where
  result : PipelineResult μ
  pipeline : Pipeline κ
  actions : List Action
  trace : List Trace.Event

namespace Pipeline

variable {κ σ μ : Type}

def interrupt (p : Pipeline κ) (now : Nat) : Interrupt where
  token := { parent := p.cancellation.isCancelled }
  deadline := p.cacheTimeout.map fun ms => now + ms.toNat

def cancel (p : Pipeline κ) : Pipeline κ :=
  { p with cancellation := { p.cancellation with own := true } }

variable [UnsatCache κ]

def add (p : Pipeline κ) (core : ClauseSet) : Pipeline κ × List Trace.Event :=
  let (cache, trace) := UnsatCache.add p.cache core
  ({ p with cache }, trace)

def stateEvent (s : PipelineState) : Trace.Event := .queryState s.name

def solve (p : Pipeline κ) (query : ClauseSet) (solver : Solver σ μ) : Decided κ μ :=
  let asserted := query.clauses.foldl solver.assertClause solver.start
  let (status, s) := solver.check asserted p.solverTimeout
  let opening := .call .make :: query.clauses.map (fun c => .call (.assertClause c)) ++
    [.call (.check p.solverTimeout), .event (.solved p.next status)]
  let started := [stateEvent .solving, .solved status.name]
  let finish (result : PipelineResult μ) (pipeline : Pipeline κ) (actions : List Action)
      (trace : List Trace.Event) : Decided κ μ :=
    { result, pipeline
      actions := opening ++ actions ++ [.call .drop]
      trace := started ++ trace ++ [stateEvent result.state] }
  match status with
  | .sat => finish (.solverSat (solver.model s).1) p [.call .model] []
  | .unknown => finish .solverUnknown p [] []
  | .unsat =>
    let core := (solver.unsatCore s).1
    let (added, trace) := p.add core
    finish (.solverUnsat core) added
      [.call .unsatCore, .event (.coreInserted p.next core.size)]
      (trace ++ [.coreCached core.size])

def checkWith {π : Type} [PollSource π] (p : Pipeline κ) (query : ClauseSet) (source : π)
    (solver : Solver σ μ) : Decided κ μ :=
  let o := UnsatCache.check p.cache query source
  let (hit, interrupted) := match o.answer with
    | .ok hit => (hit, false)
    | .error _ => (false, true)
  let checked := { p with cache := o.cache }
  let advance (q : Pipeline κ) : Pipeline κ := { q with next := p.next + 1 }
  let action := .event (.cacheChecked p.next hit interrupted)
  let trace := [stateEvent .init, stateEvent .cacheChecking] ++ o.events ++
    [.cacheChecked hit interrupted]
  if hit then
    ⟨.cachedUnsat, advance checked, [action], trace ++ [stateEvent .cacheHit]⟩
  else
    let d := checked.solve query solver
    { d with
      pipeline := advance d.pipeline
      actions := action :: d.actions
      trace := trace ++ d.trace }

def check (p : Pipeline κ) (query : ClauseSet) (now : Nat) (solver : Solver σ μ) :
    Decided κ μ :=
  p.checkWith query (Watch.mk (p.interrupt now) now) solver

end Pipeline

namespace Config

def buildPipeline (c : Config) (next : Nat := 0) :
    Except ConfigError (Pipeline Cache × List Trace.Event) := do
  let (cache, trace) ← c.build
  return ({ cache, cacheTimeout := c.cacheTimeout, solverTimeout := c.solverTimeout, next }, trace)

end Config

end CoreReuse
