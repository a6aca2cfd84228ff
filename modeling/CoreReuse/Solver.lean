import CoreReuse.ClauseSet

namespace CoreReuse

inductive SolverStatus where
  | sat
  | unsat
  | unknown
deriving DecidableEq, Repr

def SolverStatus.name : SolverStatus → String
  | sat => "sat"
  | unsat => "unsat"
  | unknown => "unknown"

structure Solver (σ μ : Type) where
  start : σ
  assertClause : σ → Term → σ
  check : σ → UInt64 → SolverStatus × σ
  model : σ → μ × σ
  unsatCore : σ → ClauseSet × σ

end CoreReuse
