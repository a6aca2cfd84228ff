import CoreReuse.Pipeline
import CoreReuse.Random.Draw

namespace CoreReuse

structure Workload where
  families : Nat
  coreSize : Nat
  noise : Nat
  random : Generator

namespace Workload

def ofSeed (families coreSize noise : Nat) (seed : UInt64) : Workload :=
  ⟨max families 1, max coreSize 1, noise, .ofSeed seed⟩

def predicate (i : Nat) : Decl := ⟨"p" ++ toString i, [.int, .int], .bool, none⟩

def noisePredicate : Decl := ⟨"noise", [.int, .int], .bool, none⟩

def variableOf (query i : Nat) : Decl :=
  .constant ("q" ++ toString query ++ "_v" ++ toString i) .int

def apply (p : Decl) (x y : Term) : Build Term := Term.Build.app p [x, y]

def chain (query first : Nat) : Nat → Nat → Build (List Term)
  | 0, _ => return []
  | n + 1, i => do
    let x ← Term.Build.var (variableOf query i)
    let y ← Term.Build.var (variableOf query (i + 1))
    let c ← apply (predicate (first + i)) x y
    return c :: (← chain query first n (i + 1))

def addNoise (query coreSize : Nat) : Nat → Generator → Array Term →
    Build (Array Term × Generator)
  | 0, g, clauses => return (clauses, g)
  | n + 1, g, clauses => do
    let (value, g) := Draw.range 0 1000 g
    let (position, g) := Draw.range 0 (clauses.size + 1) g
    let (i, g) := Draw.range 0 (coreSize + 1) g
    let x ← Term.Build.var (variableOf query i)
    let y ← Term.Build.int value
    let c ← apply noisePredicate x y
    addNoise query coreSize n g (clauses.insertIdxIfInBounds position c)

def next (w : Workload) (query : Nat) : Build (ClauseSet × ClauseSet × Workload) := do
  let (family, random) := Draw.range 0 w.families w.random
  let core ← chain query (family * w.coreSize) w.coreSize 0
  let (clauses, random) ← addNoise query w.coreSize w.noise random core.toArray
  let whole ← ClauseSet.ofList? clauses.toList
  let part ← ClauseSet.ofList? core
  return (whole, part, { w with random })

def scriptedSolver (core : ClauseSet) : Solver Nat Unit where
  start := 0
  assertClause n _ := n + 1
  check n _ := (if core.size ≤ n then .unsat else .unknown, n)
  model n := ((), n)
  unsatCore n := (core, n)

structure Tally where
  hits : Nat := 0
  solved : Nat := 0
deriving DecidableEq, Repr

def Tally.count {μ : Type} (t : Tally) : PipelineResult μ → Tally
  | .cachedUnsat => { t with hits := t.hits + 1 }
  | _ => { t with solved := t.solved + 1 }

def run (now : Nat) : Nat → Nat → Workload → Pipeline Cache → Tally → Build (Option Tally)
  | 0, _, _, _, t => return some t
  | n + 1, query, w, p, t => do
    let (whole, part, w) ← w.next query
    let d := p.check whole now (scriptedSolver part)
    if d.pipeline.cache.base.overflowed then return none
    else run now n (query + 1) w d.pipeline (t.count d.result)

end Workload

end CoreReuse
