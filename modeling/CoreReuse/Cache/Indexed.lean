import CoreReuse.Cache.Basic
import CoreReuse.Index.Counted
import CoreReuse.Matching.Tester

/-!
A cache made of an index that proposes cores and a tester that confirms them. A check polls once
before it looks anything up and once for every core that it is offered. Candidates may be counted:
a round of them is recorded when it ends, with as many as were taken from the index.
-/

namespace CoreReuse

structure IndexedCache where
  core : Hasher
  proposer : CandidateIndex
  tester : Tester

structure Round (π : Type) where
  answer : Except Interrupted (Option ClauseSet)
  consumed : Nat
  work : Work π

namespace IndexedCache

variable {π : Type} [PollSource π]

def index (c : IndexedCache) : Index := c.proposer.index

def counter (c : IndexedCache) : Option Counter := c.proposer.counter?

def size (c : IndexedCache) : Nat := c.proposer.size

def test (t : Tester) (query core : ClauseSet) : Search π Bool := do
  Search.poll
  t.matches core query

def testAll (t : Tester) (query : ClauseSet) : List ClauseSet → Nat → Work π → Round π
  | [], n, w => ⟨.ok none, n, w⟩
  | c :: cs, n, w =>
    match (test t query c).run w with
    | (.ok true, w) => ⟨.ok (some c), n + 1, w⟩
    | (.ok false, w) => testAll t query cs (n + 1) w
    | (.error e, w) => ⟨.error e, n + 1, w⟩

/-- The events at the end of a round. A hit is reported before the round is recorded, a miss after
it. -/
def roundEvents (c : IndexedCache) (r : Round π) : List Trace.Event :=
  let recorded := (c.proposer.drop r.consumed).2
  match r.answer with
  | .ok (some core) => .cacheHit c.tester.name r.consumed core.size :: recorded
  | .ok none => recorded ++ [.cacheMiss c.tester.name r.consumed]
  | .error _ => recorded

def afterRound (c : IndexedCache) (r : Round π) : IndexedCache :=
  { c with core := r.work.coreAfter, proposer := (c.proposer.drop r.consumed).1 }

def add (c : IndexedCache) (core : ClauseSet) : IndexedCache × List Trace.Event :=
  let (key, hasher) := c.proposer.coreKey c.core core
  ({ c with core := hasher, proposer := c.proposer.insert key core },
    [.addingCore c.proposer.name core.size])

def begin (c : IndexedCache) (query : ClauseSet) : Search π Key := do
  Search.poll
  c.proposer.queryKey query

def check (c : IndexedCache) (query : ClauseSet) (source : π) : Outcome IndexedCache π :=
  match (c.begin query).run (.start c.core source) with
  | (.error e, w) => { answer := .error e, cache := c, source := w.source }
  | (.ok key, w) =>
    let r := testAll c.tester query (c.proposer.candidates key) 0 w
    { answer := r.answer.map Option.isSome
      cache := c.afterRound r
      source := r.work.source
      events := r.work.events ++ c.roundEvents r }

instance : UnsatCache IndexedCache := ⟨add, check⟩

end IndexedCache

end CoreReuse
