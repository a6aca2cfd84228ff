import CoreReuse.Index.Level

namespace CoreReuse

abbrev Store : List FlatKind → Type
  | [] => List (Key × ClauseSet)
  | _ :: rest => Nat × List (Key × Store rest)

namespace Store

def empty : (rest : List FlatKind) → Store rest
  | [] => ([] : List (Key × ClauseSet))
  | _ :: rest => ((0, []) : Nat × List (Key × Store rest))

def size : (rest : List FlatKind) → Store rest → Nat
  | [], entries => List.length entries
  | _ :: _, (count, _) => count

def innerCount : (rest : List FlatKind) → Store rest → Nat
  | [], _ => 0
  | _ :: _, (_, inners) => inners.length

def coreKey (k : FlatKind) : List FlatKind → Hasher → ClauseSet → Key × Hasher
  | [], h, core => k.coreKey h core
  | next :: rest, h, core =>
    let (outer, h) := k.coreKey h core
    let (inner, h) := coreKey next rest h core
    (.pair outer inner, h)

def queryKey {π : Type} (k : FlatKind) : List FlatKind → ClauseSet → Search π Key
  | [], query => k.queryKey query
  | next :: rest, query => do
    let outer ← k.queryKey query
    let inner ← queryKey next rest query
    return .pair outer inner

def lookupKey (k : FlatKind) : List FlatKind → Key → Key
  | [], key => k.lookupKey key
  | next :: rest, key => .pair (k.lookupKey key.split.1) (lookupKey next rest key.split.2)

def insert (seed : UInt64) (k : FlatKind) :
    (rest : List FlatKind) → Key → ClauseSet → Store rest → Store rest
  | [], key, core, entries => k.file key core entries
  | next :: rest, key, core, (count, inners) =>
    let offered := k.selectAmong seed (k.lookupKey key.split.1) inners
    if offered.isEmpty then
      (count + 1, k.file key.split.1 (insert seed next rest key.split.2 core (empty rest)) inners)
    else
      (count + 1, inners.mapIdx fun i e =>
        if offered.contains i then (e.1, insert seed next rest key.split.2 core e.2) else e)

def candidates (seed : UInt64) (k : FlatKind) :
    (rest : List FlatKind) → Key → Store rest → List ClauseSet
  | [], key, entries => k.offered seed key entries
  | next :: rest, key, (_, inners) =>
    (k.offered seed key.split.1 inners).flatMap (candidates seed next rest key.split.2)

end Store

end CoreReuse
