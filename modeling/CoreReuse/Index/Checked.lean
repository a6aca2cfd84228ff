import CoreReuse.Index.Offer
import CoreReuse.Index.Session

namespace CoreReuse

namespace FlatKind

def checkedRemainder (width hash : UInt64) : Except Fault Nat :=
  if width = 0 then throw .zeroWidth else return (hash % width).toNat

def checkedBits (width : UInt64) (hashes : List UInt64) : Except Fault Bits :=
  return .ofMembers width.toNat (← hashes.mapM (checkedRemainder width))

def checkedCoreKey (k : FlatKind) (h : Hasher) (core : ClauseSet) : Except Fault (Key × Hasher) :=
  match k with
  | bloom nbits => do
    let (hashes, h) := h.hashAll core.clauses
    return (.bits (← checkedBits nbits hashes), h)
  | _ => return (.flat, h)

def checkedQueryKey {π : Type} (k : FlatKind) (query : ClauseSet) : ExceptT Fault (Search π) Key :=
  match k with
  | list => return .flat
  | random _ => return .digest (wholeDigest (← ExceptT.lift (Search.queryHashes query)))
  | bloom nbits => do
    let bs ← checkedBits nbits (← ExceptT.lift (Search.queryHashes query))
    return .bits bs.complement

end FlatKind

structure LazyVisit (γ : Type) where
  outer : Offer Nat
  key : Key
  current : Option (Nat × γ) := none

def LazyCursor : List FlatKind → Type
  | [] => Offer ClauseSet
  | _ :: rest => LazyVisit (LazyCursor rest)

namespace LazyVisit

variable {γ σ : Type}

def advance (key : Key) (openAt : σ → γ) (pull : σ → γ → Except Fault (Option ClauseSet × γ))
    (inners : List σ) (outer : Offer Nat) : Except Fault (Option ClauseSet × LazyVisit γ) :=
  match _ : outer.next with
  | .error e => throw e
  | .ok (none, outer) => return (none, ⟨outer, key, none⟩)
  | .ok (some i, onward) =>
    match inners[i]? with
    | none => advance key openAt pull inners onward
    | some store => do
      match ← pull store (openAt store) with
      | (some value, cursor) => return (some value, ⟨onward, key, some (i, cursor)⟩)
      | (none, _) => advance key openAt pull inners onward
termination_by outer.left
decreasing_by all_goals exact Offer.left_lt_of_next ‹_›

def next (openAt : σ → γ) (pull : σ → γ → Except Fault (Option ClauseSet × γ)) (inners : List σ)
    (v : LazyVisit γ) : Except Fault (Option ClauseSet × LazyVisit γ) :=
  match v.current with
  | none => advance v.key openAt pull inners v.outer
  | some (i, cursor) =>
    match inners[i]? with
    | none => advance v.key openAt pull inners v.outer
    | some store => do
      match ← pull store cursor with
      | (some value, cursor) => return (some value, { v with current := some (i, cursor) })
      | (none, _) => advance v.key openAt pull inners v.outer

def hint (within : γ → Except Fault Hint) (v : LazyVisit γ) : Except Fault Hint := do
  let front ← match v.current with
    | none => pure ⟨0, some 0⟩
    | some (_, cursor) => within cursor
  let outer ← v.outer.hint
  return { front with most := if outer = ⟨0, some 0⟩ then front.most else none }

end LazyVisit

def handles {α : Type} (inners : List (Key × α)) : List (Key × Nat) :=
  inners.zipIdx.map fun (e, i) => (e.1, i)

namespace LazyCursor

def openAt (seed : UInt64) (k : FlatKind) :
    (rest : List FlatKind) → Key → Store rest → LazyCursor rest
  | [], key, entries => Offer.openAt k seed key entries
  | _ :: _, key, (_, inners) =>
    { outer := .openAt k seed key.split.1 (handles inners), key := key.split.2 }

def pull (seed : UInt64) : (rest : List FlatKind) → Store rest → LazyCursor rest →
    Except Fault (Option ClauseSet × LazyCursor rest)
  | [], _, offer => Offer.next offer
  | next :: rest, (_, inners), visit =>
    LazyVisit.next (openAt seed next rest (LazyVisit.key visit)) (pull seed rest) (inners.map (·.2)) visit

def hint : (rest : List FlatKind) → LazyCursor rest → Except Fault Hint
  | [], offer => Offer.hint offer
  | _ :: rest, visit => LazyVisit.hint (hint rest) visit

end LazyCursor

inductive Reply where
  | candidate (core : Option ClauseSet)
  | hint (hint : Hint)

def Reply.candidate? : Reply → Option (Option ClauseSet)
  | candidate core => some core
  | hint _ => none

abbrev LazySession (rest : List FlatKind) := Session (Store rest) (LazyCursor rest)

namespace IndexKind

def makeFlat : IndexKind → Except Fault FlatKind
  | flat k => return k
  | composite _ _ => throw .compositeOuter

def make : (kind : IndexKind) → Except Fault (Store kind.levels.2)
  | flat _ => return .empty []
  | composite outer inner => do
    let _ ← outer.makeFlat
    let _ ← inner.make
    return .empty (inner.levels.1 :: inner.levels.2)

def checkedCoreKey : IndexKind → Hasher → ClauseSet → Except Fault (Key × Hasher)
  | flat k, h, core => k.checkedCoreKey h core
  | composite outer inner, h, core => do
    let (outerKey, h) ← outer.outermost.checkedCoreKey h core
    let (innerKey, h) ← inner.checkedCoreKey h core
    return (.pair outerKey innerKey, h)

def checkedQueryKey {π : Type} : IndexKind → ClauseSet → ExceptT Fault (Search π) Key
  | flat k, query => k.checkedQueryKey query
  | composite outer inner, query => do
    let outerKey ← outer.outermost.checkedQueryKey query
    let innerKey ← inner.checkedQueryKey query
    return .pair outerKey innerKey

def checkedInsert (seed : UInt64) : (kind : IndexKind) → Key → ClauseSet → Store kind.levels.2 →
    Except Fault (Store kind.levels.2)
  | flat k, key, core, entries => return k.file key core entries
  | composite outer inner, key, core, (count, inners) => do
    let k := outer.outermost
    let offered ← (Offer.openAt k seed (k.lookupKey key.split.1) (handles inners)).drain
    if offered.isEmpty then
      let store ← inner.checkedInsert seed key.split.2 core (← inner.make)
      return (count + 1, k.file key.split.1 store inners)
    else
      let inners ← inners.zipIdx.mapM fun (e, i) =>
        if offered.contains i then do
          return (e.1, ← inner.checkedInsert seed key.split.2 core e.2)
        else return e
      return (count + 1, inners)

def step (seed : UInt64) (kind : IndexKind) (s : LazySession kind.levels.2) :
    Request → Except Fault (List Reply × LazySession kind.levels.2)
  | .add core => do
    let (key, hasher) ← kind.checkedCoreKey s.core core
    let store ← kind.checkedInsert seed key core s.store
    return ([], { s with core := hasher, store })
  | .put key core => do
    let store ← kind.checkedInsert seed key core s.store
    return ([], { s with store })
  | .ask query =>
    match (kind.checkedQueryKey query).run.run (.start s.core ()) with
    | (.ok key, w) => do
      let cursor := LazyCursor.openAt seed kind.levels.1 kind.levels.2 (← key) s.store
      return ([], { s with core := w.coreAfter, cursors := s.cursors ++ [cursor] })
    | (.error _, w) => return ([], { s with core := w.coreAfter })
  | .look key =>
    let cursor := LazyCursor.openAt seed kind.levels.1 kind.levels.2 key s.store
    return ([], { s with cursors := s.cursors ++ [cursor] })
  | .pull i =>
    match s.cursors[i]? with
    | none => return ([], s)
    | some c => do
      let (value, c) ← LazyCursor.pull seed kind.levels.2 s.store c
      return ([.candidate value], { s with cursors := s.cursors.set i c })
  | .hint i =>
    match s.cursors[i]? with
    | none => return ([], s)
    | some c => do
      let hint ← LazyCursor.hint kind.levels.2 c
      return ([.hint hint], s)

def runFrom (seed : UInt64) (kind : IndexKind) :
    List Request → LazySession kind.levels.2 → Except Fault (List Reply × LazySession kind.levels.2)
  | [], s => return ([], s)
  | request :: requests, s => do
    let (replies, s) ← kind.step seed s request
    let (more, s) ← kind.runFrom seed requests s
    return (replies ++ more, s)

def run (kind : IndexKind) (seed : UInt64) (core : Hasher) (requests : List Request) :
    Except Fault (List Reply × Store kind.levels.2) := do
  let store ← kind.make
  let (replies, s) ← kind.runFrom seed requests ⟨core, store, []⟩
  return (replies, s.store)

end IndexKind

end CoreReuse
