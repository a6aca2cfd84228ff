import CoreReuse.Buckets
import CoreReuse.ClauseSet
import CoreReuse.Interrupt
import CoreReuse.Trace
import CoreReuse.Unifier

/-!
The working state of one check: the hashers of both sides, the hashes of the query's clauses once
something asked for them, the polls made and the events reported. A search runs on it and ends
early when a poll says so.
-/

namespace CoreReuse

structure Work (π : Type) where
  core : Hasher
  query : Hasher
  hashes : Option (List UInt64) := none
  buckets : Option Buckets := none
  source : π
  events : List Trace.Event := []

namespace Work

variable {π : Type}

def start (core : Hasher) (source : π) : Work π where
  core
  query := .ofMaxHeight core.maxHeight
  source

def coreAfter (w : Work π) : Hasher :=
  { w.core with overflowed := w.core.overflowed || w.query.overflowed }

end Work

abbrev Search (π α : Type) := ExceptT Interrupted (StateM (Work π)) α

namespace Search

variable {π : Type}

def poll [PollSource π] : Search π Unit := do
  let w ← get
  let (fired, source) := PollSource.poll w.source
  set { w with source }
  if fired then throw .interrupted

def emit (e : Trace.Event) : Search π Unit :=
  modify fun w => { w with events := w.events ++ [e] }

def hashCore (t : Term) : Search π UInt64 := do
  let w ← get
  let (hash, core) := w.core.hash t
  set { w with core }
  return hash

def queryHashes (query : ClauseSet) : Search π (List UInt64) := do
  let w ← get
  match w.hashes with
  | some hashes => return hashes
  | none =>
    let (hashes, hasher) := w.query.hashAll query.clauses
    set { w with query := hasher, hashes := some hashes }
    return hashes

def queryBuckets (query : ClauseSet) : Search π Buckets := do
  let hashes ← queryHashes query
  match (← get).buckets with
  | some buckets => return buckets
  | none =>
    let buckets := Buckets.ofHashes hashes
    modify fun w => { w with buckets := some buckets }
    return buckets

def unify (r : Renaming) (l t : Term) : Search π (Option Renaming) := do
  let w ← get
  let (ok, u) := Unifier.unify {} l t
    { bindings := r, guarded := true, left := w.core, right := w.query }
  set { w with core := u.left, query := u.right }
  return if ok then some u.bindings else none

def run {α : Type} (s : Search π α) (w : Work π) : Except Interrupted α × Work π :=
  StateT.run (ExceptT.run s) w

end Search

end CoreReuse
