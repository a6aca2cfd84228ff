import CoreReuse.Index.Cursor

namespace CoreReuse

structure Index where
  seed : UInt64
  outermost : FlatKind
  inner : List FlatKind
  store : Store inner

def IndexKind.build (kind : IndexKind) (seed : UInt64) : Except IndexError Index := do
  kind.validate
  let (outermost, inner) := kind.levels
  return ⟨seed, outermost, inner, .empty inner⟩

namespace Index

def name (i : Index) : String :=
  match i.inner with
  | [] => i.outermost.name
  | _ :: _ => "composite"

def size (i : Index) : Nat := i.store.size

def isEmpty (i : Index) : Bool := i.size == 0

def innerCount (i : Index) : Nat := i.store.innerCount

def coreKey (i : Index) (h : Hasher) (core : ClauseSet) : Key × Hasher :=
  Store.coreKey i.outermost i.inner h core

def queryKey {π : Type} (i : Index) (query : ClauseSet) : Search π Key :=
  Store.queryKey i.outermost i.inner query

def lookupKey (i : Index) (key : Key) : Key := Store.lookupKey i.outermost i.inner key

def insert (i : Index) (key : Key) (core : ClauseSet) : Index :=
  { i with store := Store.insert i.seed i.outermost i.inner key core i.store }

def candidates (i : Index) (key : Key) : List ClauseSet :=
  Store.candidates i.seed i.outermost i.inner key i.store

def cursor (i : Index) (key : Key) : Cursor i.inner :=
  Cursor.openAt i.seed i.outermost i.inner key i.store

end Index

structure Counter where
  checks : Nat := 0
  consumed : Nat := 0
  last : Nat := 0
deriving DecidableEq, Repr

def Counter.record (c : Counter) (consumed : Nat) : Counter :=
  ⟨c.checks + 1, c.consumed + consumed, consumed⟩

end CoreReuse
