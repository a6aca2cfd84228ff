import CoreReuse.Index.Basic
import CoreReuse.Trace

namespace CoreReuse

structure Counted (rest : List FlatKind) where
  cursor : Cursor rest
  consumed : Nat := 0

namespace Counted

variable {rest : List FlatKind}

def pull (seed : UInt64) (rest : List FlatKind) (store : Store rest) (c : Counted rest) :
    Option ClauseSet × Counted rest :=
  match Cursor.pull seed rest store c.cursor with
  | (none, cursor) => (none, { c with cursor })
  | (some core, cursor) => (some core, ⟨cursor, c.consumed + 1⟩)

def close (c : Counted rest) (counter : Counter) : Counter := counter.record c.consumed

end Counted

def Index.counted (i : Index) (key : Key) : Counted i.inner := ⟨i.cursor key, 0⟩

/-- What a cache takes candidates from: an index, or a wrapper that forwards every call to what it
wraps and counts the candidates that it gave when they are dropped. -/
inductive CandidateIndex where
  | plain (index : Index)
  | counting (inner : CandidateIndex) (counter : Counter)

namespace CandidateIndex

def name : CandidateIndex → String
  | plain i => i.name
  | counting inner _ => inner.name

def size : CandidateIndex → Nat
  | plain i => i.size
  | counting inner _ => inner.size

def coreKey : CandidateIndex → Hasher → ClauseSet → Key × Hasher
  | plain i, h, core => i.coreKey h core
  | counting inner _, h, core => inner.coreKey h core

def queryKey {π : Type} : CandidateIndex → ClauseSet → Search π Key
  | plain i, query => i.queryKey query
  | counting inner _, query => inner.queryKey query

def lookupKey : CandidateIndex → Key → Key
  | plain i, key => i.lookupKey key
  | counting inner _, key => inner.lookupKey key

def insert : CandidateIndex → Key → ClauseSet → CandidateIndex
  | plain i, key, core => plain (i.insert key core)
  | counting inner n, key, core => counting (inner.insert key core) n

def candidates : CandidateIndex → Key → List ClauseSet
  | plain i, key => i.candidates key
  | counting inner _, key => inner.candidates key

/-- Drops the candidates after so many of them were taken. The outermost wrapper counts first. -/
def drop : CandidateIndex → Nat → CandidateIndex × List Trace.Event
  | plain i, _ => (plain i, [])
  | counting inner n, consumed =>
    (counting (inner.drop consumed).1 (n.record consumed),
      .candidatesConsumed inner.name consumed :: (inner.drop consumed).2)

def index : CandidateIndex → Index
  | plain i => i
  | counting inner _ => inner.index

def counter? : CandidateIndex → Option Counter
  | plain _ => none
  | counting _ n => some n

def depth : CandidateIndex → Nat
  | plain _ => 0
  | counting inner _ => inner.depth + 1

structure Forwards (p q : CandidateIndex) : Prop where
  name_eq : p.name = q.name
  size_eq : p.size = q.size
  coreKey_eq : ∀ h core, p.coreKey h core = q.coreKey h core
  queryKey_eq : ∀ {π : Type} query, (p.queryKey query : Search π Key) = q.queryKey query
  lookupKey_eq : ∀ key, p.lookupKey key = q.lookupKey key
  candidates_eq : ∀ key, p.candidates key = q.candidates key

theorem Forwards.trans {p q r : CandidateIndex} (h : p.Forwards q) (h' : q.Forwards r) :
    p.Forwards r where
  name_eq := h.name_eq.trans h'.name_eq
  size_eq := h.size_eq.trans h'.size_eq
  coreKey_eq hasher core := (h.coreKey_eq hasher core).trans (h'.coreKey_eq hasher core)
  queryKey_eq query := (h.queryKey_eq query).trans (h'.queryKey_eq query)
  lookupKey_eq key := (h.lookupKey_eq key).trans (h'.lookupKey_eq key)
  candidates_eq key := (h.candidates_eq key).trans (h'.candidates_eq key)

variable (p : CandidateIndex)

theorem forwards_inner (n : Counter) : (counting p n).Forwards p :=
  ⟨rfl, rfl, fun _ _ => rfl, fun _ => rfl, fun _ => rfl, fun _ => rfl⟩

theorem forwards_index : p.Forwards (.plain p.index) := by
  induction p with
  | plain i => exact ⟨rfl, rfl, fun _ _ => rfl, fun _ => rfl, fun _ => rfl, fun _ => rfl⟩
  | counting inner n ih => exact (forwards_inner inner n).trans ih

theorem index_insert (key : Key) (core : ClauseSet) :
    (p.insert key core).index = p.index.insert key core := by
  induction p with
  | plain i => rfl
  | counting inner n ih => exact ih

theorem depth_insert (key : Key) (core : ClauseSet) : (p.insert key core).depth = p.depth := by
  induction p with
  | plain i => rfl
  | counting inner n ih => exact congrArg (· + 1) ih

theorem index_drop (consumed : Nat) : (p.drop consumed).1.index = p.index := by
  induction p with
  | plain i => rfl
  | counting inner n ih => exact ih

theorem depth_drop (consumed : Nat) : (p.drop consumed).1.depth = p.depth := by
  induction p with
  | plain i => rfl
  | counting inner n ih => exact congrArg (· + 1) ih

theorem events_drop (consumed : Nat) :
    (p.drop consumed).2 = List.replicate p.depth (.candidatesConsumed p.name consumed) := by
  induction p with
  | plain i => rfl
  | counting inner n ih => exact congrArg _ ih

end CandidateIndex

end CoreReuse
