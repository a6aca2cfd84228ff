import CoreReuse.Index.Store

/-!
Candidates taken one at a time while the store may grow. The values of a flat level are those it
held when the cursor was opened. A composite level fixes which inner stores it will visit, but opens
each of them only when it gets there.
-/

namespace CoreReuse

structure Visit (γ : Type) where
  pending : List Nat
  key : Key
  current : Option (Nat × γ) := none

def Cursor : List FlatKind → Type
  | [] => List ClauseSet
  | _ :: rest => Visit (Cursor rest)

namespace Visit

variable {γ σ : Type}

def advance (key : Key) (openAt : σ → γ) (pull : σ → γ → Option ClauseSet × γ) (inners : List σ) :
    List Nat → Option ClauseSet × Visit γ
  | [] => (none, ⟨[], key, none⟩)
  | i :: pending =>
    match inners[i]? with
    | none => advance key openAt pull inners pending
    | some store =>
      match pull store (openAt store) with
      | (some value, cursor) => (some value, ⟨pending, key, some (i, cursor)⟩)
      | (none, _) => advance key openAt pull inners pending

def next (openAt : σ → γ) (pull : σ → γ → Option ClauseSet × γ) (inners : List σ) (v : Visit γ) :
    Option ClauseSet × Visit γ :=
  let onward := advance v.key openAt pull inners v.pending
  match v.current with
  | none => onward
  | some (i, cursor) =>
    match inners[i]? with
    | none => onward
    | some store =>
      match pull store cursor with
      | (some value, cursor) => (some value, { v with current := some (i, cursor) })
      | (none, _) => onward

end Visit

namespace Cursor

def openAt (seed : UInt64) (k : FlatKind) : (rest : List FlatKind) → Key → Store rest → Cursor rest
  | [], key, store => Store.candidates seed k [] key store
  | _ :: _, key, (_, inners) =>
    { pending := k.selectAmong seed key.split.1 inners, key := key.split.2 }

def pull (seed : UInt64) : (rest : List FlatKind) → Store rest → Cursor rest →
    Option ClauseSet × Cursor rest
  | [], _, [] => (none, ([] : List ClauseSet))
  | [], _, core :: cores => (some core, (cores : List ClauseSet))
  | next :: rest, (_, inners), visit =>
    Visit.next (openAt seed next rest (Visit.key visit)) (pull seed rest) (inners.map (·.2)) visit

def pullMany (seed : UInt64) (rest : List FlatKind) (store : Store rest) :
    Nat → Cursor rest → List ClauseSet × Cursor rest
  | 0, c => ([], c)
  | n + 1, c =>
    match pull seed rest store c with
    | (none, c) => ([], c)
    | (some core, c) =>
      let (cores, c) := pullMany seed rest store n c
      (core :: cores, c)

end Cursor

end CoreReuse
