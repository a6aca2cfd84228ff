import CoreReuse.Index.Basic

namespace CoreReuse

inductive Request where
  | add (core : ClauseSet)
  | put (key : Key) (core : ClauseSet)
  | ask (query : ClauseSet)
  | look (key : Key)
  | pull (cursor : Nat)
  | hint (cursor : Nat)
deriving Inhabited

structure Session (σ γ : Type) where
  core : Hasher
  store : σ
  cursors : List γ := []

namespace Session

def step (seed : UInt64) (k : FlatKind) (rest : List FlatKind)
    (s : Session (Store rest) (Cursor rest)) :
    Request → List (Option ClauseSet) × Session (Store rest) (Cursor rest)
  | .add core =>
    let (key, hasher) := Store.coreKey k rest s.core core
    ([], { s with core := hasher, store := Store.insert seed k rest key core s.store })
  | .put key core => ([], { s with store := Store.insert seed k rest key core s.store })
  | .ask query =>
    match (Store.queryKey k rest query).run (.start s.core ()) with
    | (.ok key, w) =>
      ([], { s with
        core := w.coreAfter
        cursors := s.cursors ++ [Cursor.openAt seed k rest key s.store] })
    | (.error _, w) => ([], { s with core := w.coreAfter })
  | .look key => ([], { s with cursors := s.cursors ++ [Cursor.openAt seed k rest key s.store] })
  | .pull i =>
    match s.cursors[i]? with
    | none => ([], s)
    | some c =>
      let (value, c) := Cursor.pull seed rest s.store c
      ([value], { s with cursors := s.cursors.set i c })
  | .hint _ => ([], s)

def run (seed : UInt64) (k : FlatKind) (rest : List FlatKind) :
    List Request → Session (Store rest) (Cursor rest) →
      List (Option ClauseSet) × Session (Store rest) (Cursor rest)
  | [], s => ([], s)
  | request :: requests, s =>
    let (answers, s) := s.step seed k rest request
    let (more, s) := run seed k rest requests s
    (answers ++ more, s)

end Session

def Index.run (i : Index) (core : Hasher) (requests : List Request) :
    List (Option ClauseSet) × Store i.inner :=
  let (answers, s) := Session.run i.seed i.outermost i.inner requests ⟨core, i.store, []⟩
  (answers, s.store)

end CoreReuse
