import CoreReuse.Matching.Work
import CoreReuse.Renaming.Targets

/-!
Matching by joining: for each core clause, the renamings that take it to a query clause with the
same hash are collected; the sets are pruned against each other and then joined, smallest first.
-/

namespace CoreReuse.Joining

variable {π : Type} [PollSource π]

def addNew (rs : List Renaming) (r : Renaming) : List Renaming :=
  if rs.any (· == r) then rs else rs ++ [r]

def renamingsTo (c : Term) : List Term → List Renaming → Search π (List Renaming)
  | [], found => return found
  | q :: qs, found => do
    Search.poll
    match ← Search.unify ∅ c q with
    | some r => renamingsTo c qs (addNew found r)
    | none => renamingsTo c qs found

def bucket (buckets : Buckets) (query : ClauseSet) (hash : UInt64) : List Term :=
  (buckets.get hash).filterMap fun i => query.clauses[i]?

def covered (buckets : Buckets) : List Term → Search π Bool
  | [] => return true
  | c :: cs => do
    let hash ← Search.hashCore c
    if buckets.contains hash then covered buckets cs else return false

def collect (buckets : Buckets) (query : ClauseSet) :
    List Term → Targets → Search π (Option (List (List Renaming) × Targets))
  | [], targets => return some ([], targets)
  | c :: cs, targets => do
    let hash ← Search.hashCore c
    let found ← renamingsTo c (bucket buckets query hash) []
    if found.isEmpty then
      return none
    else
      match targets.narrow found with
      | (false, _) => return none
      | (true, targets) =>
        match ← collect buckets query cs targets with
        | none => return none
        | some (sets, targets) => return some (found :: sets, targets)

def joinSets (left right : List Renaming) : Search π (List Renaming) :=
  left.foldlM (fun found l =>
    right.foldlM (fun found r => do
      Search.poll
      match Renaming.join l r with
      | some joined => return addNew found joined
      | none => return found) found) []

/-- The sets to be joined. Each has a slot, which is emptied when the set is taken out; the heap
holds the sizes and the slots of those that are left, least first. -/
structure Slots where
  sets : Array (Option (List Renaming)) := #[]
  heap : List (Nat × Nat) := []

namespace Slots

def insert (e : Nat × Nat) : List (Nat × Nat) → List (Nat × Nat)
  | [] => [e]
  | f :: fs => if f.1 < e.1 ∨ f.1 = e.1 ∧ f.2 ≤ e.2 then f :: insert e fs else e :: f :: fs

@[simp] theorem length_insert (e : Nat × Nat) (fs : List (Nat × Nat)) :
    (insert e fs).length = fs.length + 1 := by
  induction fs with
  | nil => rfl
  | cons f fs ih =>
    rw [insert]
    split <;> simp [ih]

def push (s : Slots) (set : List Renaming) : Slots :=
  ⟨s.sets.push (some set), insert (set.length, s.sets.size) s.heap⟩

def ofSets (sets : List (List Renaming)) : Slots := sets.foldl push {}

def get (s : Slots) (slot : Nat) : Option (List Renaming) := s.sets[slot]?.join

def clear (s : Slots) (slot : Nat) : Slots := { s with sets := s.sets.setIfInBounds slot none }

inductive Next where
  | nothing
  | last (size : Nat)
  | pair (left right : List Renaming) (rest : Slots)
  | taken

def next (s : Slots) : Next :=
  match s.heap with
  | [] => .nothing
  | [e] => .last ((s.get e.2).elim 0 List.length)
  | e :: f :: heap =>
    match s.get e.2, (s.clear e.2).get f.2 with
    | some left, some right =>
      .pair left right { (s.clear e.2).clear f.2 with heap }
    | _, _ => .taken

theorem length_heap_of_next {s rest : Slots} {left right : List Renaming}
    (h : s.next = .pair left right rest) : s.heap.length = rest.heap.length + 2 := by
  unfold next at h
  split at h
  · cases h
  · cases h
  · next hh =>
    split at h
    · cases h
      simp [hh]
    · cases h

end Slots

def joinAll (s : Slots) : Search π Bool :=
  match _h : s.next with
  | .nothing => return true
  | .last size => do
    Search.emit (.joinMatched size)
    return true
  | .pair left right rest => do
    let joined ← joinSets left right
    if joined.isEmpty then return false else joinAll (rest.push joined)
  | .taken => return false
termination_by s.heap.length
decreasing_by
  have := Slots.length_heap_of_next _h
  simp only [Slots.push, Slots.length_insert]
  omega

def matchClauses (core : List Term) (query : ClauseSet) : Search π Bool := do
  let buckets ← Search.queryBuckets query
  if ← covered buckets core then
    match ← collect buckets query core ∅ with
    | none => return false
    | some (sets, targets) =>
      let pruned := sets.map fun set => set.filter targets.allows
      if pruned.any List.isEmpty then return false else joinAll (.ofSets pruned)
  else
    return false

def «matches» (core query : ClauseSet) : Search π Bool :=
  if core.isEmpty then return true else matchClauses core.clauses query

end CoreReuse.Joining
