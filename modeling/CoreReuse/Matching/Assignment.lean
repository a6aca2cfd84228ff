import CoreReuse.Matching.Work

/-!
Matching by search: every assignment of query clauses to core clauses is tried, depth first, with
one renaming threaded through the core. Of the ways to place a clause the last one found is
explored first, and the search ends at the first placement of the last clause.
-/

namespace CoreReuse.Assignment

variable {π : Type} [PollSource π]

def attempt (r : Renaming) (c q : Term) : Search π (Option Renaming) := do
  Search.poll
  Search.unify r c q

def placements (r : Renaming) (c : Term) : List Term → Search π (List Renaming)
  | [] => return []
  | q :: qs => do
    let here ← attempt r c q
    let rest ← placements r c qs
    return here.toList ++ rest

def placeable (r : Renaming) (c : Term) : List Term → Search π Bool
  | [] => return false
  | q :: qs => do
    match ← attempt r c q with
    | some _ => return true
    | none => placeable r c qs

def explore (query : List Term) : List Term → Renaming → Search π Bool
  | [], _ => return true
  | [c], r => do
    let found ← placeable r c query
    if found then Search.emit .searchMatched
    return found
  | c :: d :: cs, r => do
    let next ← placements r c query
    next.reverse.anyM fun s => explore query (d :: cs) s

def «matches» (core query : ClauseSet) : Search π Bool :=
  explore query.clauses core.clauses ∅

end CoreReuse.Assignment
