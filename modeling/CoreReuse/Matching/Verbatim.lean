import CoreReuse.Matching.Work

namespace CoreReuse.Verbatim

variable {π : Type} [PollSource π]

def matchClauses (query : ClauseSet) : List Term → Search π Bool
  | [] => return true
  | c :: cs => do
    Search.poll
    if query.clauses.any (· == c) then matchClauses query cs else return false

def «matches» (core query : ClauseSet) : Search π Bool := matchClauses query core.clauses

end CoreReuse.Verbatim
