import CoreReuse.Matching.Assignment
import CoreReuse.Matching.Joining
import CoreReuse.Matching.Verbatim

namespace CoreReuse

inductive Tester where
  | simple
  | full
  | fullOpt
deriving DecidableEq, Repr, Inhabited

namespace Tester

def all : List Tester := [simple, full, fullOpt]

def name : Tester → String
  | simple => "simple"
  | full => "full"
  | fullOpt => "fullopt"

def ofName? (s : String) : Option Tester := all.find? (·.name == s)

def «matches» {π : Type} [PollSource π] (t : Tester) (core query : ClauseSet) : Search π Bool :=
  match t with
  | simple => Verbatim.«matches» core query
  | full => Assignment.«matches» core query
  | fullOpt => Joining.«matches» core query

end Tester

end CoreReuse
