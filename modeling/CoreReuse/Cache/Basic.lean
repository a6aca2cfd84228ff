import CoreReuse.ClauseSet
import CoreReuse.Interrupt
import CoreReuse.Trace

namespace CoreReuse

structure Report where
  layer : Nat
  query : ClauseSet
  hit : Bool

structure Outcome (κ π : Type) where
  answer : Except Interrupted Bool
  cache : κ
  source : π
  events : List Trace.Event := []
  reports : List Report := []

def Outcome.map {κ ρ π : Type} (o : Outcome κ π) (f : κ → ρ) : Outcome ρ π :=
  { o with cache := f o.cache }

class UnsatCache (κ : Type) where
  add : κ → ClauseSet → κ × List Trace.Event
  check : {π : Type} → [PollSource π] → κ → ClauseSet → π → Outcome κ π

end CoreReuse
