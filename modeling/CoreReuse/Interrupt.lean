/-!
Interrupts tell long searches when to stop: when their token is cancelled or their deadline has
passed. A search polls once per step. The clock is read only at every 64th poll, and once it was
seen past the deadline the interrupt stays fired.
-/

namespace CoreReuse

inductive Interrupted where
  | interrupted
deriving DecidableEq, Repr

structure Token where
  own : Bool := false
  parent : Bool := false
deriving DecidableEq, Repr

def Token.isCancelled (t : Token) : Bool := t.own || t.parent

def clockInterval : UInt32 := 64

structure Interrupt where
  token : Token := {}
  deadline : Option Nat := none
  polls : UInt32 := 0
  expired : Bool := false
deriving Repr

namespace Interrupt

def none : Interrupt := {}

def readsClock (i : Interrupt) : Bool :=
  !i.expired && !i.token.isCancelled && i.deadline.isSome && i.polls % clockInterval == 0

def poll (i : Interrupt) (now : Nat) : Bool × Interrupt :=
  if i.expired || i.token.isCancelled then
    (true, i)
  else
    match i.deadline with
    | .none => (false, i)
    | some deadline =>
      let next := { i with polls := i.polls + 1 }
      if i.polls % clockInterval = 0 && deadline ≤ now then (true, { next with expired := true })
      else (false, next)

theorem poll_of_cancelled {i : Interrupt} (h : i.token.isCancelled = true) (now : Nat) :
    i.poll now = (true, i) := by
  simp [poll, h]

theorem poll_of_expired {i : Interrupt} (h : i.expired = true) (now : Nat) :
    i.poll now = (true, i) := by
  simp [poll, h]

def pollMany (now : Nat) : Nat → Interrupt → List Bool × Interrupt
  | 0, i => ([], i)
  | n + 1, i =>
    let (fired, i) := i.poll now
    let (rest, i) := pollMany now n i
    (fired :: rest, i)

end Interrupt

class PollSource (π : Type) where
  poll : π → Bool × π

structure Watch where
  interrupt : Interrupt := {}
  now : Nat := 0

instance : PollSource Watch where
  poll w :=
    let (fired, interrupt) := w.interrupt.poll w.now
    (fired, { w with interrupt })

structure PollStream where
  answers : Nat → Bool
  polls : Nat := 0

instance : PollSource PollStream where
  poll s := (s.answers s.polls, { s with polls := s.polls + 1 })

end CoreReuse
