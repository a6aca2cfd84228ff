import CoreReuse.Random.Draw
import Std.Data.TreeMap

/-!
Sampling positions without replacement: a shuffle that is only carried out as far as positions are
taken, and that remembers which position now sits where instead of moving anything.
-/

namespace CoreReuse

structure Shuffle where
  next : Nat := 0
  displaced : Std.TreeMap Nat Nat := ∅

namespace Shuffle

def occupant (s : Shuffle) (position : Nat) : Nat := s.displaced.getD position position

def pick (s : Shuffle) (chosen : Nat) : Nat × Shuffle :=
  (s.occupant chosen, ⟨s.next + 1, s.displaced.insert chosen (s.occupant s.next)⟩)

def picks : List Nat → Shuffle → List Nat
  | [], _ => []
  | c :: cs, s => (s.pick c).1 :: picks cs (s.pick c).2

@[simp] theorem length_picks (cs : List Nat) (s : Shuffle) : (picks cs s).length = cs.length := by
  induction cs generalizing s with
  | nil => rfl
  | cons c cs ih => simp [picks, ih]

end Shuffle

namespace Sample

variable {γ : Type} [WordSource γ]

def draws (size : Nat) : Nat → Nat → γ → List Nat
  | 0, _, _ => []
  | n + 1, front, g =>
    let (c, g) := Draw.range front size g
    c :: draws size n (front + 1) g

@[simp] theorem length_draws (size n front : Nat) (g : γ) :
    (draws size n front g).length = n := by
  induction n generalizing front g with
  | zero => rfl
  | succ n ih => simp [draws, ih]

def positions (limit size : Nat) (g : γ) : List Nat :=
  Shuffle.picks (draws size (min limit size) 0 g) {}

@[simp] theorem length_positions (limit size : Nat) (g : γ) :
    (positions limit size g).length = min limit size := by
  simp [positions]

end Sample

end CoreReuse
