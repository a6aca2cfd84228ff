import CoreReuse.Fault
import CoreReuse.Random.Sample

namespace CoreReuse

structure DrawSource (γ : Type) where
  draw : Nat → Nat → γ → Nat × γ
  mem : ∀ {low high : Nat}, low < high → ∀ g, low ≤ (draw low high g).1 ∧ (draw low high g).1 < high

namespace DrawSource

variable {γ : Type}

def ofWords [WordSource γ] : DrawSource γ := ⟨Draw.range, Draw.range_mem⟩

def scripted : DrawSource (List Nat) where
  draw low high cs :=
    (if low ≤ cs.headD low ∧ cs.headD low < high then cs.headD low else low, cs.tail)
  mem h cs := by
    split
    · assumption
    · exact ⟨Nat.le_refl _, h⟩

def draws (d : DrawSource γ) (size : Nat) : Nat → Nat → γ → List Nat
  | 0, _, _ => []
  | n + 1, front, g =>
    let (c, g) := d.draw front size g
    c :: d.draws size n (front + 1) g

@[simp] theorem length_draws (d : DrawSource γ) (size n front : Nat) (g : γ) :
    (d.draws size n front g).length = n := by
  induction n generalizing front g with
  | zero => rfl
  | succ n ih => simp [draws, ih]

theorem draws_ofWords [WordSource γ] (size n front : Nat) (g : γ) :
    (ofWords : DrawSource γ).draws size n front g = Sample.draws size n front g := by
  induction n generalizing front g with
  | zero => rfl
  | succ n ih => exact congrArg (_ :: ·) (ih _ _)

end DrawSource

structure Sampler (α γ : Type) where
  values : List α
  limit : Nat
  shuffle : Shuffle := {}
  source : γ

namespace Sampler

variable {α γ : Type}

def openAt (limit : Nat) (values : List α) (source : γ) : Sampler α γ where
  values
  limit := min limit values.length
  source

def pick (d : DrawSource γ) (s : Sampler α γ) : Nat × Sampler α γ :=
  let (chosen, source) := d.draw s.shuffle.next s.values.length s.source
  let (position, shuffle) := s.shuffle.pick chosen
  (position, { s with shuffle, source })

def next (d : DrawSource γ) (s : Sampler α γ) : Except Fault (Option α × Sampler α γ) :=
  if s.limit ≤ s.shuffle.next then return (none, s)
  else if s.values.length ≤ s.shuffle.next then throw .emptyRange
  else return (s.values[(s.pick d).1]?, (s.pick d).2)

def sizeHint (s : Sampler α γ) : Except Fault Nat :=
  if s.limit < s.shuffle.next then throw .overdrawn else return s.limit - s.shuffle.next

def take (d : DrawSource γ) : Nat → Sampler α γ → Except Fault (List α)
  | 0, _ => return []
  | n + 1, s => do
    match ← s.next d with
    | (none, _) => return []
    | (some value, s) => return value :: (← s.take d n)

end Sampler

end CoreReuse
