import CoreReuse.Random.ChaCha
import CoreReuse.Word

namespace CoreReuse

class WordSource (γ : Type) where
  next : γ → UInt64 × γ

structure Generator where
  key : Vector UInt32 8
  counter : UInt64 := 0
  ready : List UInt64 := []

namespace Generator

def ofSeed (seed : UInt64) : Generator where
  key := ChaCha.keyOfSeed seed

def next (g : Generator) : UInt64 × Generator :=
  match g.ready with
  | w :: ready => (w, { g with ready })
  | [] =>
    match ChaCha.pairs (ChaCha.block g.key g.counter).toList with
    | w :: ready => (w, { g with counter := g.counter + 1, ready })
    | [] => (0, g)

instance : WordSource Generator := ⟨next⟩

end Generator

namespace Draw

variable {γ : Type} [WordSource γ]

def zone (bound : Nat) : Nat := (bound <<< (63 - bound.log2)) - 1

def maxRejections : Nat := 1000

def below (bound : Nat) : Nat → γ → Nat × γ
  | 0, g =>
    let (w, g) := WordSource.next g
    (w.toNat * bound / wordLimit, g)
  | n + 1, g =>
    let (w, g) := WordSource.next g
    if w.toNat * bound % wordLimit ≤ zone bound then (w.toNat * bound / wordLimit, g)
    else below bound n g

theorem scaled_lt (w : UInt64) {bound : Nat} (h : 0 < bound) :
    w.toNat * bound / wordLimit < bound := by
  rw [Nat.div_lt_iff_lt_mul wordLimit_pos, Nat.mul_comm]
  exact Nat.mul_lt_mul_of_pos_left (toNat_lt_wordLimit w) h

theorem below_lt {bound : Nat} (h : 0 < bound) (n : Nat) (g : γ) : (below bound n g).1 < bound := by
  induction n generalizing g with
  | zero => exact scaled_lt _ h
  | succ n ih =>
    simp only [below]
    split
    · exact scaled_lt _ h
    · exact ih _

/-- The generator that this follows rejects words without a limit. With this one the numbers differ
after that many rejections in a row, of which each has a chance of at most one half. -/
def range (low high : Nat) (g : γ) : Nat × γ :=
  let (x, g) := below (high - low) maxRejections g
  (low + x, g)

theorem range_mem {low high : Nat} (h : low < high) (g : γ) :
    low ≤ (range low high g).1 ∧ (range low high g).1 < high := by
  have := below_lt (Nat.sub_pos_of_lt h) maxRejections g
  simp only [range]
  omega

end Draw

end CoreReuse
