import CoreReuse.Index.Level
import CoreReuse.Random.Sampler

namespace CoreReuse

structure Hint where
  least : Nat
  most : Option Nat
deriving DecidableEq, Repr

inductive Offer (α : Type) where
  | all (values : List α)
  | sieved (missing : Bits) (entries : List (Key × α))
  | sampled (sampler : Sampler α Generator)

namespace Offer

variable {α : Type}

def spares (missing : Bits) : Key → Bool
  | .bits bs => missing.disjoint bs
  | _ => true

def openAt (k : FlatKind) (seed : UInt64) (key : Key) (entries : List (Key × α)) : Offer α :=
  match k with
  | .list => all (entries.map (·.2))
  | .random candidates =>
    sampled (.openAt candidates.toNat (entries.map (·.2)) (.ofSeed (FlatKind.sampleSeed seed key)))
  | .bloom nbits =>
    match key.bits? nbits.toNat with
    | none => all (entries.map (·.2))
    | some missing => sieved missing entries

def next : Offer α → Except Fault (Option α × Offer α)
  | all [] => return (none, all [])
  | all (value :: values) => return (some value, all values)
  | sieved missing entries =>
    match entries.dropWhile fun e => !spares missing e.1 with
    | [] => return (none, sieved missing [])
    | e :: entries => return (some e.2, sieved missing entries)
  | sampled s => do
    let (value, s) ← s.next .ofWords
    return (value, sampled s)

def hint : Offer α → Except Fault Hint
  | all values => return ⟨values.length, some values.length⟩
  | sieved _ entries => return ⟨0, some entries.length⟩
  | sampled s => do
    let n ← s.sizeHint
    return ⟨n, some n⟩

def left : Offer α → Nat
  | all values => values.length
  | sieved _ entries => entries.length
  | sampled s => s.limit - s.shuffle.next

theorem left_lt_of_next {o o' : Offer α} {value : α} (h : o.next = .ok (some value, o')) :
    o'.left < o.left := by
  cases o with
  | all values =>
    cases values with
    | nil => cases h
    | cons value values =>
      cases h
      exact Nat.lt_succ_self _
  | sieved missing entries =>
    have hsuffix := (List.dropWhile_suffix (fun e => !spares missing e.1) (l := entries)).length_le
    rw [next] at h
    split at h
    · cases h
    · next e rest heq =>
      cases h
      rw [heq] at hsuffix
      exact hsuffix
  | sampled s =>
    rw [next, Sampler.next] at h
    split at h
    · cases h
    · split at h
      · cases h
      · next hlimit _ =>
        obtain ⟨-, rfl⟩ := Prod.mk.inj (Except.ok.inj h)
        simp only [left, Sampler.pick, Shuffle.pick]
        omega

def drain (o : Offer α) : Except Fault (List α) :=
  match _ : o.next with
  | .error e => throw e
  | .ok (none, _) => return []
  | .ok (some value, o') => do
    let values ← o'.drain
    return value :: values
termination_by o.left
decreasing_by exact left_lt_of_next ‹_›

end Offer

end CoreReuse
