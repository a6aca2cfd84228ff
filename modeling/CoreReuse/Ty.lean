namespace CoreReuse

inductive Ty where
  | bool
  | int
  | real
  | bitVec (width : UInt32)
  | array (index element : Ty)
  | uninterpreted (name : String)
deriving DecidableEq, Repr, Inhabited

namespace Ty

open Std

def isBool : Ty → Bool
  | bool => true
  | _ => false

@[simp] theorem isBool_iff (t : Ty) : t.isBool = true ↔ t = bool := by
  cases t <;> simp [isBool]

def toString : Ty → String
  | bool => "Bool"
  | int => "Int"
  | real => "Real"
  | bitVec width => "(_ BitVec " ++ ToString.toString width.toNat ++ ")"
  | array index element => "(Array " ++ index.toString ++ " " ++ element.toString ++ ")"
  | uninterpreted name => name

instance : ToString Ty := ⟨toString⟩

def rank : Ty → Nat
  | bool => 0
  | int => 1
  | real => 2
  | bitVec _ => 3
  | array _ _ => 4
  | uninterpreted _ => 5

def compare : Ty → Ty → Ordering
  | bitVec w, bitVec v => Ord.compare w v
  | array i e, array j f => (i.compare j).then (e.compare f)
  | uninterpreted m, uninterpreted n => Ord.compare m n
  | s, t => Ord.compare s.rank t.rank

instance : Ord Ty := ⟨Ty.compare⟩

theorem compare_eq_iff (s t : Ty) : s.compare t = .eq ↔ s = t := by
  induction s generalizing t with
  | array i e hi he => cases t <;> simp [compare, rank, Ordering.then_eq_eq, hi, he]
  | _ => cases t <;> simp [compare, rank]

theorem compare_swap (s t : Ty) : s.compare t = (t.compare s).swap := by
  induction s generalizing t with
  | array i e hi he =>
    cases t with
    | array j f => simp only [compare, Ordering.swap_then, ← hi, ← he]
    | _ => rfl
  | bitVec w =>
    cases t with
    | bitVec v =>
      change Ord.compare w v = (Ord.compare v w).swap
      exact OrientedCmp.eq_swap
    | _ => rfl
  | uninterpreted m =>
    cases t with
    | uninterpreted n =>
      change Ord.compare m n = (Ord.compare n m).swap
      exact OrientedCmp.eq_swap
    | _ => rfl
  | _ => cases t <;> rfl

theorem compare_of_rank_ne {s t : Ty} (h : s.rank ≠ t.rank) :
    s.compare t = Ord.compare s.rank t.rank := by
  cases s <;> cases t <;> first | exact absurd rfl h | rfl

theorem rank_le_of_isLE {s t : Ty} (h : (s.compare t).isLE) : s.rank ≤ t.rank := by
  by_cases he : s.rank = t.rank
  · exact Nat.le_of_eq he
  · rw [compare_of_rank_ne he] at h
    exact Nat.isLE_compare.mp h

theorem isLE_chain {α : Type} [Ord α] [TransOrd α] {a b c : α} (hab : (Ord.compare a b).isLE)
    (hbc : (Ord.compare b c).isLE) :
    (Ord.compare a c).isLE ∧ (Ord.compare a b = .lt → Ord.compare a c = .lt) :=
  ⟨TransCmp.isLE_trans hab hbc, fun h => TransCmp.lt_of_lt_of_isLE h hbc⟩

theorem lt_or_rank_eq {s t u : Ty} (hst : (s.compare t).isLE) (htu : (t.compare u).isLE) :
    s.compare u = .lt ∨ s.rank = t.rank ∧ s.rank = u.rank := by
  have hs := rank_le_of_isLE hst
  have ht := rank_le_of_isLE htu
  by_cases h : s.rank < u.rank
  · left
    rw [compare_of_rank_ne (Nat.ne_of_lt h), Nat.compare_eq_lt.mpr h]
  · right
    omega

theorem compare_chain (s t u : Ty) (hst : (s.compare t).isLE) (htu : (t.compare u).isLE) :
    (s.compare u).isLE ∧ (s.compare t = .lt → s.compare u = .lt) := by
  induction s generalizing t u with
  | array i e hi he =>
    rcases lt_or_rank_eq hst htu with h | ⟨ht, hu⟩
    · exact ⟨by rw [h]; rfl, fun _ => h⟩
    · cases t <;> simp only [rank] at ht <;> try contradiction
      cases u <;> simp only [rank] at hu <;> try contradiction
      simp only [compare, Ordering.isLE_then_iff_or, Ordering.then_eq_lt, compare_eq_iff]
        at hst htu ⊢
      rcases hst with hij | ⟨rfl, hef⟩
      · have hlt := (hi _ _ (by rw [hij]; rfl) (by
          rcases htu with h | ⟨rfl, _⟩
          · rw [h]; rfl
          · rw [(compare_eq_iff _ _).mpr rfl]; rfl)).2 hij
        exact ⟨.inl hlt, fun _ => .inl hlt⟩
      · rcases htu with hjk | ⟨rfl, hfg⟩
        · exact ⟨.inl hjk, fun _ => .inl hjk⟩
        · have := he _ _ hef hfg
          refine ⟨.inr ⟨rfl, this.1⟩, ?_⟩
          rintro (h | ⟨_, h⟩)
          · exact .inl h
          · exact .inr ⟨rfl, this.2 h⟩
  | _ =>
    rcases lt_or_rank_eq hst htu with h | ⟨ht, hu⟩
    · exact ⟨by rw [h]; rfl, fun _ => h⟩
    · cases t <;> simp only [rank] at ht <;> try contradiction
      cases u <;> simp only [rank] at hu <;> try contradiction
      first | exact ⟨rfl, id⟩ | exact isLE_chain hst htu

instance : TransOrd Ty where
  eq_swap := compare_swap _ _
  isLE_trans hst htu := (compare_chain _ _ _ hst htu).1

instance : LawfulEqOrd Ty where
  compare_self := (compare_eq_iff _ _).mpr rfl
  eq_of_compare := (compare_eq_iff _ _).mp

end Ty

end CoreReuse
