import CoreReuse.Random.Sampler
import Mathlib.Data.List.Nodup
import Mathlib.Data.List.Perm.Subperm

namespace CoreReuse

namespace Shuffle

def remaining (s : Shuffle) (size : Nat) : List Nat :=
  (List.range' s.next (size - s.next)).map s.occupant

theorem occupant_pick {s : Shuffle} {chosen position : Nat} :
    (s.pick chosen).2.occupant position =
      if chosen = position then s.occupant s.next else s.occupant position := by
  simp [pick, occupant, Std.TreeMap.getD_insert]

theorem remaining_perm_pick {s : Shuffle} {size chosen : Nat} (hn : s.next ≤ chosen)
    (hs : chosen < size) :
    (s.remaining size).Perm ((s.pick chosen).1 :: (s.pick chosen).2.remaining size) := by
  obtain ⟨k, hk⟩ : ∃ k, size - s.next = k + 1 := ⟨size - s.next - 1, by omega⟩
  have hnext : (s.pick chosen).2.next = s.next + 1 := rfl
  have hrest : size - (s.next + 1) = k := by omega
  rw [remaining, remaining, hnext, hk, hrest, List.range'_succ, List.map_cons]
  by_cases hc : chosen = s.next
  · have ho : (List.range' (s.next + 1) k).map (s.pick chosen).2.occupant =
        (List.range' (s.next + 1) k).map s.occupant := by
      apply List.map_congr_left
      intro i hi
      have := (List.mem_range'_1.mp hi).1
      rw [occupant_pick, if_neg (by omega)]
    rw [ho, hc]
    exact .refl _
  · obtain ⟨as, bs, hab⟩ := List.append_of_mem
      (List.mem_range'_1.mpr ⟨by omega, by omega⟩ : chosen ∈ List.range' (s.next + 1) k)
    have hd : (as ++ chosen :: bs).Nodup := hab ▸ List.nodup_range'
    have ho : ∀ cs : List Nat, chosen ∉ cs →
        cs.map (s.pick chosen).2.occupant = cs.map s.occupant := by
      intro cs hcs
      apply List.map_congr_left
      intro i hi
      rw [occupant_pick, if_neg (by rintro rfl; exact hcs hi)]
    have hd' := List.nodup_cons.mp (List.nodup_middle.mp hd)
    simp only [List.mem_append, not_or] at hd'
    rw [hab, List.map_append, List.map_append, List.map_cons, List.map_cons, ho as hd'.1.1,
      ho bs hd'.1.2, occupant_pick, if_pos rfl]
    refine (List.perm_middle.cons _).trans ((List.Perm.swap _ _ _).trans ?_)
    exact List.perm_middle.symm.cons _

def InRange (size front : Nat) (cs : List Nat) : Prop := ∀ e ∈ cs.zipIdx front, e.2 ≤ e.1 ∧ e.1 < size

theorem inRange_nil {size front : Nat} : InRange size front [] := nofun

theorem inRange_cons {size front c : Nat} {cs : List Nat} :
    InRange size front (c :: cs) ↔ (front ≤ c ∧ c < size) ∧ InRange size (front + 1) cs := by
  rw [InRange, List.zipIdx_cons]
  exact List.forall_mem_cons

theorem picks_subperm_remaining {size : Nat} {cs : List Nat} {s : Shuffle}
    (h : InRange size s.next cs) : (picks cs s).Subperm (s.remaining size) := by
  induction cs generalizing s with
  | nil => exact List.nil_subperm
  | cons c cs ih =>
    obtain ⟨hc, hcs⟩ := inRange_cons.mp h
    have hp := remaining_perm_pick hc.1 hc.2
    exact ((List.subperm_cons _).mpr (ih hcs)).trans hp.symm.subperm

end Shuffle

theorem Shuffle.remaining_start (size : Nat) : remaining {} size = List.range size := by
  rw [remaining, List.range_eq_range']
  exact List.map_id' _

theorem DrawSource.inRange_draws {γ : Type} (d : DrawSource γ) {size n front : Nat}
    (h : front + n ≤ size) (g : γ) : Shuffle.InRange size front (d.draws size n front g) := by
  induction n generalizing front g with
  | zero => exact Shuffle.inRange_nil
  | succ n ih => exact Shuffle.inRange_cons.mpr ⟨d.mem (by omega) g, ih (by omega) _⟩

theorem Sample.positions_subperm {γ : Type} [WordSource γ] {limit size : Nat} {g : γ} :
    (positions limit size g).Subperm (List.range size) := by
  have hle : 0 + min limit size ≤ size := by omega
  rw [positions, ← DrawSource.draws_ofWords, ← Shuffle.remaining_start]
  exact Shuffle.picks_subperm_remaining (DrawSource.ofWords.inRange_draws hle g)

theorem Sample.lt_of_mem_positions {γ : Type} [WordSource γ] {limit size i : Nat} {g : γ}
    (h : i ∈ positions limit size g) : i < size :=
  List.mem_range.mp (positions_subperm.subset h)

theorem Sample.mem_positions_of_le {γ : Type} [WordSource γ] {limit size i : Nat} {g : γ}
    (h : size ≤ limit) : i ∈ positions limit size g ↔ i < size := by
  have hp : (positions limit size g).Perm (List.range size) := by
    apply positions_subperm.perm_of_length_le
    simp [h]
  rw [hp.mem_iff, List.mem_range]

end CoreReuse
