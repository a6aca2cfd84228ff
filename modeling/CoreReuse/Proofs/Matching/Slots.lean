import CoreReuse.Matching.Joining
import Mathlib.Data.List.Nodup

namespace CoreReuse.Joining.Slots

structure Filled (s : Slots) : Prop where
  distinct : (s.heap.map Prod.snd).Nodup
  filled : ∀ e ∈ s.heap, (s.get e.2).isSome

def Holds (s : Slots) (set : List Renaming) : Prop := ∃ e ∈ s.heap, s.get e.2 = some set

def Leaves (s : Slots) : Next → Prop
  | .nothing => ∀ x, ¬ s.Holds x
  | .last _ => ∃ set, ∀ x, s.Holds x ↔ x = set
  | .pair left right rest => rest.Filled ∧ ∀ x, s.Holds x ↔ x = left ∨ x = right ∨ rest.Holds x
  | .taken => False

inductive Reached (sets : List (List Renaming)) : Slots → Prop where
  | start : Reached sets (ofSets sets)
  | join {s rest : Slots} {left right : List Renaming} (joined : List Renaming) : Reached sets s →
      s.next = .pair left right rest → Reached sets (rest.push joined)

variable {s : Slots} {set x : List Renaming}

theorem insert_perm (e : Nat × Nat) (fs : List (Nat × Nat)) : (insert e fs).Perm (e :: fs) := by
  induction fs with
  | nil => exact .refl _
  | cons f fs ih =>
    rw [insert]
    split
    · exact (ih.cons f).trans (.swap e f fs)
    · exact .refl _

theorem mem_insert {e f : Nat × Nat} {fs : List (Nat × Nat)} : f ∈ insert e fs ↔ f = e ∨ f ∈ fs :=
  (insert_perm e fs).mem_iff.trans List.mem_cons

theorem lt_of_get_isSome {slot : Nat} (h : (s.get slot).isSome) : slot < s.sets.size := by
  by_contra hn
  rw [get, Array.getElem?_eq_none (Nat.not_lt.mp hn)] at h
  cases h

theorem get_push_of_lt {slot : Nat} (h : slot < s.sets.size) :
    (s.push set).get slot = s.get slot := by
  rw [get, push, Array.getElem?_push_lt h, ← Array.getElem?_eq_getElem h, get]

@[simp] theorem get_push_size : (s.push set).get s.sets.size = some set := by
  simp [get, push]

theorem get_clear_of_ne {slot other : Nat} (h : other ≠ slot) : (s.clear other).get slot = s.get slot := by
  rw [get, clear, Array.getElem?_setIfInBounds_ne h, get]

namespace Filled

theorem lt (h : s.Filled) {e : Nat × Nat} (he : e ∈ s.heap) : e.2 < s.sets.size :=
  lt_of_get_isSome (h.filled e he)

theorem push (h : s.Filled) : (s.push set).Filled where
  distinct := by
    have hp := (insert_perm (set.length, s.sets.size) s.heap).map Prod.snd
    have hn : s.sets.size ∉ s.heap.map Prod.snd := by
      intro hm
      obtain ⟨e, he, heq⟩ := List.mem_map.mp hm
      have := h.lt he
      omega
    exact hp.nodup_iff.mpr (List.nodup_cons.mpr ⟨hn, h.distinct⟩)
  filled e he := by
    rcases mem_insert.mp he with rfl | he
    · simp
    · rw [get_push_of_lt (h.lt he)]
      exact h.filled e he

theorem holds_push (h : s.Filled) : (s.push set).Holds x ↔ x = set ∨ s.Holds x := by
  have hs : ∀ e ∈ s.heap, (s.push set).get e.2 = s.get e.2 := fun e he => get_push_of_lt (h.lt he)
  constructor
  · rintro ⟨e, he, hx⟩
    rcases mem_insert.mp he with rfl | he
    · rw [get_push_size] at hx
      exact .inl (Option.some.inj hx).symm
    · exact .inr ⟨e, he, hs e he ▸ hx⟩
  · rintro (rfl | ⟨e, he, hx⟩)
    · exact ⟨_, mem_insert.mpr (.inl rfl), get_push_size⟩
    · exact ⟨e, mem_insert.mpr (.inr he), (hs e he).trans hx⟩

theorem leaves_next (h : s.Filled) : s.Leaves s.next := by
  obtain ⟨hd, hf⟩ := h
  rcases hh : s.heap with _ | ⟨e, _ | ⟨f, heap⟩⟩
  · have hn : s.next = .nothing := by simp only [next, hh]
    rw [hn]
    exact fun x => by simp [Holds, hh]
  · obtain ⟨set, hset⟩ := Option.isSome_iff_exists.mp (hf e (by simp [hh]))
    have hn : s.next = .last ((s.get e.2).elim 0 List.length) := by simp only [next, hh]
    rw [hn]
    exact ⟨set, fun x => by simp [Holds, hh, hset, eq_comm]⟩
  · rw [hh] at hd hf
    simp only [List.map_cons, List.nodup_cons, List.mem_cons, not_or] at hd
    obtain ⟨⟨hef, heh⟩, hfh, hd⟩ := hd
    obtain ⟨left, hl⟩ := Option.isSome_iff_exists.mp (hf e (by simp))
    obtain ⟨right, hr⟩ := Option.isSome_iff_exists.mp (hf f (by simp))
    have hr' : (s.clear e.2).get f.2 = some right := (get_clear_of_ne hef).trans hr
    have hg : ∀ g ∈ heap, ((s.clear e.2).clear f.2).get g.2 = s.get g.2 := by
      intro g hg
      have hm : g.2 ∈ heap.map Prod.snd := List.mem_map_of_mem hg
      have hfg : f.2 ≠ g.2 := fun hn => hfh (by rwa [hn])
      have heg : e.2 ≠ g.2 := fun hn => heh (by rwa [hn])
      rw [get_clear_of_ne hfg, get_clear_of_ne heg]
    have hn : s.next = .pair left right { (s.clear e.2).clear f.2 with heap } := by
      simp only [next, hh, hl, hr']
    rw [hn]
    refine ⟨⟨hd, ?_⟩, fun x => ?_⟩
    · intro g hm
      have := hf g (by simp [hm])
      rwa [← hg g hm] at this
    · have hc : (∃ g ∈ heap, s.get g.2 = some x) ↔
          ∃ g ∈ heap, ((s.clear e.2).clear f.2).get g.2 = some x := by
        refine exists_congr fun g => and_congr_right fun hm => ?_
        rw [hg g hm]
      simp only [Holds, hh, List.mem_cons, exists_eq_or_imp, hl, hr, hc, Option.some.injEq]
      rw [@eq_comm _ left, @eq_comm _ right]
      exact Iff.rfl

end Filled

theorem filled_ofSets (sets : List (List Renaming)) :
    (ofSets sets).Filled ∧ ∀ x, (ofSets sets).Holds x ↔ x ∈ sets := by
  have h : ∀ (s : Slots), s.Filled → (sets.foldl push s).Filled ∧
      ∀ x, (sets.foldl push s).Holds x ↔ s.Holds x ∨ x ∈ sets := by
    induction sets with
    | nil => exact fun s hs => ⟨hs, by simp⟩
    | cons set sets ih =>
      intro s hs
      obtain ⟨h1, h2⟩ := ih (s.push set) hs.push
      refine ⟨h1, fun x => ?_⟩
      rw [List.foldl_cons, h2, hs.holds_push, List.mem_cons, or_assoc, or_left_comm]
  have he : Filled {} := ⟨by simp, by simp⟩
  obtain ⟨h1, h2⟩ := h {} he
  refine ⟨h1, fun x => ?_⟩
  rw [ofSets, h2]
  simp [Holds]

variable {sets : List (List Renaming)}

theorem Reached.filled (h : Reached sets s) : s.Filled := by
  induction h with
  | start => exact (filled_ofSets sets).1
  | join joined _ hn ih =>
    have hl := ih.leaves_next
    rw [hn] at hl
    exact hl.1.push

theorem Reached.next_ne_taken (h : Reached sets s) : s.next ≠ .taken := by
  intro hn
  have hl := h.filled.leaves_next
  rwa [hn] at hl

end CoreReuse.Joining.Slots
