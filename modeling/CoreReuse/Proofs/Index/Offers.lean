import CoreReuse.Index.Checked
import CoreReuse.Proofs.Samplers
import CoreReuse.Proofs.Index.Levels

namespace CoreReuse

namespace FlatKind

variable {α : Type} {k : FlatKind} {n seed : UInt64} {key : Key} {entries : List (Key × α)}

theorem filterMap_range_getElem? (values : List α) :
    ((List.range values.length).filterMap fun i => values[i]?) = values := by
  apply Sampler.filterMap_eq_of_map_eq
  apply List.ext_getElem
  · simp
  · simp

theorem offered_of_select (h : k.select seed key (entries.map (·.1)) = List.range entries.length) :
    k.offered seed key entries = entries.map (·.2) := by
  have hvalues := filterMap_range_getElem? (entries.map (·.2))
  rw [List.length_map] at hvalues
  simp only [offered, selectAmong, h, List.getElem?_toArray, hvalues]

theorem offered_list : list.offered seed key entries = entries.map (·.2) := by
  apply offered_of_select
  rw [select, List.length_map]

theorem offered_bloom_of_none (h : key.bits? n.toNat = none) :
    (bloom n).offered seed key entries = entries.map (·.2) := by
  apply offered_of_select
  rw [select, h, List.length_map]

theorem select_bloom_of_some {missing : Bits} {keys : List Key} (h : key.bits? n.toNat = some missing) :
    (bloom n).select seed key keys =
      keys.zipIdx.filterMap fun e => if Offer.spares missing e.1 then some e.2 else none := by
  simp only [select, h]
  apply List.filterMap_congr
  rintro ⟨stored, i⟩ -
  cases stored <;> rfl

theorem offered_bloom_of_some {missing : Bits} (h : key.bits? n.toNat = some missing) :
    (bloom n).offered seed key entries =
      (entries.filter fun e => Offer.spares missing e.1).map (·.2) := by
  simp only [offered, selectAmong, select_bloom_of_some h, List.zipIdx_map, List.filterMap_map,
    List.filterMap_filterMap, List.getElem?_toArray, List.getElem?_map, Function.comp_def, Prod.map]
  -- Each position leads back to its own entry.
  have hback : ∀ e ∈ entries.zipIdx,
      ((if Offer.spares missing e.1.1 then some (id e.2) else none).bind
        fun i => entries[i]?.map fun e : Key × α => e.2) =
        (Option.guard (fun e : Key × α => Offer.spares missing e.1) e.1).map fun e => e.2 := by
    rintro ⟨e, i⟩ he
    by_cases hd : Offer.spares missing e.1
    · simp [Option.guard, hd, List.mem_zipIdx_iff_getElem?.mp he]
    · simp [Option.guard, hd]
  rw [List.filterMap_congr hback, ← List.filterMap_eq_filter, List.map_filterMap]
  conv_rhs => rw [← List.zipIdx_map_fst 0 entries, List.filterMap_map]
  rfl

theorem offered_handles : k.offered seed key (handles entries) = k.selectAmong seed key entries := by
  have hkeys : (handles entries).map (·.1) = entries.map (·.1) := by
    conv_rhs => rw [← List.zipIdx_map_fst 0 entries, List.map_map]
    exact List.map_map
  have hvalues : (handles entries).map (·.2) = List.range entries.length := by
    rw [List.range_eq_range', ← List.zipIdx_map_snd 0 entries]
    exact List.map_map
  have hback : ∀ i ∈ k.selectAmong seed key entries, (List.range entries.length)[i]? = some i := by
    intro i hi
    exact List.getElem?_range (lt_of_mem_selectAmong hi)
  rw [offered, selectAmong, hkeys, hvalues]
  simp only [List.getElem?_toArray]
  exact (List.filterMap_congr hback).trans List.filterMap_some

end FlatKind

def Hint.Bounds (h : Hint) (n : Nat) : Prop := h.least ≤ n ∧ ∀ most ∈ h.most, n ≤ most

namespace Offer

variable {α : Type} {o : Offer α} {vs : List α}

def Gives : Offer α → List α → Prop
  | all values, vs => values = vs
  | sieved missing entries, vs => (entries.filter fun e => spares missing e.1).map (·.2) = vs
  | sampled s, vs => s.Sound ∧ vs.map some = (s.ahead .ofWords).map (s.values[·]?)

theorem gives_openAt (k : FlatKind) (seed : UInt64) (key : Key) (entries : List (Key × α)) :
    (openAt k seed key entries).Gives (k.offered seed key entries) := by
  cases k with
  | list => exact FlatKind.offered_list.symm
  | random candidates => exact ⟨Sampler.sound_openAt _ _ _, Sampler.map_some_offered _ _ _ _⟩
  | bloom nbits =>
    cases h : key.bits? nbits.toNat with
    | none =>
      rw [FlatKind.offered_bloom_of_none h, openAt]
      simp only [h]
      rfl
    | some missing =>
      rw [FlatKind.offered_bloom_of_some h, openAt]
      simp only [h]
      rfl

theorem next_sieved (missing : Bits) (entries : List (Key × α)) :
    let vs := (entries.filter fun e => spares missing e.1).map (·.2)
    ∃ o', (sieved missing entries).next = .ok (vs.head?, o') ∧ o'.Gives vs.tail := by
  induction entries with
  | nil => exact ⟨_, rfl, rfl⟩
  | cons e entries ih =>
    by_cases h : spares missing e.1
    · simp only [next, List.filter_cons, List.dropWhile_cons, h]
      exact ⟨_, rfl, rfl⟩
    · simp only [next, List.filter_cons, List.dropWhile_cons, h]
      exact ih

theorem next_sampled {s : Sampler α Generator} (h : (sampled s).Gives vs) :
    ∃ o', (sampled s).next = .ok (vs.head?, o') ∧ o'.Gives vs.tail := by
  obtain ⟨hs, hvs⟩ := h
  by_cases hnext : s.shuffle.next < s.limit
  · obtain ⟨value, hvalue, heq⟩ := hs.next_of_lt (d := .ofWords) hnext
    rw [Sampler.ahead_eq_cons hnext, List.map_cons, hvalue] at hvs
    obtain ⟨v, rest, rfl, hv, hrest⟩ := List.map_eq_cons_iff.mp hvs
    obtain rfl := Option.some.inj hv
    refine ⟨sampled (s.pick .ofWords).2, ?_, (hs.pick hnext).2, hrest⟩
    rw [next, heq]
    rfl
  · have hnil : s.ahead .ofWords = [] := by
      rw [Sampler.ahead, show s.limit - s.shuffle.next = 0 by omega]
      rfl
    rw [hnil] at hvs
    obtain rfl := List.map_eq_nil_iff.mp hvs
    refine ⟨sampled s, ?_, hs, by rw [hnil]; rfl⟩
    rw [next, Sampler.next_of_le (by omega)]
    rfl

theorem Gives.next (h : o.Gives vs) : ∃ o', o.next = .ok (vs.head?, o') ∧ o'.Gives vs.tail := by
  cases o with
  | all values =>
    obtain rfl := h
    cases values with
    | nil => exact ⟨_, rfl, rfl⟩
    | cons value values => exact ⟨_, rfl, rfl⟩
  | sieved missing entries =>
    obtain rfl := h
    exact next_sieved missing entries
  | sampled s => exact next_sampled h

theorem Gives.hint (h : o.Gives vs) : ∃ hint, o.hint = .ok hint ∧ hint.Bounds vs.length := by
  cases o with
  | all values =>
    obtain rfl := h
    exact ⟨_, rfl, Nat.le_refl _, by simp⟩
  | sieved missing entries =>
    obtain rfl := h
    refine ⟨_, rfl, Nat.zero_le _, ?_⟩
    simpa using List.length_filter_le _ entries
  | sampled s =>
    have hlength : vs.length = (s.ahead .ofWords).length := by
      simpa using congrArg List.length h.2
    refine ⟨⟨vs.length, some vs.length⟩, ?_, Nat.le_refl _, by simp⟩
    rw [Offer.hint, h.1.sizeHint_eq .ofWords, hlength]
    rfl

theorem Gives.drain (h : o.Gives vs) : o.drain = .ok vs := by
  induction vs generalizing o with
  | nil =>
    obtain ⟨o', hnext, -⟩ := h.next
    rw [Offer.drain]
    split
    · next heq => cases hnext.symm.trans heq
    · rfl
    · next heq => cases hnext.symm.trans heq
  | cons v vs ih =>
    obtain ⟨o', hnext, ho⟩ := h.next
    rw [Offer.drain]
    split
    · next heq => cases hnext.symm.trans heq
    · next heq => cases hnext.symm.trans heq
    · next heq =>
      cases hnext.symm.trans heq
      rw [ih ho]
      rfl

end Offer

end CoreReuse
