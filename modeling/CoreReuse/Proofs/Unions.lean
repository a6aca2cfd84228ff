import CoreReuse.Proofs.Unguarded

namespace CoreReuse.Unifier

open Term

variable {s b t u : Renaming} {l r : Term}

theorem carries_of_fresh? (ht : fresh? l r = some t) (τ : Decl → Decl) :
    t.AgreesWith τ ↔ Carries {} τ l r := by
  have hl := (extended_of_extend? (b := ∅) ht).least τ
  simpa using hl

theorem not_carries_of_fresh? (h : fresh? l r = none) (τ : Decl → Decl) : ¬ Carries {} τ l r :=
  not_carries_of_extend? (b := ∅) h (Renaming.agreesWith_empty τ)

theorem agreesWith_union (ht : fresh? l r = some t) (hu : Renaming.join s t = some u)
    (τ : Decl → Decl) : u.AgreesWith τ ↔ s.AgreesWith τ ∧ Carries {} τ l r := by
  rw [Renaming.agreesWith_join hu, carries_of_fresh? ht]

theorem exists_union_of_extend? (hb : extend? s l r = some b) :
    ∃ t u, fresh? l r = some t ∧ Renaming.join s t = some u := by
  obtain ⟨hs, hc⟩ := ((extended_of_extend? hb).least _).mp b.agreesWith_total
  cases ht : fresh? l r with
  | none => exact absurd hc (not_carries_of_fresh? ht _)
  | some t =>
    cases hu : Renaming.join s t with
    | none => exact absurd ((carries_of_fresh? ht _).mpr hc) (Renaming.not_agreesWith_of_join hu hs)
    | some u => exact ⟨t, u, rfl, hu⟩

theorem exists_extend?_of_union (ht : fresh? l r = some t) (hu : Renaming.join s t = some u) :
    ∃ b, extend? s l r = some b ∧ (b == u) = true := by
  cases hb : extend? s l r with
  | none =>
    obtain ⟨hs, hc⟩ := (agreesWith_union ht hu _).mp u.agreesWith_total
    exact absurd hc (not_carries_of_extend? hb hs)
  | some b =>
    refine ⟨b, rfl, Renaming.beq_of_agreesWith_iff fun τ => ?_⟩
    rw [(extended_of_extend? hb).least, agreesWith_union ht hu]

theorem unify_iff_join (s : Renaming) (l r : Term) :
    let out := unify {} l r { bindings := s }
    (out.1 = true ↔ ∃ t u, fresh? l r = some t ∧ Renaming.join s t = some u) ∧
      ∀ t u, fresh? l r = some t → Renaming.join s t = some u → (out.2.bindings == u) = true := by
  intro out
  have hout : ∀ b, extend? s l r = some b ↔ out.1 = true ∧ out.2.bindings = b := by
    intro b
    rw [extend?_eq_some_iff]
    constructor
    · rintro ⟨v, hv, rfl⟩
      exact ⟨congrArg Prod.fst hv, congrArg (fun p => p.2.bindings) hv⟩
    · rintro ⟨hok, rfl⟩
      exact ⟨out.2, Prod.ext hok rfl, rfl⟩
  refine ⟨⟨fun hok => exists_union_of_extend? ((hout _).mpr ⟨hok, rfl⟩), ?_⟩, ?_⟩
  · rintro ⟨t, u, ht, hu⟩
    obtain ⟨b, hb, -⟩ := exists_extend?_of_union ht hu
    exact ((hout b).mp hb).1
  · intro t u ht hu
    obtain ⟨b, hb, he⟩ := exists_extend?_of_union ht hu
    rw [((hout b).mp hb).2]
    exact he

end CoreReuse.Unifier
