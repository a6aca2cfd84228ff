import CoreReuse.Matching.Tester
import CoreReuse.Proofs.Searches

namespace CoreReuse

open Search Term Renaming Hash

def Embeds (τ : Decl → Decl) (cs query : List Term) : Prop :=
  ∀ c ∈ cs, ∃ q ∈ query, Carries {} τ c q

theorem embeds_cons {τ : Decl → Decl} {c : Term} {cs query : List Term} :
    Embeds τ (c :: cs) query ↔ (∃ q ∈ query, Carries {} τ c q) ∧ Embeds τ cs query :=
  List.forall_mem_cons

/-- The plain search: one renaming is threaded through the core, no hashes are compared, and every
clause of the query is tried for every clause of the core. -/
def exhaustive (query : List Term) : List Term → Renaming → Bool
  | [], _ => true
  | c :: cs, r => query.any fun q => (Unifier.extend? r c q).any (exhaustive query cs)

def Succeeds : Renaming → List Term → List Term → Prop
  | _, [], [] => True
  | r, c :: cs, q :: qs => ∃ s, Unifier.extend? r c q = some s ∧ Succeeds s cs qs
  | _, _, _ => False

theorem exhaustive_iff_succeeds {query cs : List Term} {r : Renaming} :
    exhaustive query cs r = true ↔ ∃ qs, (∀ q ∈ qs, q ∈ query) ∧ Succeeds r cs qs := by
  induction cs generalizing r with
  | nil => exact ⟨fun _ => ⟨[], by simp, trivial⟩, fun _ => rfl⟩
  | cons c cs ih =>
    simp only [exhaustive, List.any_eq_true, Option.any_eq_true, ih]
    constructor
    · rintro ⟨q, hq, s, hs, qs, hqs, h⟩
      exact ⟨q :: qs, List.forall_mem_cons.mpr ⟨hq, hqs⟩, s, hs, h⟩
    · rintro ⟨_ | ⟨q, qs⟩, hqs, h⟩
      · exact h.elim
      · obtain ⟨s, hs, h⟩ := h
        obtain ⟨hq, hqs⟩ := List.forall_mem_cons.mp hqs
        exact ⟨q, hq, s, hs, qs, hqs, h⟩

theorem exhaustive_iff {query cs : List Term} {r : Renaming} :
    exhaustive query cs r = true ↔ ∃ τ, r.AgreesWith τ ∧ Embeds τ cs query := by
  induction cs generalizing r with
  | nil => exact ⟨fun _ => ⟨r.total, r.agreesWith_total, by simp [Embeds]⟩, fun _ => rfl⟩
  | cons c cs ih =>
    simp only [exhaustive, List.any_eq_true, Option.any_eq_true, ih, embeds_cons]
    constructor
    · rintro ⟨q, hq, s, hs, τ, hτ, he⟩
      obtain ⟨hr, hc⟩ := ((Unifier.extended_of_extend? hs).least τ).mp hτ
      exact ⟨τ, hr, ⟨q, hq, hc⟩, he⟩
    · rintro ⟨τ, hr, ⟨q, hq, hc⟩, he⟩
      cases hs : Unifier.extend? r c q with
      | none => exact absurd hc (Unifier.not_carries_of_extend? hs hr)
      | some s => exact ⟨q, hq, s, hs, τ, ((Unifier.extended_of_extend? hs).least τ).mpr ⟨hr, hc⟩, he⟩

variable {π : Type} [PollSource π] {V : Vocabulary} {m : Option Nat} {query : ClauseSet}

namespace Assignment

theorem attempt_yields {r : Renaming} {c q : Term} (hc : c ∈ V) (hq : q ∈ V) :
    Yields V m query (attempt r c q : Search π (Option Renaming)) (· = Unifier.extend? r c q) :=
  (computes_poll.bind (computes_unify hc hq)).yields

theorem reaches_toList_extend? {r : Renaming} {c q : Term} {τ : Decl → Decl} :
    Reaches (Unifier.extend? r c q).toList τ ↔ r.AgreesWith τ ∧ Carries {} τ c q := by
  cases hs : Unifier.extend? r c q with
  | none =>
    refine ⟨fun h => ?_, fun ⟨hr, hc⟩ => absurd hc (Unifier.not_carries_of_extend? hs hr)⟩
    obtain ⟨s, hs, -⟩ := h
    cases hs
  | some s => simpa [Reaches] using (Unifier.extended_of_extend? hs).least τ

theorem placements_yields {r : Renaming} {c : Term} (hc : c ∈ V) {qs : List Term}
    (hq : ∀ q ∈ qs, q ∈ V) :
    Yields V m query (placements r c qs : Search π (List Renaming)) fun rs =>
      ∀ τ, Reaches rs τ ↔ r.AgreesWith τ ∧ ∃ q ∈ qs, Carries {} τ c q := by
  induction qs with
  | nil => exact yields_pure (by simp [Reaches])
  | cons q qs ih =>
    obtain ⟨hq, hqs⟩ := List.forall_mem_cons.mp hq
    apply (attempt_yields hc hq).bind
    rintro _ rfl
    apply (ih hqs).bind
    intro rs hrs
    apply yields_pure
    intro τ
    have ha : Reaches ((Unifier.extend? r c q).toList ++ rs) τ ↔
        Reaches (Unifier.extend? r c q).toList τ ∨ Reaches rs τ := by
      simp only [Reaches, List.mem_append, or_and_right, exists_or]
    rw [ha, reaches_toList_extend?, hrs, ← and_or_left]
    simp only [List.mem_cons, exists_eq_or_imp]

theorem placeable_yields {r : Renaming} {c : Term} (hc : c ∈ V) {qs : List Term}
    (hq : ∀ q ∈ qs, q ∈ V) :
    Yields V m query (placeable r c qs : Search π Bool) fun b =>
      b = true ↔ ∃ τ, r.AgreesWith τ ∧ ∃ q ∈ qs, Carries {} τ c q := by
  induction qs with
  | nil => exact yields_pure (by simp)
  | cons q qs ih =>
    obtain ⟨hq, hqs⟩ := List.forall_mem_cons.mp hq
    apply (attempt_yields hc hq).bind
    rintro _ rfl
    cases hs : Unifier.extend? r c q with
    | some s =>
      obtain ⟨hr, hcq⟩ := ((Unifier.extended_of_extend? hs).least _).mp s.agreesWith_total
      exact yields_pure ⟨fun _ => ⟨s.total, hr, q, List.mem_cons_self, hcq⟩, fun _ => rfl⟩
    | none =>
      apply (ih hqs).mono
      intro b hb
      rw [hb]
      refine exists_congr fun τ => and_congr_right fun hr => ?_
      have hn := Unifier.not_carries_of_extend? hs hr
      simp only [List.mem_cons, exists_eq_or_imp, hn, false_or]

theorem anyM_yields {α : Type} {f : α → Search π Bool} {P : α → Prop} {xs : List α}
    (h : ∀ x ∈ xs, Yields V m query (f x) fun b => b = true ↔ P x) :
    Yields V m query (xs.anyM f) fun b => b = true ↔ ∃ x ∈ xs, P x := by
  induction xs with
  | nil => exact yields_pure (by simp)
  | cons x xs ih =>
    obtain ⟨hx, hxs⟩ := List.forall_mem_cons.mp h
    rw [List.anyM]
    apply hx.bind
    intro b hb
    cases b with
    | true =>
      have hp := hb.mp rfl
      exact yields_pure (by simp [hp])
    | false =>
      have hn : ¬ P x := fun hp => Bool.false_ne_true (hb.mpr hp)
      apply (ih hxs).mono
      intro b hb
      simp only [hb, List.mem_cons, exists_eq_or_imp, hn, false_or]

theorem explore_yields {qs cs : List Term} (hq : ∀ q ∈ qs, q ∈ V) (hc : ∀ c ∈ cs, c ∈ V)
    {r : Renaming} :
    Yields V m query (explore qs cs r : Search π Bool) fun b =>
      b = true ↔ ∃ τ, r.AgreesWith τ ∧ Embeds τ cs qs := by
  fun_induction explore (π := π) qs cs r with
  | case1 r =>
    apply yields_pure
    simp only [true_iff]
    exact ⟨r.total, r.agreesWith_total, by simp [Embeds]⟩
  | case2 c r =>
    apply (placeable_yields (hc c List.mem_cons_self) hq).bind
    intro b hb
    have he : b = true ↔ ∃ τ, r.AgreesWith τ ∧ Embeds τ [c] qs := by simpa [Embeds] using hb
    split
    · exact (computes_emit _).yields.bind fun _ _ => yields_pure he
    · exact yields_pure he
  | case3 r c d cs ih =>
    obtain ⟨hc, hcs⟩ := List.forall_mem_cons.mp hc
    apply (placements_yields hc hq).bind
    intro next hnext
    have hany := anyM_yields fun s (_ : s ∈ next.reverse) => ih s hcs
    apply hany.mono
    intro b hb
    rw [hb]
    simp only [List.mem_reverse]
    constructor
    · rintro ⟨s, hs, τ, hτ, he⟩
      obtain ⟨hr, hq⟩ := (hnext τ).mp ⟨s, hs, hτ⟩
      exact ⟨τ, hr, embeds_cons.mpr ⟨hq, he⟩⟩
    · rintro ⟨τ, hr, he⟩
      obtain ⟨hq, he⟩ := embeds_cons.mp he
      obtain ⟨s, hs, hτ⟩ := (hnext τ).mpr ⟨hr, hq⟩
      exact ⟨s, hs, τ, hτ, he⟩

theorem matches_yields {core : ClauseSet} (hc : ∀ c ∈ core.clauses, c ∈ V)
    (hq : ∀ q ∈ query.clauses, q ∈ V) :
    Yields V m query («matches» core query : Search π Bool) fun b =>
      b = true ↔ ∃ τ, Embeds τ core.clauses query.clauses := by
  apply (explore_yields hq hc).mono
  intro b hb
  simpa only [agreesWith_empty, true_and] using hb

end Assignment

end CoreReuse
