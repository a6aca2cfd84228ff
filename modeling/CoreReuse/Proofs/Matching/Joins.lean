import CoreReuse.Proofs.Matching.Assignment

namespace CoreReuse.Joining

open Search Term Renaming

variable {π : Type} [PollSource π] {V : Vocabulary} {m : Option Nat} {query : ClauseSet}
variable {rs left right : List Renaming} {τ : Decl → Decl}

theorem reaches_addNew {r : Renaming} :
    Reaches (addNew rs r) τ ↔ Reaches rs τ ∨ r.AgreesWith τ := by
  unfold addNew
  split
  · next h =>
    obtain ⟨s, hs, hsr⟩ := List.any_eq_true.mp h
    refine ⟨.inl, fun h => h.elim id fun hr => ⟨s, hs, hr.congr ?_⟩⟩
    rw [beq_iff] at hsr ⊢
    exact fun d => (hsr d).symm
  · simp only [Reaches, List.mem_append, List.mem_singleton, or_and_right, exists_or, exists_eq_left]

theorem binding_addNew {ds : List Decl} {r : Renaming} (hrs : Binding ds rs)
    (hr : ∀ d : Decl, (r[d]?).isSome ↔ d ∈ ds) : Binding ds (addNew rs r) := by
  unfold addNew
  split
  · exact hrs
  · intro s hs
    rcases List.mem_append.mp hs with hs | hs
    · exact hrs s hs
    · rw [List.mem_singleton.mp hs]
      exact hr

theorem reaches_of_ne_nil (h : rs ≠ []) : ∃ τ, Reaches rs τ := by
  obtain ⟨r, rs, rfl⟩ := List.exists_cons_of_ne_nil h
  exact ⟨r.total, r, List.mem_cons_self, r.agreesWith_total⟩

theorem binding_extend? {c q : Term} {r : Renaming} (h : Unifier.extend? ∅ c q = some r) (d : Decl) :
    (r[d]?).isSome ↔ d ∈ c.freeVars := by
  have he := Unifier.extended_of_extend? h
  refine ⟨fun hd => ?_, he.bound d⟩
  obtain ⟨t, ht⟩ := Option.isSome_iff_exists.mp hd
  rcases he.new d t ht with h | h
  · simp at h
  · exact h.1

theorem renamingsTo_yields {c : Term} (hc : c ∈ V) {qs : List Term} (hq : ∀ q ∈ qs, q ∈ V)
    (hb : Binding c.freeVars rs) :
    Yields V m query (renamingsTo c qs rs : Search π (List Renaming)) fun found =>
      Binding c.freeVars found ∧
        ∀ τ, Reaches found τ ↔ Reaches rs τ ∨ ∃ q ∈ qs, Carries {} τ c q := by
  induction qs generalizing rs with
  | nil => exact yields_pure ⟨hb, by simp⟩
  | cons q qs ih =>
    obtain ⟨hq, hqs⟩ := List.forall_mem_cons.mp hq
    apply computes_poll.yields.bind
    intro _ _
    apply (computes_unify hc hq).yields.bind
    rintro _ rfl
    cases hr : Unifier.extend? ∅ c q with
    | some r =>
      apply (ih hqs (binding_addNew hb (binding_extend? hr))).mono
      rintro found ⟨hf, hfound⟩
      refine ⟨hf, fun τ => ?_⟩
      have hl := (Unifier.extended_of_extend? hr).least τ
      simp only [agreesWith_empty, true_and] at hl
      simp only [hfound, reaches_addNew, hl, List.mem_cons, exists_eq_or_imp, or_assoc]
    | none =>
      apply (ih hqs hb).mono
      rintro found ⟨hf, hfound⟩
      refine ⟨hf, fun τ => ?_⟩
      have hn := Unifier.not_carries_of_extend? hr (agreesWith_empty τ)
      simp only [hfound, List.mem_cons, exists_eq_or_imp, hn, false_or]

theorem reaches_cons {r : Renaming} :
    Reaches (r :: rs) τ ↔ r.AgreesWith τ ∨ Reaches rs τ := by
  simp only [Reaches, List.mem_cons, exists_eq_or_imp]

theorem joinPair_yields (l r : Renaming) (found : List Renaming) :
    Yields V m query (do
      Search.poll
      match Renaming.join l r with
      | some joined => return addNew found joined
      | none => return found : Search π (List Renaming)) fun joined =>
        ∀ τ, Reaches joined τ ↔ Reaches found τ ∨ l.AgreesWith τ ∧ r.AgreesWith τ := by
  apply computes_poll.yields.bind
  intro _ _
  split
  · next joined h =>
    apply yields_pure
    intro τ
    rw [reaches_addNew, agreesWith_join h]
  · next h =>
    apply yields_pure
    intro τ
    have hn : ¬ (l.AgreesWith τ ∧ r.AgreesWith τ) := fun hlr => not_agreesWith_of_join h hlr.1 hlr.2
    simp only [hn, or_false]

theorem joinRight_yields (l : Renaming) (right found : List Renaming) :
    Yields V m query (right.foldlM (fun found r => do
      Search.poll
      match Renaming.join l r with
      | some joined => return addNew found joined
      | none => return found) found : Search π (List Renaming)) fun joined =>
        ∀ τ, Reaches joined τ ↔ Reaches found τ ∨ l.AgreesWith τ ∧ Reaches right τ := by
  induction right generalizing found with
  | nil => exact yields_pure (by simp [Reaches])
  | cons r right ih =>
    rw [List.foldlM_cons]
    apply (joinPair_yields l r found).bind
    intro joined hj
    apply (ih joined).mono
    intro all ha τ
    rw [ha, hj, reaches_cons, or_assoc, and_or_left]

theorem joinLeft_yields (left right found : List Renaming) :
    Yields V m query (left.foldlM (fun found l =>
      right.foldlM (fun found r => do
        Search.poll
        match Renaming.join l r with
        | some joined => return addNew found joined
        | none => return found) found) found : Search π (List Renaming)) fun joined =>
        ∀ τ, Reaches joined τ ↔ Reaches found τ ∨ Reaches left τ ∧ Reaches right τ := by
  induction left generalizing found with
  | nil => exact yields_pure (by simp [Reaches])
  | cons l left ih =>
    rw [List.foldlM_cons]
    apply (joinRight_yields l right found).bind
    intro joined hj
    apply (ih joined).mono
    intro all ha τ
    rw [ha, hj, reaches_cons, or_assoc, or_and_right]

theorem joinSets_yields (left right : List Renaming) :
    Yields V m query (joinSets left right : Search π (List Renaming)) fun joined =>
      ∀ τ, Reaches joined τ ↔ Reaches left τ ∧ Reaches right τ := by
  apply (joinLeft_yields left right []).mono
  intro joined hj τ
  rw [hj]
  simp [Reaches]

end CoreReuse.Joining
