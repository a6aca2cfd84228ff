import CoreReuse.Proofs.Matching.Joins
import CoreReuse.Proofs.Matching.Slots

namespace CoreReuse.Joining

open Search Term Renaming Hash

variable {π : Type} [PollSource π] {V : Vocabulary} {m : Option Nat} {query : ClauseSet}
variable {rs : List Renaming} {τ : Decl → Decl}

theorem mem_bucket {hash : UInt64} {q : Term} :
    q ∈ bucket (.ofQuery m query) query hash ↔
      q ∈ query.clauses ∧ structural m q = hash := by
  simp only [bucket, Buckets.ofQuery, List.mem_filterMap, Buckets.mem_get_ofHashes, List.getElem?_map,
    Option.map_eq_some_iff]
  constructor
  · rintro ⟨i, ⟨p, hp, hx⟩, hq⟩
    obtain rfl := Option.some.inj (hp.symm.trans hq)
    exact ⟨List.mem_of_getElem? hq, hx⟩
  · rintro ⟨hq, hx⟩
    obtain ⟨i, hi⟩ := List.mem_iff_getElem?.mp hq
    exact ⟨i, ⟨q, hi, hx⟩, hi⟩

theorem contains_ofQuery_iff {hash : UInt64} :
    (Buckets.ofQuery m query).contains hash = true ↔
      ∃ q ∈ query.clauses, structural m q = hash := by
  simp only [Buckets.contains_iff, Buckets.ofQuery, Buckets.mem_get_ofHashes, List.getElem?_map,
    Option.map_eq_some_iff]
  constructor
  · rintro ⟨i, q, hq, hx⟩
    exact ⟨q, List.mem_of_getElem? hq, hx⟩
  · rintro ⟨q, hq, hx⟩
    obtain ⟨i, hi⟩ := List.mem_iff_getElem?.mp hq
    exact ⟨i, q, hi, hx⟩

theorem covered_yields {cs : List Term} (hc : ∀ c ∈ cs, c ∈ V) :
    Yields V m query
      (covered (.ofQuery m query) cs : Search π Bool) fun b =>
      b = true ↔ ∀ c ∈ cs, ∃ q ∈ query.clauses, structural m q = structural m c := by
  induction cs with
  | nil => exact yields_pure (by simp)
  | cons c cs ih =>
    obtain ⟨hc, hcs⟩ := List.forall_mem_cons.mp hc
    apply (computes_hashCore hc).yields.bind
    rintro _ rfl
    simp only [List.forall_mem_cons]
    split
    · next h =>
      apply (ih hcs).mono
      intro b hb
      rw [hb, iff_and_self]
      exact fun _ => contains_ofQuery_iff.mp h
    · next h =>
      apply yields_pure
      rw [contains_ofQuery_iff] at h
      simp [h]

structure Found (query : ClauseSet) (c : Term) (rs : List Renaming) : Prop where
  binding : Binding c.freeVars rs
  reaches : ∀ τ, Reaches rs τ ↔ ∃ q ∈ query.clauses, Carries {} τ c q

theorem found_yields {c : Term} (hc : c ∈ V) (hq : ∀ q ∈ query.clauses, q ∈ V) :
    Yields V m query (renamingsTo c (bucket (.ofQuery m query) query (structural m c)) [] :
      Search π (List Renaming)) (Found query c) := by
  have hb : ∀ q ∈ bucket (.ofQuery m query) query (structural m c),
      q ∈ V := fun q h => hq q (mem_bucket.mp h).1
  apply (renamingsTo_yields hc hb (by simp [Binding])).mono
  rintro rs ⟨hr, h⟩
  refine ⟨hr, fun τ => ?_⟩
  rw [h]
  simp only [mem_bucket]
  constructor
  · rintro (h | ⟨q, ⟨hq, -⟩, hc⟩)
    · simp [Reaches] at h
    · exact ⟨q, hq, hc⟩
  · rintro ⟨q, hq, hc⟩
    exact .inr ⟨q, ⟨hq, (hc.structural_eq m).symm⟩, hc⟩

theorem collect_yields {cs : List Term} (hc : ∀ c ∈ cs, c ∈ V) (hq : ∀ q ∈ query.clauses, q ∈ V)
    (targets : Targets) :
    Yields V m query (collect (.ofQuery m query) query cs targets :
      Search π (Option (List (List Renaming) × Targets))) fun out =>
        (out = none → ∀ τ, targets.Admits τ → ¬ Embeds τ cs query.clauses) ∧
          ∀ sets after, out = some (sets, after) → List.Forall₂ (Found query) cs sets ∧
            ∀ τ, targets.Admits τ → Embeds τ cs query.clauses → after.Admits τ := by
  induction cs generalizing targets with
  | nil => exact yields_pure ⟨nofun, by rintro _ _ ⟨⟩; exact ⟨.nil, fun τ h _ => h⟩⟩
  | cons c cs ih =>
    obtain ⟨hc, hcs⟩ := List.forall_mem_cons.mp hc
    apply (computes_hashCore hc).yields.bind
    rintro _ rfl
    apply (found_yields hc hq).bind
    intro found hf
    simp only [embeds_cons]
    have hr : ∀ τ, (∃ q ∈ query.clauses, Carries {} τ c q) → Reaches found τ :=
      fun τ => (hf.reaches τ).mpr
    split
    · next he =>
      refine yields_pure ⟨fun _ τ _ h => ?_, nofun⟩
      obtain ⟨r, hrf, -⟩ := hr τ h.1
      simp [List.isEmpty_iff.mp he] at hrf
    · have hn : ∀ τ, targets.Admits τ → (∃ q ∈ query.clauses, Carries {} τ c q) →
          (targets.narrow found).1 = true ∧ (targets.narrow found).2.Admits τ :=
        fun τ ht h => Targets.narrow_of_admits ht hf.binding (hr τ h)
      split
      · next h =>
        refine yields_pure ⟨fun _ τ ht he => ?_, nofun⟩
        have := (hn τ ht he.1).1
        rw [h] at this
        cases this
      · next after h =>
        rw [h] at hn
        apply (ih hcs after).bind
        intro out ho
        split
        · refine yields_pure ⟨fun _ τ ht he => ho.1 rfl τ (hn τ ht he.1).2 he.2, nofun⟩
        · next sets after' =>
          obtain ⟨hs, ha⟩ := ho.2 sets after' rfl
          refine yields_pure ⟨nofun, ?_⟩
          rintro _ _ ⟨⟩
          exact ⟨.cons hf hs, fun τ ht he => ha τ (hn τ ht he.1).2 he.2⟩

theorem joinAll_yields {s : Slots} (hs : s.Filled) (hn : ∀ set, s.Holds set → set ≠ []) :
    Yields V m query (joinAll s : Search π Bool) fun b =>
      b = true ↔ ∃ τ, ∀ set, s.Holds set → Reaches set τ := by
  fun_induction joinAll (π := π) s with
  | case1 s h =>
    have he := hs.leaves_next
    rw [h] at he
    apply yields_pure
    simp only [true_iff]
    exact ⟨id, fun set hset => absurd hset (he set)⟩
  | case2 s size h =>
    have hl := hs.leaves_next
    rw [h] at hl
    obtain ⟨set, he⟩ := hl
    obtain ⟨τ, hτ⟩ := reaches_of_ne_nil (hn set ((he set).mpr rfl))
    refine (computes_emit _).yields.bind fun _ _ => yields_pure ?_
    simp only [he, forall_eq, true_iff]
    exact ⟨τ, hτ⟩
  | case3 s left right rest h ih =>
    have hl := hs.leaves_next
    rw [h] at hl
    obtain ⟨hr, he⟩ := hl
    apply (joinSets_yields left right).bind
    intro joined hj
    split
    · next hnil =>
      apply yields_pure
      simp only [Bool.false_eq_true, false_iff]
      rintro ⟨τ, hτ⟩
      have hlr := (hj τ).mpr ⟨hτ left ((he _).mpr (.inl rfl)), hτ right ((he _).mpr (.inr (.inl rfl)))⟩
      obtain ⟨r, hr, -⟩ := hlr
      simp [List.isEmpty_iff.mp hnil] at hr
    · next hne =>
      have hn' : ∀ set, (rest.push joined).Holds set → set ≠ [] := by
        intro set hset
        rcases hr.holds_push.mp hset with rfl | hset
        · simpa using hne
        · exact hn set ((he set).mpr (.inr (.inr hset)))
      apply (ih joined hr.push hn').mono
      intro b hb
      rw [hb]
      refine exists_congr fun τ => ?_
      simp only [hr.holds_push, he, or_imp, forall_and, forall_eq, hj, and_assoc]
  | case4 s h =>
    have hl := hs.leaves_next
    rw [h] at hl
    exact hl.elim

theorem Found.filter_reaches {c : Term} {targets : Targets} (hf : Found query c rs)
    (ht : targets.Admits τ) (h : ∃ q ∈ query.clauses, Carries {} τ c q) :
    Reaches (rs.filter targets.allows) τ := by
  obtain ⟨r, hr, hτ⟩ := (hf.reaches τ).mpr h
  exact ⟨r, List.mem_filter.mpr ⟨hr, Targets.allows_of_admits ht hτ⟩, hτ⟩

theorem Found.of_filter_reaches {c : Term} {targets : Targets} (hf : Found query c rs)
    (h : Reaches (rs.filter targets.allows) τ) : ∃ q ∈ query.clauses, Carries {} τ c q := by
  obtain ⟨r, hr, hτ⟩ := h
  exact (hf.reaches τ).mp ⟨r, (List.mem_filter.mp hr).1, hτ⟩

theorem pruned_reaches {cs : List Term} {sets : List (List Renaming)} {targets : Targets}
    (hs : List.Forall₂ (Found query) cs sets)
    (ht : ∀ τ, Embeds τ cs query.clauses → targets.Admits τ) (τ : Decl → Decl) :
    (∀ set ∈ sets.map fun set => set.filter targets.allows, Reaches set τ) ↔
      Embeds τ cs query.clauses := by
  simp only [List.forall_mem_map]
  constructor
  · intro h
    -- The targets stay those of the whole core while the clauses get fewer.
    clear ht
    induction hs with
    | nil => simp [Embeds]
    | cons hf _ ih =>
      obtain ⟨h1, h2⟩ := List.forall_mem_cons.mp h
      exact embeds_cons.mpr ⟨hf.of_filter_reaches h1, ih h2⟩
  · intro he
    have ha := ht τ he
    clear ht
    induction hs with
    | nil => simp
    | cons hf _ ih =>
      obtain ⟨h1, h2⟩ := embeds_cons.mp he
      exact List.forall_mem_cons.mpr ⟨hf.filter_reaches ha h1, ih h2⟩

theorem matchClauses_yields {cs : List Term} (hc : ∀ c ∈ cs, c ∈ V)
    (hq : ∀ q ∈ query.clauses, q ∈ V) :
    Yields V m query (matchClauses cs query : Search π Bool) fun b =>
      b = true ↔ ∃ τ, Embeds τ cs query.clauses := by
  apply (computes_queryBuckets hq).yields.bind
  rintro _ rfl
  apply (covered_yields hc).bind
  intro covered hcov
  split
  · apply (collect_yields hc hq ∅).bind
    rintro out ⟨hnone, hsome⟩
    split
    · apply yields_pure
      simp only [Bool.false_eq_true, false_iff, not_exists]
      exact fun τ => hnone rfl τ (Targets.admits_empty τ)
    · next sets targets =>
      obtain ⟨hs, ht⟩ := hsome sets targets rfl
      have hp := pruned_reaches hs fun τ => ht τ (Targets.admits_empty τ)
      dsimp only
      split
      · next hany =>
        apply yields_pure
        simp only [Bool.false_eq_true, false_iff, not_exists]
        intro τ he
        obtain ⟨set, hset, hnil⟩ := List.any_eq_true.mp hany
        obtain ⟨r, hr, -⟩ := (hp τ).mpr he set hset
        simp [List.isEmpty_iff.mp hnil] at hr
      · next hany =>
        obtain ⟨hf, hh⟩ := Slots.filled_ofSets (sets.map fun set => set.filter targets.allows)
        have hn : ∀ set, (Slots.ofSets (sets.map fun set => set.filter targets.allows)).Holds set →
            set ≠ [] := by
          rintro set hset rfl
          exact hany (List.any_eq_true.mpr ⟨[], (hh []).mp hset, rfl⟩)
        apply (joinAll_yields hf hn).mono
        intro b hb
        simp only [hb, hh, hp]
  · next h =>
    apply yields_pure
    simp only [Bool.false_eq_true, false_iff, not_exists]
    intro τ he
    apply h
    rw [hcov]
    intro c hc
    obtain ⟨q, hq, hcq⟩ := he c hc
    exact ⟨q, hq, (hcq.structural_eq m).symm⟩

theorem matches_yields {core : ClauseSet} (hc : ∀ c ∈ core.clauses, c ∈ V)
    (hq : ∀ q ∈ query.clauses, q ∈ V) :
    Yields V m query («matches» core query : Search π Bool) fun b =>
      b = true ↔ ∃ τ, Embeds τ core.clauses query.clauses := by
  unfold «matches»
  split
  · next he =>
    apply yields_pure
    rw [core.isEmpty_iff.mp he]
    simp [Embeds]
  · exact matchClauses_yields hc hq

end CoreReuse.Joining
