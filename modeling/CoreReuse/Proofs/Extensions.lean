import CoreReuse.Proofs.Renamings

namespace CoreReuse.Renaming

variable {r s t u : Renaming} {τ : Decl → Decl}

def ExtendedBy (r s : Renaming) : Prop := ∀ d t : Decl, r[d]? = some t → s[d]? = some t

def Compatible (r s : Renaming) : Prop := ∀ d t x : Decl, r[d]? = some t → s[d]? = some x → t = x

theorem Compatible.refl (r : Renaming) : Compatible r r :=
  fun _ _ _ ht hx => Option.some.inj (ht.symm.trans hx)

instance : Std.Symm Compatible := ⟨fun _ _ h d t x ht hx => (h d x t hx ht).symm⟩

def Agrees : Option Renaming → (Decl → Decl) → Prop
  | some u, τ => u.AgreesWith τ
  | none, _ => False

theorem agrees_some : Agrees (some u) τ ↔ u.AgreesWith τ := Iff.rfl

theorem beq_of_agrees_iff {x y : Option Renaming} (h : ∀ τ, Agrees x τ ↔ Agrees y τ) : (x == y) = true := by
  cases x with
  | none =>
    cases y with
    | none => rfl
    | some v => exact absurd v.agreesWith_total (h v.total).mpr
  | some u =>
    cases y with
    | none => exact absurd u.agreesWith_total (h u.total).mp
    | some v => exact beq_of_agreesWith_iff h

theorem compatible_of_agreesWith (hr : r.AgreesWith τ) (hs : s.AgreesWith τ) : Compatible r s :=
  fun d t x ht hx => (hr d t ht).symm.trans (hs d x hx)

theorem agrees_merge? {es : List (Decl × Decl)} (hp : es.Perm s.toList) :
    Agrees (merge? r es r) τ ↔ r.AgreesWith τ ∧ s.AgreesWith τ := by
  have hmem : ∀ d t : Decl, (d, t) ∈ es ↔ s[d]? = some t := fun d t => hp.mem_iff.trans mem_toList
  cases h : merge? r es r with
  | some u =>
    have hne : es.Pairwise fun e f => e.1 ≠ f.1 :=
      (hp.pairwise_iff fun h => h.symm).mpr (pairwise_toList s)
    have hu : ∀ d t : Decl, u[d]? = some t ↔ r[d]? = some t ∨ s[d]? = some t := fun d t => by
      rw [merge?_eq_some hne (fun _ _ => rfl) h, hmem]
    simp only [Agrees, AgreesWith, hu, or_imp, forall_and]
  | none =>
    -- A map has one target for the declaration on which the two differ.
    obtain ⟨d, t, x, ht, hx, hne⟩ := merge?_eq_none h
    refine iff_of_false id ?_
    rintro ⟨hr, hs⟩
    exact hne (compatible_of_agreesWith hr hs d t x ht ((hmem d x).mp hx))

theorem agrees_join : Agrees (join r s) τ ↔ r.AgreesWith τ ∧ s.AgreesWith τ := by
  unfold join
  split
  · exact agrees_merge? (.refl _)
  · rw [agrees_merge? (.refl _), and_comm]

theorem agrees_joined {x : Option Renaming} : Agrees (x.bind (join · t)) τ ↔ Agrees x τ ∧ t.AgreesWith τ := by
  cases x with
  | none => exact iff_of_eq (false_and _).symm
  | some u => exact agrees_join

theorem agrees_join_joined {x : Option Renaming} :
    Agrees (x.bind (join r)) τ ↔ r.AgreesWith τ ∧ Agrees x τ := by
  cases x with
  | none => exact iff_of_eq (and_false _).symm
  | some u => exact agrees_join

theorem exists_join_iff : (∃ u, join r s = some u) ↔ Compatible r s := by
  constructor
  · rintro ⟨u, hu⟩
    obtain ⟨hr, hs⟩ := (agreesWith_join hu u.total).mp u.agreesWith_total
    exact compatible_of_agreesWith hr hs
  · intro hc
    cases h : join r s with
    | some u => exact ⟨u, rfl⟩
    | none =>
      obtain ⟨d, t, x, ht, hx, hne⟩ := join_eq_none h
      exact absurd (hc d t x ht hx) hne

theorem join_comm (r s : Renaming) : (join r s == join s r) = true :=
  beq_of_agrees_iff fun τ => by rw [agrees_join, agrees_join, and_comm]

theorem join_self (r : Renaming) : (join r r == some r) = true :=
  beq_of_agrees_iff fun τ => by rw [agrees_join, agrees_some, and_self]

theorem empty_join (r : Renaming) : (join ∅ r == some r) = true :=
  beq_of_agrees_iff fun τ => by simp only [agrees_join, agrees_some, agreesWith_empty, true_and]

theorem join_empty (r : Renaming) : (join r ∅ == some r) = true :=
  beq_of_agrees_iff fun τ => by simp only [agrees_join, agrees_some, agreesWith_empty, and_true]

theorem join_assoc (r s t : Renaming) : ((join r s).bind (join · t) == (join s t).bind (join r)) = true :=
  beq_of_agrees_iff fun τ => by rw [agrees_joined, agrees_join_joined, agrees_join, agrees_join, and_assoc]

theorem merge?_eq_join {es : List (Decl × Decl)} (hp : es.Perm s.toList) :
    (merge? r es r == join r s) = true :=
  beq_of_agrees_iff fun τ => by rw [agrees_merge? hp, agrees_join]

theorem merge?_eq_join_swap {es : List (Decl × Decl)} (hp : es.Perm s.toList) :
    (merge? r es r == join s r) = true :=
  beq_of_agrees_iff fun τ => by rw [agrees_merge? hp, agrees_join, and_comm]

theorem least_of_join (h : join r s = some u) :
    r.ExtendedBy u ∧ s.ExtendedBy u ∧ ∀ v, r.ExtendedBy v → s.ExtendedBy v → u.ExtendedBy v := by
  have hu := join_eq_some h
  exact ⟨fun d x hd => (hu d x).mpr (.inl hd), fun d x hd => (hu d x).mpr (.inr hd),
    fun v hr hs d x hd => ((hu d x).mp hd).elim (hr d x) (hs d x)⟩

theorem join_least (r s t : Renaming) :
    ((∃ u, join r s = some u) ↔ Compatible r s) ∧
      (∀ u, join r s = some u → (∀ d x : Decl, u[d]? = some x ↔ r[d]? = some x ∨ s[d]? = some x) ∧
        r.ExtendedBy u ∧ s.ExtendedBy u ∧ ∀ v, r.ExtendedBy v → s.ExtendedBy v → u.ExtendedBy v) ∧
      (∀ es : List (Decl × Decl), es.Perm s.toList →
        (merge? r es r == join r s) = true ∧ (merge? r es r == join s r) = true) ∧
      (join r s == join s r) = true ∧ (join r r == some r) = true ∧
      (join ∅ r == some r) = true ∧ (join r ∅ == some r) = true ∧
      ((join r s).bind (join · t) == (join s t).bind (join r)) = true := by
  refine ⟨exists_join_iff, fun u hu => ⟨join_eq_some hu, least_of_join hu⟩, fun es hp => ?_, join_comm r s,
    join_self r, empty_join r, join_empty r, join_assoc r s t⟩
  exact ⟨merge?_eq_join hp, merge?_eq_join_swap hp⟩

end CoreReuse.Renaming
