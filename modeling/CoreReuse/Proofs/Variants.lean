import CoreReuse.Proofs.Index.Levels
import CoreReuse.Proofs.Matching.Renamed
import Mathlib.Data.Set.Operations

namespace CoreReuse

namespace Term

mutual

def vars : Term → List Decl
  | .app _ f [] => [f]
  | .app _ _ (a :: as) => varsAll (a :: as)
  | .quantified _ _ bs b => bs ++ vars b
  | .lambda _ is b => is ++ vars b
  | .literal _ _ _ => []

def varsAll : List Term → List Decl
  | [] => []
  | t :: ts => vars t ++ varsAll ts

end

variable {ρ κ : VariableMap} {d : Decl}

theorem varsAll_eq_flatMap (ts : List Term) : varsAll ts = ts.flatMap vars := by
  induction ts with
  | nil => rfl
  | cons t ts ih => rw [varsAll, ih, List.flatMap_cons]

theorem mem_vars_app {n : NodeId} {f : Decl} {as : List Term} (h : as ≠ []) :
    d ∈ (app n f as).vars ↔ ∃ a ∈ as, d ∈ a.vars := by
  cases as with
  | nil => exact absurd rfl h
  | cons a as => rw [vars, varsAll_eq_flatMap, List.mem_flatMap]

theorem rename_app {n : NodeId} {f : Decl} {as : List Term} (h : as ≠ []) :
    (app n f as).rename ρ = app n f (as.map (rename ρ)) := by
  cases as with
  | nil => exact absurd rfl h
  | cons a as => rw [rename, renameAll_eq_map]

theorem vars_rename (t : Term) : (t.rename ρ).vars = t.vars.map ρ := by
  induction t with
  | app n f as ih =>
    cases as with
    | nil => rfl
    | cons a as =>
      change varsAll (renameAll ρ (a :: as)) = (varsAll (a :: as)).map ρ
      rw [renameAll_eq_map, varsAll_eq_flatMap, varsAll_eq_flatMap, List.flatMap_map, List.map_flatMap]
      exact List.flatMap_congr ih
  | quantified n q bs b ih => rw [rename, vars, vars, ih, List.map_append]
  | lambda n is b ih => rw [rename, vars, vars, ih, List.map_append]
  | literal n ty x => rfl

theorem rename_erase (t : Term) : t.erase.rename ρ = (t.rename ρ).erase := by
  induction t with
  | app n f as ih =>
    cases as with
    | nil => rfl
    | cons a as =>
      have hne := List.cons_ne_nil a as
      rw [erase, eraseAll_eq_map, rename_app (by simp), rename_app hne, erase, eraseAll_eq_map,
        List.map_map, List.map_map]
      congr 1
      exact List.map_congr_left ih
  | quantified n q bs b ih => rw [erase, rename, rename, erase, ih]
  | lambda n is b ih => rw [erase, rename, rename, erase, ih]
  | literal n ty x => rfl

theorem vars_erase (t : Term) : t.erase.vars = t.vars := by
  induction t with
  | app n f as ih =>
    cases as with
    | nil => rfl
    | cons a as =>
      change varsAll (eraseAll (a :: as)) = varsAll (a :: as)
      rw [eraseAll_eq_map, varsAll_eq_flatMap, varsAll_eq_flatMap, List.flatMap_map]
      exact List.flatMap_congr ih
  | quantified n q bs b ih => rw [erase, vars, vars, ih]
  | lambda n is b ih => rw [erase, vars, vars, ih]
  | literal n ty x => rfl

theorem map_map_of_inverse {ds : List Decl} (h : ∀ d ∈ ds, κ (ρ d) = d) : (ds.map ρ).map κ = ds := by
  rw [List.map_map]
  exact (List.map_congr_left h).trans (List.map_id ds)

theorem rename_rename_of_inverse {t : Term} (h : ∀ d ∈ t.vars, κ (ρ d) = d) :
    (t.rename ρ).rename κ = t := by
  induction t with
  | app n f as ih =>
    cases as with
    | nil => simp only [rename, h f List.mem_cons_self]
    | cons a as =>
      have hne := List.cons_ne_nil a as
      have hid : ∀ t ∈ a :: as, (t.rename ρ).rename κ = t :=
        fun t ht => ih t ht fun d hd => h d ((mem_vars_app hne).mpr ⟨t, ht, hd⟩)
      rw [rename_app hne, rename_app (by simp), List.map_map]
      congr 1
      exact (List.map_congr_left hid).trans (List.map_id _)
  | quantified n q bs b ih =>
    have hbs : (bs.map ρ).map κ = bs := map_map_of_inverse fun d hd => h d (List.mem_append_left _ hd)
    rw [rename, rename, hbs, ih fun d hd => h d (List.mem_append_right _ hd)]
  | lambda n is b ih =>
    have his : (is.map ρ).map κ = is := map_map_of_inverse fun d hd => h d (List.mem_append_left _ hd)
    rw [rename, rename, his, ih fun d hd => h d (List.mem_append_right _ hd)]
  | literal n ty x => rfl

end Term

theorem VariableMap.exists_inverse (ρ : VariableMap) {L : Set Decl} (h : Set.InjOn ρ L) :
    ∃ σ : VariableMap, ∀ d ∈ L, σ (ρ d) = d := by
  classical
  -- Off the image nothing is moved, so that only variables are.
  refine ⟨⟨fun d => if he : ∃ e ∈ L, ρ e = d then he.choose else d, fun d => ?_, fun d => ?_,
    fun d hd => ?_⟩, fun d hd => ?_⟩
  · split
    · next he => rw [← ρ.result_eq, he.choose_spec.2]
    · rfl
  · split
    · next he => rw [← ρ.arity_eq, he.choose_spec.2]
    · rfl
  · split
    · next he =>
      have hρ := he.choose_spec.2
      rw [← ρ.fixes he.choose (by rw [← ρ.arity_eq, hρ]; exact hd), hρ]
    · rfl
  · have he : ∃ e ∈ L, ρ e = ρ d := ⟨d, hd, rfl⟩
    change (if he : ∃ e ∈ L, ρ e = ρ d then he.choose else ρ d) = d
    rw [dif_pos he]
    exact h he.choose_spec.1 hd he.choose_spec.2

section Bounds

variable {ρ κ : VariableMap} {L R : Set Decl} {bs cs : List Decl} {τ τ' : Decl → Decl} {d : Decl}

theorem PairedOff.map (h : PairedOff bs cs) (hρ : Set.InjOn ρ L) (hbs : ∀ d ∈ bs, d ∈ L) :
    PairedOff (bs.map ρ) (cs.map κ) where
  length_eq := by rw [List.length_map, List.length_map, h.length_eq]
  result_eq p hp := by
    rw [List.zip_map] at hp
    obtain ⟨q, hq, rfl⟩ := List.mem_map.mp hp
    exact (ρ.result_eq q.1).trans ((h.result_eq q hq).trans (κ.result_eq q.2).symm)
  functional p hp q hq he := by
    rw [List.zip_map] at hp hq
    obtain ⟨p, hp', rfl⟩ := List.mem_map.mp hp
    obtain ⟨q, hq', rfl⟩ := List.mem_map.mp hq
    have he' : p.1 = q.1 := hρ (hbs _ (List.of_mem_zip hp').1) (hbs _ (List.of_mem_zip hq').1) he
    exact congrArg κ (h.functional p hp' q hq' he')

theorem PairedOff.rebound_map (h : PairedOff bs cs) (hρ : Set.InjOn ρ L) (hbs : ∀ d ∈ bs, d ∈ L)
    (hτ : ∀ d ∈ L, τ' (ρ d) = κ (τ d)) (hd : d ∈ L) :
    rebound (bs.map ρ) (cs.map κ) τ' (ρ d) = κ (rebound bs cs τ d) := by
  by_cases hb : d ∈ bs
  · obtain ⟨t, ht⟩ := exists_mem_zip h.length_eq hb
    have ht' : (ρ d, κ t) ∈ (bs.map ρ).zip (cs.map κ) := by
      rw [List.zip_map]
      exact List.mem_map_of_mem (f := Prod.map ρ κ) ht
    rw [(h.map hρ hbs).rebound_eq ht', h.rebound_eq ht]
  · have hb' : ρ d ∉ bs.map ρ := by
      intro hm
      obtain ⟨e, he, heq⟩ := List.mem_map.mp hm
      exact hb (hρ (hbs e he) hd heq ▸ he)
    rw [rebound_of_notMem hb', rebound_of_notMem hb, hτ d hd]

end Bounds

namespace Term

variable {ρ κ : VariableMap} {L R : Set Decl} {s : Scopes} {τ τ' : Decl → Decl} {l r : Term} {d : Decl}

theorem mem_append_of_enter {xs bs ds : List Decl} (h : d ∈ (bs ++ xs) ++ ds) : d ∈ xs ++ (bs ++ ds) := by
  simp only [List.mem_append] at h ⊢
  tauto

theorem Carries.rename (h : Carries s τ l r) (hρ : Set.InjOn ρ L) (hκ : Set.InjOn κ R)
    (hl : ∀ d ∈ s.left ++ l.vars, d ∈ L) (hr : ∀ d ∈ s.right ++ r.vars, d ∈ R)
    (hτ : ∀ d ∈ L, τ' (ρ d) = κ (τ d)) :
    Carries ⟨s.left.map ρ, s.right.map κ⟩ τ' (l.rename ρ) (r.rename κ) := by
  induction h using Carries.inductionOn generalizing τ' with
  | var s τ m n f g h =>
    have hf : f ∈ L := hl f (by simp [vars])
    refine ⟨?_, ?_, fun hg => ?_⟩
    · rw [ρ.result_eq, κ.result_eq, h.result_eq]
    · rw [hτ f hf, h.target_eq]
    · obtain ⟨g', hg', he⟩ := List.mem_map.mp hg
      have hgg : g' = g := hκ (hr g' (List.mem_append_left _ hg')) (hr g (by simp [vars])) he
      exact List.mem_map_of_mem (h.uncaptured (hgg ▸ hg'))
  | app s τ m n f as bs _ hne ih =>
    have hlen := ih.length_eq
    have hne' : bs ≠ [] := by
      rintro rfl
      exact hne (List.length_eq_zero_iff.mp hlen)
    rw [rename_app hne, rename_app hne']
    apply carries_app (by simpa using hne)
    rw [List.forall₂_map_left_iff, List.forall₂_map_right_iff, List.forall₂_iff_zip]
    refine ⟨hlen, fun {a b} hab => ?_⟩
    obtain ⟨ha, hb⟩ := List.of_mem_zip hab
    obtain ⟨-, hi⟩ := (List.forall₂_iff_zip.mp ih).2 hab
    apply hi ?_ ?_ hτ
    · intro d hd
      exact hl d ((List.mem_append.mp hd).elim (List.mem_append_left _)
        fun hd => List.mem_append_right _ ((mem_vars_app hne).mpr ⟨a, ha, hd⟩))
    · intro d hd
      exact hr d ((List.mem_append.mp hd).elim (List.mem_append_left _)
        fun hd => List.mem_append_right _ ((mem_vars_app hne').mpr ⟨b, hb, hd⟩))
  | quantified s τ m n q bs cs b c hp _ ih =>
    have hbs : ∀ d ∈ bs, d ∈ L := fun d hd => hl d (by simp [vars, hd])
    refine ⟨rfl, hp.map hρ hbs, ?_⟩
    have hi := ih (fun d hd => hl d (mem_append_of_enter hd)) (fun d hd => hr d (mem_append_of_enter hd))
      fun d hd => hp.rebound_map hρ hbs hτ hd
    simpa only [Scopes.enter, List.map_append] using hi
  | lambda s τ m n is js b c hp _ ih =>
    have his : ∀ d ∈ is, d ∈ L := fun d hd => hl d (by simp [vars, hd])
    refine ⟨hp.map hρ his, ?_⟩
    have hi := ih (fun d hd => hl d (mem_append_of_enter hd)) (fun d hd => hr d (mem_append_of_enter hd))
      fun d hd => hp.rebound_map hρ his hτ hd
    simpa only [Scopes.enter, List.map_append] using hi
  | literal => exact ⟨rfl, rfl⟩

theorem carries_self (t : Term) : Carries {} id t t := by
  have h := carries_rename (s := {}) (uncaptured_identity t) rfl fun _ _ _ => List.not_mem_nil
  rwa [rename_identity] at h

theorem erase_erase (t : Term) : t.erase.erase = t.erase := by
  induction t with
  | app n f as ih =>
    rw [erase, erase, eraseAll_eq_map, eraseAll_eq_map, List.map_map]
    congr 1
    exact List.map_congr_left ih
  | quantified n q bs b ih => rw [erase, erase, ih]
  | lambda n is b ih => rw [erase, erase, ih]
  | literal n ty x => rfl

open Hash

theorem structural_erase (m : Option Nat) (t : Term) : structural m t.erase = structural m t :=
  ((carries_self t).of_erase_eq rfl (erase_erase t)).structural_eq m |>.symm

theorem structural_rename {t : Term} (hρ : Set.InjOn ρ {d | d ∈ t.vars}) (m : Option Nat) :
    structural m (t.rename ρ) = structural m t := by
  have hid : Set.InjOn VariableMap.identity {d | d ∈ t.vars} := fun _ _ _ _ h => h
  have hsub : ∀ d ∈ [] ++ t.vars, d ∈ {d | d ∈ t.vars} := fun _ hd => hd
  have hτ : ∀ d ∈ {d | d ∈ t.vars}, ρ (VariableMap.identity d) = ρ (id d) := fun _ _ => rfl
  have h := (carries_self t).rename hid hρ hsub hsub hτ
  rw [rename_identity] at h
  exact (h.structural_eq m).symm

end Term

namespace ClauseSet

def vars (s : ClauseSet) : Set Decl := {d | ∃ c ∈ s.clauses, d ∈ c.vars}

/-- The clauses are those of the other set with their variables renamed, in any order. The numbers
of nodes do not matter. -/
structure Renamed (ρ : VariableMap) (s s' : ClauseSet) : Prop where
  injOn : Set.InjOn ρ s.vars
  perm : (s'.clauses.map Term.erase).Perm (s.clauses.map fun c => (c.rename ρ).erase)

def Variant (s s' : ClauseSet) : Prop := ∃ ρ, Renamed ρ s s'

variable {ρ κ : VariableMap} {s s' core core' query query' : ClauseSet}

theorem Renamed.exists_left (h : Renamed ρ s s') {c' : Term} (hc : c' ∈ s'.clauses) :
    ∃ c ∈ s.clauses, c'.erase = (c.rename ρ).erase := by
  obtain ⟨c, hc, he⟩ := List.mem_map.mp (h.perm.mem_iff.mp (List.mem_map_of_mem hc))
  exact ⟨c, hc, he.symm⟩

theorem Renamed.exists_right (h : Renamed ρ s s') {c : Term} (hc : c ∈ s.clauses) :
    ∃ c' ∈ s'.clauses, c'.erase = (c.rename ρ).erase :=
  List.mem_map.mp (h.perm.mem_iff.mpr (List.mem_map_of_mem (f := fun c => (c.rename ρ).erase) hc))

theorem Renamed.vars_eq (h : Renamed ρ s s') : s'.vars = ρ '' s.vars := by
  ext d
  constructor
  · rintro ⟨c', hc', hd⟩
    obtain ⟨c, hc, he⟩ := h.exists_left hc'
    rw [← Term.vars_erase, he, Term.vars_erase, Term.vars_rename] at hd
    obtain ⟨e, he, rfl⟩ := List.mem_map.mp hd
    exact ⟨e, ⟨c, hc, he⟩, rfl⟩
  · rintro ⟨e, ⟨c, hc, hd⟩, rfl⟩
    obtain ⟨c', hc', he⟩ := h.exists_right hc
    refine ⟨c', hc', ?_⟩
    rw [← Term.vars_erase, he, Term.vars_erase, Term.vars_rename]
    exact List.mem_map_of_mem hd

theorem Variant.symm (h : Variant s s') : Variant s' s := by
  obtain ⟨ρ, h⟩ := h
  obtain ⟨σ, hσ⟩ := ρ.exists_inverse h.injOn
  refine ⟨σ, ?_, ?_⟩
  · rw [h.vars_eq]
    rintro _ ⟨d, hd, rfl⟩ _ ⟨e, he, rfl⟩ heq
    rw [hσ d hd, hσ e he] at heq
    rw [heq]
  · have hp := h.perm.map (Term.rename σ)
    simp only [List.map_map, Function.comp_def, Term.rename_erase] at hp
    have hback : s.clauses.map (fun c => ((c.rename ρ).rename σ).erase) =
        s.clauses.map Term.erase := by
      apply List.map_congr_left
      intro c hc
      rw [Term.rename_rename_of_inverse fun d hd => hσ d ⟨c, hc, hd⟩]
    rw [hback] at hp
    exact hp.symm

theorem Variant.size_eq (h : Variant s s') : s'.size = s.size := by
  obtain ⟨ρ, h⟩ := h
  have hl := h.perm.length_eq
  rwa [List.length_map, List.length_map] at hl

theorem Variant.hashes_perm (h : Variant s s') (m : Option Nat) : (s'.hashes m).Perm (s.hashes m) := by
  obtain ⟨ρ, h⟩ := h
  have hp := h.perm.map (Hash.structural m)
  simp only [List.map_map, Function.comp_def, Term.structural_erase] at hp
  have hback : s.clauses.map (fun c => Hash.structural m (c.rename ρ)) = s.hashes m :=
    List.map_congr_left fun c hc => Term.structural_rename
      (fun _ hd _ he heq => h.injOn ⟨c, hc, hd⟩ ⟨c, hc, he⟩ heq) m
  rwa [hback] at hp

theorem Variant.exists_embeds (h : Variant core core') (hq : Variant query query')
    (he : ∃ τ, Embeds τ core.clauses query.clauses) : ∃ τ, Embeds τ core'.clauses query'.clauses := by
  obtain ⟨ρ, h⟩ := h
  obtain ⟨κ, hq⟩ := hq
  obtain ⟨τ, he⟩ := he
  obtain ⟨σ, hσ⟩ := ρ.exists_inverse h.injOn
  have hτ : ∀ d ∈ core.vars, (κ ∘ τ ∘ σ) (ρ d) = κ (τ d) := by
    intro d hd
    simp only [Function.comp_apply, hσ d hd]
  refine ⟨κ ∘ τ ∘ σ, fun c' hc' => ?_⟩
  obtain ⟨c, hc, hc'⟩ := h.exists_left hc'
  obtain ⟨q, hq', hcq⟩ := he c hc
  obtain ⟨q', hq'', he'⟩ := hq.exists_right hq'
  have hr := hcq.rename h.injOn hq.injOn (fun d hd => ⟨c, hc, hd⟩) (fun d hd => ⟨q, hq', hd⟩) hτ
  exact ⟨q', hq'', hr.of_erase_eq hc' he'⟩

theorem Variant.exists_embeds_iff (h : Variant core core') (hq : Variant query query') :
    (∃ τ, Embeds τ core.clauses query.clauses) ↔ ∃ τ, Embeds τ core'.clauses query'.clauses :=
  ⟨h.exists_embeds hq, h.symm.exists_embeds hq.symm⟩

end ClauseSet

end CoreReuse
