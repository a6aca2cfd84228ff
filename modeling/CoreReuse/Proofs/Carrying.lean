import CoreReuse.Proofs.Structural
import CoreReuse.Proofs.Numbering
import CoreReuse.Unifier

/-!
What it is for a map of declarations to carry a term of a core to a term of a query. A binder changes
the map at the declarations it binds, and a variable that is free on the left must not arrive at a
declaration that is bound on the right. Terms that are carried to one another have the same type and
the same hashes.
-/

namespace CoreReuse

def rebound (ls rs : List Decl) (τ : Decl → Decl) (d : Decl) : Decl :=
  ((ls.zip rs).lookup d).getD (τ d)

structure PairedOff (ls rs : List Decl) : Prop where
  length_eq : ls.length = rs.length
  result_eq : ∀ p ∈ ls.zip rs, p.1.result = p.2.result
  functional : ∀ p ∈ ls.zip rs, ∀ q ∈ ls.zip rs, p.1 = q.1 → p.2 = q.2

section Rebound

variable {ls rs : List Decl} {τ : Decl → Decl} {d : Decl}

theorem lookup_zip_of_notMem (h : d ∉ ls) : (ls.zip rs).lookup d = none := by
  rw [List.lookup_eq_none_iff]
  rintro ⟨e, t⟩ hp
  apply bne_iff_ne.mpr
  rintro rfl
  exact h (List.of_mem_zip hp).1

theorem rebound_of_notMem (h : d ∉ ls) : rebound ls rs τ d = τ d := by
  rw [rebound, lookup_zip_of_notMem h, Option.getD_none]

theorem exists_mem_zip (h : ls.length = rs.length) (hd : d ∈ ls) : ∃ t, (d, t) ∈ ls.zip rs := by
  have hl : d ∈ (ls.zip rs).map Prod.fst := by rwa [List.map_fst_zip (Nat.le_of_eq h)]
  obtain ⟨⟨e, t⟩, hp, rfl⟩ := List.mem_map.mp hl
  exact ⟨t, hp⟩

theorem PairedOff.rebound_eq (h : PairedOff ls rs) {p : Decl × Decl} (hp : p ∈ ls.zip rs) :
    rebound ls rs τ p.1 = p.2 := by
  cases hl : (ls.zip rs).lookup p.1 with
  | none =>
    have hn := List.lookup_eq_none_iff.mp hl p hp
    simp at hn
  | some t =>
    obtain ⟨l₁, l₂, he, -⟩ := List.lookup_eq_some_iff.mp hl
    have hm : (p.1, t) ∈ ls.zip rs := by simp [he]
    rw [rebound, hl, Option.getD_some]
    exact h.functional _ hm _ hp rfl

theorem PairedOff.map_result_eq (h : PairedOff ls rs) : ls.map Decl.result = rs.map Decl.result := by
  obtain ⟨h1, h2, -⟩ := h
  induction ls generalizing rs with
  | nil => cases rs <;> simp_all
  | cons l ls ih =>
    cases rs with
    | nil => simp at h1
    | cons r rs =>
      simp only [List.zip_cons_cons, List.forall_mem_cons] at h2
      simp only [List.length_cons, Nat.add_right_cancel_iff] at h1
      rw [List.map_cons, List.map_cons, h2.1, ih h1 h2.2]

theorem PairedOff.of_nodup {bs cs : List Decl} (h : bs.map Decl.result = cs.map Decl.result)
    (hn : bs.Nodup) : PairedOff bs cs where
  length_eq := by simpa using congrArg List.length h
  result_eq _ hp := List.forall₂_zip (Term.map_eq_map_iff_forall₂.mp h) hp
  functional p hp q hq hpq := by
    have hl : bs.length = cs.length := by simpa using congrArg List.length h
    have hz : ((bs.zip cs).map Prod.fst).Nodup := by rwa [List.map_fst_zip (Nat.le_of_eq hl)]
    rw [List.inj_on_of_nodup_map hz hp hq hpq]

end Rebound

namespace Term

structure CarriesVariable (s : Scopes) (τ : Decl → Decl) (l r : Decl) : Prop where
  result_eq : l.result = r.result
  target_eq : τ l = r
  uncaptured : r ∈ s.right → l ∈ s.left

mutual

def Carries (s : Scopes) (τ : Decl → Decl) : Term → Term → Prop
  | .app _ f [], .app _ g [] => CarriesVariable s τ f g
  | .app _ f (a :: as), .app _ g bs => f = g ∧ CarriesAll s τ (a :: as) bs
  | .quantified _ p bs b, .quantified _ q cs c =>
    p = q ∧ PairedOff bs cs ∧ Carries (s.enter bs cs) (rebound bs cs τ) b c
  | .lambda _ is b, .lambda _ js c =>
    PairedOff is js ∧ Carries (s.enter is js) (rebound is js τ) b c
  | .literal _ t x, .literal _ u y => t = u ∧ x = y
  | _, _ => False

def CarriesAll (s : Scopes) (τ : Decl → Decl) : List Term → List Term → Prop
  | [], [] => True
  | l :: ls, r :: rs => Carries s τ l r ∧ CarriesAll s τ ls rs
  | _, _ => False

end

variable {s : Scopes} {τ : Decl → Decl}

theorem carriesAll_iff {ls rs : List Term} :
    CarriesAll s τ ls rs ↔ List.Forall₂ (Carries s τ) ls rs := by
  induction ls generalizing rs with
  | nil => cases rs <;> simp [CarriesAll]
  | cons l ls ih => cases rs <;> simp [CarriesAll, ih]

theorem carries_app {m n : NodeId} {f : Decl} {as bs : List Term} (hne : as ≠ [])
    (h : List.Forall₂ (Carries s τ) as bs) : Carries s τ (.app m f as) (.app n f bs) := by
  obtain ⟨a, as, rfl⟩ := List.exists_cons_of_ne_nil hne
  exact ⟨rfl, carriesAll_iff.mpr h⟩

@[elab_as_elim]
theorem Carries.inductionOn {P : ∀ s τ l r, Carries s τ l r → Prop}
    (var : ∀ s τ m n f g (h : CarriesVariable s τ f g), P s τ (.app m f []) (.app n g []) h)
    (app : ∀ s τ m n f as bs (h : Carries s τ (.app m f as) (.app n f bs)), as ≠ [] →
      List.Forall₂ (fun a b => ∃ h, P s τ a b h) as bs → P s τ _ _ h)
    (quantified : ∀ s τ m n q bs cs b c (hp : PairedOff bs cs)
      (h : Carries (s.enter bs cs) (rebound bs cs τ) b c), P _ _ b c h →
        P s τ (.quantified m q bs b) (.quantified n q cs c) ⟨rfl, hp, h⟩)
    (lambda : ∀ s τ m n is js b c (hp : PairedOff is js)
      (h : Carries (s.enter is js) (rebound is js τ) b c), P _ _ b c h →
        P s τ (.lambda m is b) (.lambda n js c) ⟨hp, h⟩)
    (literal : ∀ s τ m n t x, P s τ (.literal m t x) (.literal n t x) ⟨rfl, rfl⟩)
    {s : Scopes} {τ : Decl → Decl} {l r : Term} (h : Carries s τ l r) : P s τ l r h := by
  induction l generalizing s τ r with
  | app m f as ih =>
    cases r with
    | app n g bs =>
      cases as with
      | nil => cases bs with
        | nil => exact var _ _ _ _ _ _ h
        | cons b bs => cases h
      | cons a as =>
        obtain ⟨rfl, hs⟩ := h
        have hf := carriesAll_iff.mp hs
        have hne := List.cons_ne_nil a as
        apply app _ _ _ _ _ _ _ (carries_app hne hf) hne
        exact List.forall₂_iff_get.mpr ⟨hf.length_eq, fun i h1 h2 =>
          ⟨hf.get h1 h2, ih _ (List.get_mem _ _) (hf.get h1 h2)⟩⟩
    | _ => cases as <;> cases h
  | quantified m q bs b ih =>
    cases r with
    | quantified n q' cs c =>
      obtain ⟨rfl, hp, hb⟩ := h
      exact quantified _ _ _ _ _ _ _ _ _ hp hb (ih hb)
    | _ => cases h
  | lambda m is b ih =>
    cases r with
    | lambda n js c => exact lambda _ _ _ _ _ _ _ _ h.1 h.2 (ih h.2)
    | _ => cases h
  | literal m t x =>
    cases r with
    | literal n u y =>
      obtain ⟨rfl, rfl⟩ := h
      exact literal _ _ _ _ _ _
    | _ => cases h

theorem Carries.ty_eq {l r : Term} (h : Carries s τ l r) : l.ty = r.ty := by
  induction h using Carries.inductionOn with
  | var s τ m n f g h => exact h.result_eq
  | app => rfl
  | quantified => rfl
  | lambda s τ m n is js b c h hb ih =>
    have hr := h.map_result_eq
    simp only [ty, ← List.foldr_map (f := Decl.result) (g := fun i t => Ty.array i t), ih, hr]
  | literal => rfl

open Hash

theorem Carries.content_eq {l r : Term} (h : Carries s τ l r) : content l = content r := by
  have ht := h.ty_eq
  induction h using Carries.inductionOn with
  | var s τ m n f g h => simp only [content, ht]
  | app s τ m n f as bs _ hne h =>
    have hl := h.length_eq
    cases h with
    | nil => contradiction
    | cons => simp only [content, ht, hl]
  | quantified s τ m n q bs cs b c h hb ih => simp only [content, ht, h.length_eq]
  | lambda s τ m n is js b c h hb ih => simp only [content, ht, h.length_eq]
  | literal => rfl

theorem rolled_congr {m : Option Nat} {depth : Nat} {acc : UInt64} {ls rs : List Term}
    (h : List.Forall₂ (fun l r => seen m depth l = seen m depth r) ls rs) :
    rolled m depth acc ls = rolled m depth acc rs := by
  induction h generalizing acc with
  | nil => rfl
  | cons h _ ih => rw [rolled_cons, rolled_cons, h, ih]

theorem Carries.expanded_eq {m : Option Nat} {l r : Term} (h : Carries s τ l r) (depth : Nat) :
    expanded m depth l = expanded m depth r := by
  have hc := h.content_eq
  induction h using Carries.inductionOn generalizing depth with
  | var => exact hc
  | app s τ k n f as bs _ hne h =>
    rw [expanded, expanded, hc]
    apply rolled_congr
    apply h.imp
    rintro a b ⟨ha, ih⟩
    rw [seen, seen, ih _ ha.content_eq, ha.content_eq]
  | quantified s τ k n q bs cs b c h hb ih =>
    have hb' := hb.content_eq
    rw [expanded, expanded, hc, hb', ih (depth + 1) hb']
  | lambda s τ k n is js b c h hb ih =>
    have hb' := hb.content_eq
    rw [expanded, expanded, hc, hb', ih (depth + 1) hb']
  | literal => exact hc

theorem Carries.structural_eq {l r : Term} (h : Carries s τ l r) (m : Option Nat) :
    structural m l = structural m r :=
  h.expanded_eq 1

theorem carries_erase {l r : Term} : Carries s τ l.erase r.erase ↔ Carries s τ l r := by
  induction l generalizing s τ r with
  | app m f as ih =>
    cases r with
    | app n g bs =>
      cases as with
      | nil => cases bs <;> exact Iff.rfl
      | cons a as =>
        simp only [erase, eraseAll_eq_map, List.map_cons, Carries]
        refine and_congr_right fun _ => ?_
        rw [← List.map_cons, carriesAll_iff, carriesAll_iff, List.forall₂_map_left_iff,
          List.forall₂_map_right_iff]
        simp only [List.forall₂_iff_zip]
        refine and_congr_right fun _ => ⟨fun h x y hxy => ?_, fun h x y hxy => ?_⟩
        · exact (ih x (List.of_mem_zip hxy).1).mp (h hxy)
        · exact (ih x (List.of_mem_zip hxy).1).mpr (h hxy)
    | _ => cases as <;> exact Iff.rfl
  | quantified m q bs b ih =>
    cases r with
    | quantified n q' cs c => simp only [erase, Carries, ih]
    | _ => exact Iff.rfl
  | lambda m is b ih =>
    cases r with
    | lambda n js c => simp only [erase, Carries, ih]
    | _ => exact Iff.rfl
  | literal m t x =>
    cases r with
    | literal n u y => exact Iff.rfl
    | _ => exact Iff.rfl

theorem Carries.of_erase_eq {l l' r r' : Term} (h : Carries s τ l r) (hl : l'.erase = l.erase)
    (hr : r'.erase = r.erase) : Carries s τ l' r' := by
  rw [← carries_erase, hl, hr, carries_erase]
  exact h

theorem exists_of_forall₂ {R : Term → Term → Prop} {ls rs : List Term} (h : List.Forall₂ R ls rs)
    {l : Term} (hl : l ∈ ls) : ∃ r ∈ rs, R l r := by
  induction h with
  | nil => cases hl
  | cons hr _ ih =>
    rcases List.mem_cons.mp hl with rfl | hl
    · exact ⟨_, List.mem_cons_self, hr⟩
    · obtain ⟨r, hr, h⟩ := ih hl
      exact ⟨r, List.mem_cons_of_mem _ hr, h⟩

theorem target_of_enter {bs cs : List Decl} {c : Term} {d : Decl}
    (ih : d ∉ (s.enter bs cs).left → rebound bs cs τ d ∈ c.freeVars ∧
      rebound bs cs τ d ∉ (s.enter bs cs).right ∧ (rebound bs cs τ d).result = d.result)
    (hd : d ∉ bs) (hs : d ∉ s.left) :
    (τ d ∈ c.freeVars ∧ τ d ∉ cs) ∧ τ d ∉ s.right ∧ (τ d).result = d.result := by
  obtain ⟨h1, h2, h3⟩ := ih (by simp [Scopes.enter, hd, hs])
  rw [rebound_of_notMem hd] at h1 h2 h3
  simp only [Scopes.enter, List.mem_append, not_or] at h2
  exact ⟨⟨h1, h2.1⟩, h2.2, h3⟩

theorem Carries.target {l r : Term} (h : Carries s τ l r) {d : Decl} (hd : d ∈ l.freeVars)
    (hs : d ∉ s.left) : τ d ∈ r.freeVars ∧ τ d ∉ s.right ∧ (τ d).result = d.result := by
  induction h using Carries.inductionOn with
  | var s τ m n f g h =>
    obtain ⟨rfl, -⟩ := mem_freeIn_var.mp hd
    rw [h.target_eq]
    exact ⟨by simp [freeVars, freeIn], fun hg => hs (h.uncaptured hg), h.result_eq.symm⟩
  | app s τ m n f as bs h hne ih =>
    obtain ⟨a, ha, hda⟩ := (mem_freeIn_app hne).mp hd
    obtain ⟨b, hb, _, hih⟩ := exists_of_forall₂ ih ha
    obtain ⟨h1, h2⟩ := hih hda hs
    exact ⟨(mem_freeIn_app (List.ne_nil_of_mem hb)).mpr ⟨b, hb, h1⟩, h2⟩
  | quantified s τ m n q bs cs b c hp h ih =>
    rw [mem_freeVars_quantified] at hd ⊢
    exact target_of_enter (ih hd.1) hd.2 hs
  | lambda s τ m n is js b c hp h ih =>
    rw [mem_freeVars_lambda] at hd ⊢
    exact target_of_enter (ih hd.1) hd.2 hs
  | literal s τ m n t x => cases hd

end Term

end CoreReuse
