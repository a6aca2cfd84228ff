import CoreReuse.Proofs.Matching.Agreement
import Mathlib.Data.List.Basic

/-!
Terms without names: a bound occurrence is its distance to the place that binds it. Two terms are
alpha-equivalent if these are equal. If no occurrence of a variable in the query is shadowed, a term
that is carried to another becomes it by renaming free variables.
-/

namespace CoreReuse

inductive Symbol where
  | bound (index : Nat)
  | free (d : Decl)

inductive Nameless where
  | app (head : Symbol) (args : List Nameless)
  | quantified (quantifier : Quantifier) (types : List (List Ty × Ty)) (body : Nameless)
  | lambda (types : List (List Ty × Ty)) (body : Nameless)
  | literal (ty : Ty) (text : String)

def Decl.signature (d : Decl) : List Ty × Ty := (d.args, d.result)

namespace Nameless

mutual

def rename (σ : Decl → Decl) : Nameless → Nameless
  | .app (.free d) [] => .app (.free (σ d)) []
  | .app h as => .app h (renameAll σ as)
  | .quantified q ts b => .quantified q ts (rename σ b)
  | .lambda ts b => .lambda ts (rename σ b)
  | .literal ty x => .literal ty x

def renameAll (σ : Decl → Decl) : List Nameless → List Nameless
  | [] => []
  | t :: ts => rename σ t :: renameAll σ ts

end

variable {σ : Decl → Decl}

theorem renameAll_eq_map (ts : List Nameless) : renameAll σ ts = ts.map (rename σ) := by
  induction ts with
  | nil => rfl
  | cons t ts ih => rw [renameAll, ih, List.map_cons]

theorem rename_app {h : Symbol} {as : List Nameless} (hne : as ≠ []) :
    rename σ (.app h as) = .app h (as.map (rename σ)) := by
  obtain ⟨a, as, rfl⟩ := List.exists_cons_of_ne_nil hne
  rw [rename, renameAll_eq_map]
  rintro d - ⟨⟩

end Nameless

namespace Term

def symbol (scope : List Decl) (d : Decl) : Symbol :=
  if d ∈ scope then .bound (scope.idxOf d) else .free d

mutual

def nameless (scope : List Decl) : Term → Nameless
  | .app _ f as => .app (symbol scope f) (namelessAll scope as)
  | .quantified _ q bs b =>
    .quantified q (bs.map Decl.signature) (nameless (bs.reverse ++ scope) b)
  | .lambda _ is b => .lambda (is.map Decl.signature) (nameless (is.reverse ++ scope) b)
  | .literal _ ty x => .literal ty x

def namelessAll (scope : List Decl) : List Term → List Nameless
  | [] => []
  | t :: ts => nameless scope t :: namelessAll scope ts

end

theorem namelessAll_eq_map (scope : List Decl) (ts : List Term) :
    namelessAll scope ts = ts.map (nameless scope) := by
  induction ts with
  | nil => rfl
  | cons t ts ih => rw [namelessAll, ih, List.map_cons]

def WellFormed : Term → Prop :=
  Each fun
    | .app _ f as => as.length = f.arity
    | _ => True

def BindsVariables : Term → Prop := Each fun t => ∀ d ∈ t.bounds, d.arity = 0

mutual

/-- No occurrence of a variable stands under two bindings of it. -/
def Unshadowed (scope : List Decl) : Term → Prop
  | .app _ f as => (as = [] → scope.count f ≤ 1) ∧ UnshadowedAll scope as
  | .quantified _ _ bs b => Unshadowed (bs.reverse ++ scope) b
  | .lambda _ is b => Unshadowed (is.reverse ++ scope) b
  | .literal _ _ _ => True

def UnshadowedAll (scope : List Decl) : List Term → Prop
  | [] => True
  | t :: ts => Unshadowed scope t ∧ UnshadowedAll scope ts

end

theorem unshadowedAll_iff {scope : List Decl} {ts : List Term} :
    UnshadowedAll scope ts ↔ ∀ t ∈ ts, t.Unshadowed scope := by
  induction ts with
  | nil => simp [UnshadowedAll]
  | cons t ts ih => rw [UnshadowedAll, ih, List.forall_mem_cons]

theorem nameless_erase (t : Term) (scope : List Decl) : t.erase.nameless scope = t.nameless scope := by
  induction t generalizing scope with
  | app n f as ih =>
    rw [erase, nameless, nameless, eraseAll_eq_map, namelessAll_eq_map, namelessAll_eq_map,
      List.map_map]
    congr 1
    exact List.map_congr_left fun a ha => ih a ha scope
  | quantified n q bs b ih => rw [erase, nameless, nameless, ih]
  | lambda n is b ih => rw [erase, nameless, nameless, ih]
  | literal n ty x => rfl

theorem wellFormed_erase {t : Term} : t.erase.WellFormed ↔ t.WellFormed := by
  refine each_erase fun t => ?_
  cases t with
  | app n f as => simp [erase, eraseAll_eq_map]
  | _ => exact Iff.rfl

theorem bindsVariables_erase {t : Term} : t.erase.BindsVariables ↔ t.BindsVariables := by
  refine each_erase fun t => ?_
  cases t <;> exact Iff.rfl

structure Hygienic (t : Term) : Prop where
  binds : t.BindsVariables
  unshadowed : t.Unshadowed []

theorem idxOf_eq_of_count_le_one {ds : List Decl} {d : Decl} {i : Nat} (hc : ds.count d ≤ 1)
    (hi : ds[i]? = some d) : ds.idxOf d = i := by
  induction ds generalizing i with
  | nil => cases hi
  | cons e ds ih =>
    by_cases he : e = d
    · subst he
      rw [List.count_cons_self] at hc
      have hn : e ∉ ds := List.count_eq_zero.mp (by omega)
      cases i with
      | zero => exact List.idxOf_cons_self
      | succ i =>
        rw [List.getElem?_cons_succ] at hi
        exact absurd (List.mem_of_getElem? hi) hn
    · rw [List.idxOf_cons_ne ds he]
      cases i with
      | zero => exact absurd (Option.some.inj hi) he
      | succ i => rw [ih (Nat.le_trans List.count_le_count_cons hc) hi]

structure Aligned (s : Scopes) (ls rs : List Decl) (σ τ : Decl → Decl) : Prop where
  left : ∀ d, d ∈ s.left ↔ d ∈ ls
  right : ∀ d, d ∈ s.right ↔ d ∈ rs
  inner : ∀ d ∈ ls, rs[ls.idxOf d]? = some (τ d)
  outer : ∀ d, d ∉ ls → τ d = σ d
  left_arity : ∀ d ∈ ls, d.arity = 0
  right_arity : ∀ d ∈ rs, d.arity = 0

theorem Aligned.nil (τ : Decl → Decl) : Aligned {} [] [] τ τ :=
  ⟨by simp, by simp, by simp, fun _ _ => rfl, by simp, by simp⟩

theorem map_signature_eq {bs cs : List Decl} (hp : PairedOff bs cs) (hb : ∀ d ∈ bs, d.arity = 0)
    (hc : ∀ d ∈ cs, d.arity = 0) : bs.map Decl.signature = cs.map Decl.signature := by
  have h : ∀ ds : List Decl, (∀ d ∈ ds, d.arity = 0) →
      ds.map Decl.signature = (ds.map Decl.result).map fun t => ([], t) := by
    intro ds hds
    rw [List.map_map]
    apply List.map_congr_left
    intro d hd
    exact Prod.ext (List.length_eq_zero_iff.mp (hds d hd)) rfl
  rw [h bs hb, h cs hc, hp.map_result_eq]

theorem getElem?_reverse_idxOf {bs cs : List Decl} {τ : Decl → Decl} {d : Decl}
    (hp : PairedOff bs cs) (hd : d ∈ bs) :
    cs.reverse[bs.reverse.idxOf d]? = some (rebound bs cs τ d) := by
  have hd' := List.mem_reverse.mpr hd
  have hi := List.idxOf_lt_length_of_mem hd'
  have hlen : bs.reverse.length = cs.reverse.length := by simp [hp.length_eq]
  have hz : (bs.zip cs).reverse = bs.reverse.zip cs.reverse := List.reverse_zipWith hp.length_eq
  have hm : (d, cs.reverse[bs.reverse.idxOf d]) ∈ bs.zip cs := by
    have hg : (bs.reverse.zip cs.reverse)[bs.reverse.idxOf d]? =
        some (d, cs.reverse[bs.reverse.idxOf d]) := by
      refine List.getElem?_zip_eq_some.mpr ⟨?_, List.getElem?_eq_getElem (hlen ▸ hi)⟩
      rw [List.getElem?_eq_getElem hi, List.getElem_idxOf hi]
    rw [← List.mem_reverse, hz]
    exact List.mem_of_getElem? hg
  rw [hp.rebound_eq hm, List.getElem?_eq_getElem (hlen ▸ hi)]

theorem Aligned.enter {s : Scopes} {ls rs bs cs : List Decl} {σ τ : Decl → Decl}
    (h : Aligned s ls rs σ τ) (hp : PairedOff bs cs) (hb : ∀ d ∈ bs, d.arity = 0)
    (hc : ∀ d ∈ cs, d.arity = 0) :
    Aligned (s.enter bs cs) (bs.reverse ++ ls) (cs.reverse ++ rs) σ (rebound bs cs τ) where
  left d := by simp [Scopes.enter, h.left]
  right d := by simp [Scopes.enter, h.right]
  inner d hd := by
    have hlen : bs.reverse.length = cs.reverse.length := by simp [hp.length_eq]
    by_cases hdb : d ∈ bs
    · have hi := List.idxOf_lt_length_of_mem (List.mem_reverse.mpr hdb)
      rw [List.idxOf_append_of_mem (List.mem_reverse.mpr hdb),
        List.getElem?_append_left (hlen ▸ hi), getElem?_reverse_idxOf hp hdb]
    · have hdr : d ∉ bs.reverse := mt List.mem_reverse.mp hdb
      have hdl := (List.mem_append.mp hd).resolve_left hdr
      rw [List.idxOf_append_of_notMem hdr, hlen, List.getElem?_append_right (Nat.le_add_right _ _),
        Nat.add_sub_cancel_left, rebound_of_notMem hdb, h.inner d hdl]
  outer d hd := by
    simp only [List.mem_append, List.mem_reverse, not_or] at hd
    rw [rebound_of_notMem hd.1, h.outer d hd.2]
  left_arity := by simpa [or_imp, forall_and] using ⟨hb, h.left_arity⟩
  right_arity := by simpa [or_imp, forall_and] using ⟨hc, h.right_arity⟩

theorem Carries.nameless_eq {s : Scopes} {ls rs : List Decl} {σ τ : Decl → Decl} {l r : Term}
    (h : Carries s τ l r) (ha : Aligned s ls rs σ τ) (hl : l.BindsVariables) (hr : r.BindsVariables)
    (hw : l.WellFormed) (hu : r.Unshadowed rs) : (l.nameless ls).rename σ = r.nameless rs := by
  induction h using Carries.inductionOn generalizing ls rs with
  | var s τ m n f g h =>
    have hg := hu.1 rfl
    simp only [nameless, namelessAll]
    by_cases hf : f ∈ ls
    · have hi := ha.inner f hf
      rw [h.target_eq] at hi
      have hgr := List.mem_of_getElem? hi
      rw [symbol, symbol, if_pos hf, if_pos hgr, idxOf_eq_of_count_le_one hg hi]
      rfl
    · have hgr : g ∉ rs := fun hgr =>
        hf ((ha.left f).mp (h.uncaptured ((ha.right g).mpr hgr)))
      rw [symbol, symbol, if_neg hf, if_neg hgr, Nameless.rename, ← ha.outer f hf, h.target_eq]
  | app s τ m n f as bs h hne ih =>
    obtain ⟨hwf, hwa⟩ := each_app.mp hw
    have hfa : f.arity ≠ 0 := by
      rw [← hwf]
      simpa using hne
    have hfl : f ∉ ls := fun hf => hfa (ha.left_arity f hf)
    have hfr : f ∉ rs := fun hf => hfa (ha.right_arity f hf)
    simp only [nameless, namelessAll_eq_map]
    rw [Nameless.rename_app (by simpa using hne), symbol, symbol, if_neg hfl, if_neg hfr]
    have hb := (each_app.mp hl).2
    have hb' := (each_app.mp hr).2
    have hu' := unshadowedAll_iff.mp hu.2
    have hm : List.Forall₂ (fun a b => (a.nameless ls).rename σ = b.nameless rs) as bs := by
      rw [List.forall₂_iff_zip] at ih ⊢
      refine ⟨ih.1, fun {a b} hab => ?_⟩
      obtain ⟨hma, hmb⟩ := List.of_mem_zip hab
      obtain ⟨_, hih⟩ := ih.2 hab
      exact hih ha (hb a hma) (hb' b hmb) (hwa a hma) (hu' b hmb)
    have he := List.forall₂_map_left_iff.mpr (List.forall₂_map_right_iff.mpr hm)
    rw [List.forall₂_eq_eq_eq] at he
    rw [List.map_map, ← he]
    rfl
  | quantified s τ m n q bs cs b c hp h ih =>
    simp only [nameless, Nameless.rename]
    rw [map_signature_eq hp hl.1 hr.1, ih (ha.enter hp hl.1 hr.1) hl.2 hr.2 hw.2 hu]
  | lambda s τ m n is js b c hp h ih =>
    simp only [nameless, Nameless.rename]
    rw [map_signature_eq hp hl.1 hr.1, ih (ha.enter hp hl.1 hr.1) hl.2 hr.2 hw.2 hu]
  | literal s τ m n t x => rfl

theorem arity_eq_zero_of_map_signature_eq {bs cs : List Decl}
    (h : bs.map Decl.signature = cs.map Decl.signature) (hc : ∀ d ∈ cs, d.arity = 0) :
    ∀ d ∈ bs, d.arity = 0 := by
  intro d hd
  have hm : d.signature ∈ cs.map Decl.signature := h ▸ List.mem_map_of_mem hd
  obtain ⟨e, he, hde⟩ := List.mem_map.mp hm
  have ha : e.args = d.args := congrArg Prod.fst hde
  rw [Decl.arity, ← ha]
  exact hc e he

theorem bindsVariables_of_nameless_eq {σ : Decl → Decl} {t u : Term} {ls rs : List Decl}
    (h : (t.nameless ls).rename σ = u.nameless rs) (hu : u.BindsVariables) : t.BindsVariables := by
  induction t generalizing u ls rs with
  | app n f as ih =>
    refine each_app.mpr ⟨by simp [bounds], fun a ha => ?_⟩
    cases u with
    | app n' g bs =>
      rw [nameless, nameless, namelessAll_eq_map, namelessAll_eq_map,
        Nameless.rename_app (by simpa using List.ne_nil_of_mem ha), Nameless.app.injEq, List.map_map]
        at h
      have hm : (a.nameless ls).rename σ ∈ bs.map (nameless rs) := h.2 ▸ List.mem_map_of_mem ha
      obtain ⟨b, hb, he⟩ := List.mem_map.mp hm
      exact ih a ha he.symm ((each_app.mp hu).2 b hb)
    | _ =>
      rw [nameless, nameless, namelessAll_eq_map,
        Nameless.rename_app (by simpa using List.ne_nil_of_mem ha)] at h
      cases h
  | quantified n q bs b ih =>
    cases u with
    | quantified n' q' cs c =>
      simp only [nameless, Nameless.rename, Nameless.quantified.injEq] at h
      exact ⟨arity_eq_zero_of_map_signature_eq h.2.1 hu.1, ih h.2.2 hu.2⟩
    | _ => cases h
  | lambda n is b ih =>
    cases u with
    | lambda n' js c =>
      simp only [nameless, Nameless.rename, Nameless.lambda.injEq] at h
      exact ⟨arity_eq_zero_of_map_signature_eq h.1 hu.1, ih h.2 hu.2⟩
    | _ => cases h
  | literal n ty x => exact fun d hd => nomatch hd

theorem arity_of_mem_freeIn {t : Term} (hw : t.WellFormed) {scope : List Decl} {d : Decl}
    (hd : d ∈ freeIn scope t) : d.arity = 0 := by
  induction t generalizing scope with
  | app n f as ih =>
    obtain ⟨hf, ha⟩ := each_app.mp hw
    cases as with
    | nil =>
      rw [(mem_freeIn_var.mp hd).1]
      exact hf.symm
    | cons a as =>
      obtain ⟨t, ht, hdt⟩ := (mem_freeIn_app (List.cons_ne_nil a as)).mp hd
      exact ih t ht (ha t ht) hdt
  | quantified n q bs b ih => exact ih hw.2 hd
  | lambda n is b ih => exact ih hw.2 hd
  | literal n ty x => cases hd

end Term

/-- The map sends the free variables of the core to variables of their types, and makes of every
clause one that is alpha-equivalent to a clause of the query. -/
structure Instantiates (σ : Decl → Decl) (core query : List Term) : Prop where
  typed : ∀ c ∈ core, ∀ d ∈ c.freeVars, (σ d).arity = 0 ∧ (σ d).result = d.result
  clauses : ∀ c ∈ core, ∃ q ∈ query, (c.nameless []).rename σ = q.nameless []

theorem Embeds.instantiates {τ : Decl → Decl} {core query : List Term} (h : Embeds τ core query)
    (hcw : ∀ c ∈ core, c.WellFormed) (hqw : ∀ q ∈ query, q.WellFormed)
    (hc : ∀ c ∈ core, c.BindsVariables) (hq : ∀ q ∈ query, q.Hygienic) :
    Instantiates τ core query where
  typed c hcm d hd := by
    obtain ⟨q, hqm, hcq⟩ := h c hcm
    obtain ⟨h1, -, h2⟩ := hcq.target hd (by simp)
    exact ⟨Term.arity_of_mem_freeIn (hqw q hqm) h1, h2⟩
  clauses c hcm := by
    obtain ⟨q, hqm, hcq⟩ := h c hcm
    exact ⟨q, hqm, hcq.nameless_eq (.nil τ) (hc c hcm) (hq q hqm).binds (hcw c hcm)
      (hq q hqm).unshadowed⟩

end CoreReuse
