import CoreReuse.Proofs.Matching.Nameless
import CoreReuse.Proofs.Unions

namespace CoreReuse

open Term

namespace Term

structure BindsOnce (t : Term) : Prop where
  binds : t.BindsVariables
  distinct : t.Each fun t => t.bounds.Nodup

mutual

def Unrebound (scope : List Decl) : Term → Prop
  | .app _ _ as => UnreboundAll scope as
  | .quantified _ _ bs b => (∀ d ∈ bs, d ∉ scope) ∧ Unrebound (bs.reverse ++ scope) b
  | .lambda _ is b => (∀ d ∈ is, d ∉ scope) ∧ Unrebound (is.reverse ++ scope) b
  | .literal _ _ _ => True

def UnreboundAll (scope : List Decl) : List Term → Prop
  | [] => True
  | t :: ts => Unrebound scope t ∧ UnreboundAll scope ts

end

variable {scope ls rs : List Decl} {d f g : Decl} {s : Scopes} {σ τ : Decl → Decl} {l r t : Term}

theorem unreboundAll_iff {ts : List Term} : UnreboundAll scope ts ↔ ∀ t ∈ ts, t.Unrebound scope := by
  induction ts with
  | nil => simp [UnreboundAll]
  | cons t ts ih => rw [UnreboundAll, ih, List.forall_mem_cons]

theorem nodup_enter {bs : List Decl} (hb : bs.Nodup) (hs : scope.Nodup) (hn : ∀ d ∈ bs, d ∉ scope) :
    (bs.reverse ++ scope).Nodup := by
  refine List.nodup_append.mpr ⟨List.nodup_reverse.mpr hb, hs, ?_⟩
  rintro d hd e he rfl
  exact hn d (List.mem_reverse.mp hd) he

theorem Unrebound.unshadowed (hd : t.Each fun t => t.bounds.Nodup) (hu : t.Unrebound scope)
    (hs : scope.Nodup) : t.Unshadowed scope := by
  induction t generalizing scope with
  | app n f as ih =>
    refine ⟨fun _ => List.nodup_iff_count_le_one.mp hs f, unshadowedAll_iff.mpr fun a ha => ?_⟩
    exact ih a ha ((each_app.mp hd).2 a ha) (unreboundAll_iff.mp hu a ha) hs
  | quantified n q bs b ih => exact ih hd.2 hu.2 (nodup_enter hd.1 hs hu.1)
  | lambda n is b ih => exact ih hd.2 hu.2 (nodup_enter hd.1 hs hu.1)
  | literal n ty x => trivial

theorem BindsOnce.hygienic (hb : t.BindsOnce) (hu : t.Unrebound []) : t.Hygienic :=
  ⟨hb.binds, hu.unshadowed hb.distinct .nil⟩

theorem symbol_eq_bound {i : Nat} (h : symbol scope d = .bound i) : scope[i]? = some d := by
  unfold symbol at h
  split at h
  · next hd =>
    obtain rfl := Symbol.bound.inj h
    rw [List.getElem?_eq_getElem (List.idxOf_lt_length_of_mem hd), List.getElem_idxOf]
  · cases h

theorem symbol_eq_free (h : symbol scope d = .free f) : d = f ∧ d ∉ scope := by
  unfold symbol at h
  split at h
  · cases h
  · next hd => exact ⟨Symbol.free.inj h, hd⟩

theorem Aligned.carriesVariable (ha : Aligned s ls rs σ τ) (ht : (τ f).result = f.result)
    (h : Nameless.rename σ (.app (symbol ls f) []) = .app (symbol rs g) []) :
    CarriesVariable s τ f g := by
  suffices hg : τ f = g ∧ (g ∈ rs → f ∈ ls) by
    obtain ⟨rfl, hb⟩ := hg
    exact ⟨ht.symm, rfl, fun hr => (ha.left f).mpr (hb ((ha.right _).mp hr))⟩
  by_cases hf : f ∈ ls
  · rw [symbol, if_pos hf] at h
    have hi := symbol_eq_bound (Nameless.app.inj h).1.symm
    rw [ha.inner f hf] at hi
    exact ⟨Option.some.inj hi, fun _ => hf⟩
  · rw [symbol, if_neg hf] at h
    obtain ⟨rfl, hg⟩ := symbol_eq_free (Nameless.app.inj h).1.symm
    exact ⟨ha.outer f hf, fun hr => absurd hr hg⟩

theorem typed_enter {bs cs : List Decl} {b : Term} (hp : PairedOff bs cs)
    (ht : ∀ d ∈ b.freeVars, d ∉ bs → (τ d).result = d.result) :
    ∀ d ∈ b.freeVars, (rebound bs cs τ d).result = d.result := by
  intro d hd
  by_cases hb : d ∈ bs
  · obtain ⟨e, he⟩ := exists_mem_zip hp.length_eq hb
    rw [hp.rebound_eq he, ← hp.result_eq _ he]
  · rw [rebound_of_notMem hb]
    exact ht d hd hb

theorem map_result_eq_of_signature {bs cs : List Decl}
    (h : bs.map Decl.signature = cs.map Decl.signature) : bs.map Decl.result = cs.map Decl.result := by
  have hr := congrArg (List.map Prod.snd) h
  rwa [List.map_map, List.map_map] at hr

theorem exists_rename_var (x : Symbol) :
    ∃ y, Nameless.rename σ (.app x []) = .app y [] := by
  cases x with
  | bound i => exact ⟨_, rfl⟩
  | free d => exact ⟨_, rfl⟩

theorem Carries.of_nameless_eq (ha : Aligned s ls rs σ τ)
    (ht : ∀ d ∈ l.freeVars, (τ d).result = d.result) (hl : l.BindsOnce) (hr : r.BindsVariables)
    (hw : l.WellFormed) (h : (l.nameless ls).rename σ = r.nameless rs) : Carries s τ l r := by
  obtain ⟨hv, hd⟩ := hl
  induction l generalizing r s ls rs τ with
  | app n f as ih =>
    obtain ⟨hf, hwa⟩ := each_app.mp hw
    cases as with
    | nil =>
      obtain ⟨y, hy⟩ := exists_rename_var (σ := σ) (symbol ls f)
      rw [nameless, namelessAll] at h
      cases r with
      | app n' g bs =>
        cases bs with
        | nil => exact ha.carriesVariable (ht f (by simp [freeVars, freeIn])) h
        | cons b bs =>
          rw [hy] at h
          cases h
      | _ =>
        rw [hy] at h
        cases h
    | cons a as =>
      have hfl : f ∉ ls := fun hm => by
        have := ha.left_arity f hm
        simp [← hf] at this
      rw [nameless, namelessAll_eq_map, Nameless.rename_app (by simp)] at h
      cases r with
      | app n' g bs =>
        rw [nameless, namelessAll_eq_map, Nameless.app.injEq, symbol, if_neg hfl, List.map_map] at h
        obtain ⟨rfl, -⟩ := symbol_eq_free h.1.symm
        have hm := map_eq_map_iff_forall₂.mp h.2
        apply carries_app (by simp)
        rw [List.forall₂_iff_zip] at hm ⊢
        refine ⟨hm.1, fun {t u} hp => ?_⟩
        obtain ⟨hmt, hmu⟩ := List.of_mem_zip hp
        apply ih t hmt ha _ ((each_app.mp hr).2 u hmu) (hwa t hmt) (hm.2 hp)
          ((each_app.mp hv).2 t hmt) ((each_app.mp hd).2 t hmt)
        exact fun d hdt => ht d ((mem_freeIn_app (List.cons_ne_nil a as)).mpr ⟨t, hmt, hdt⟩)
      | _ => cases h
  | quantified n q bs b ih =>
    cases r with
    | quantified n' q' cs c =>
      simp only [nameless, Nameless.rename, Nameless.quantified.injEq] at h
      obtain ⟨rfl, hs, hb⟩ := h
      have hp := PairedOff.of_nodup (map_result_eq_of_signature hs) hd.1
      refine ⟨rfl, hp, ih (ha.enter hp hv.1 hr.1) ?_ hr.2 hw.2 hb hv.2 hd.2⟩
      exact typed_enter hp fun d hm hn => ht d (mem_freeVars_quantified.mpr ⟨hm, hn⟩)
    | _ => cases h
  | lambda n is b ih =>
    cases r with
    | lambda n' js c =>
      simp only [nameless, Nameless.rename, Nameless.lambda.injEq] at h
      have hp := PairedOff.of_nodup (map_result_eq_of_signature h.1) hd.1
      refine ⟨hp, ih (ha.enter hp hv.1 hr.1) ?_ hr.2 hw.2 h.2 hv.2 hd.2⟩
      exact typed_enter hp fun d hm hn => ht d (mem_freeVars_lambda.mpr ⟨hm, hn⟩)
    | _ => cases h
  | literal n ty x =>
    cases r with
    | literal n' ty' x' => exact Nameless.literal.inj h
    | _ => cases h

end Term

theorem instantiates_singleton {σ : Decl → Decl} {l r : Term} :
    Instantiates σ [l] [r] ↔ (∀ d ∈ l.freeVars, (σ d).arity = 0 ∧ (σ d).result = d.result) ∧
      (l.nameless []).rename σ = r.nameless [] := by
  constructor
  · rintro ⟨ht, hc⟩
    obtain ⟨q, hq, he⟩ := hc l (by simp)
    obtain rfl := List.mem_singleton.mp hq
    exact ⟨ht l (by simp), he⟩
  · rintro ⟨ht, he⟩
    constructor
    · intro c hc
      obtain rfl := List.mem_singleton.mp hc
      exact ht
    · intro c hc
      obtain rfl := List.mem_singleton.mp hc
      exact ⟨r, by simp, he⟩

namespace Unifier

theorem carries_iff_instantiates {σ : Decl → Decl} {l r : Term} (hlw : l.WellFormed)
    (hrw : r.WellFormed) (hl : l.BindsOnce) (hr : r.Hygienic) :
    Carries {} σ l r ↔ Instantiates σ [l] [r] := by
  constructor
  · intro h
    have he : Embeds σ [l] [r] := embeds_cons.mpr ⟨⟨r, by simp, h⟩, nofun⟩
    exact he.instantiates (by simpa) (by simpa) (by simpa using hl.binds) (by simpa)
  · intro h
    obtain ⟨ht, he⟩ := instantiates_singleton.mp h
    exact .of_nameless_eq (.nil σ) (fun d hd => (ht d hd).2) hl hr.binds hlw he

theorem finds_instance {l r : Term} (hlw : l.WellFormed) (hrw : r.WellFormed) (hl : l.BindsOnce)
    (hr : r.BindsOnce) (hu : r.Unrebound []) :
    ((∃ s, fresh? l r = some s) ↔ ∃ σ, Instantiates σ [l] [r]) ∧
      ∀ s, fresh? l r = some s →
        (∀ σ, Instantiates σ [l] [r] →
          ∀ d : Decl, s[d]? = if d ∈ l.freeVars then some (σ d) else none) ∧
        ∀ d t : Decl, s[d]? = some t → t ∈ r.freeVars := by
  have hi := fun σ => carries_iff_instantiates (σ := σ) hlw hrw hl (hr.hygienic hu)
  have hnew : ∀ {s}, fresh? l r = some s → ∀ d t : Decl, s[d]? = some t →
      d ∈ l.freeVars ∧ d.result = t.result ∧ t ∈ r.freeVars := by
    intro s hs d t hd
    exact ((extended_of_extend? (b := ∅) hs).new d t hd).resolve_left (by simp)
  constructor
  · constructor
    · rintro ⟨s, hs⟩
      exact ⟨s.total, (hi _).mp ((carries_of_fresh? hs _).mp s.agreesWith_total)⟩
    · rintro ⟨σ, hσ⟩
      cases hs : fresh? l r with
      | none => exact absurd ((hi σ).mpr hσ) (not_carries_of_fresh? hs σ)
      | some s => exact ⟨s, rfl⟩
  · intro s hs
    refine ⟨fun σ hσ d => ?_, fun d t hd => (hnew hs d t hd).2.2⟩
    have ha := (carries_of_fresh? hs σ).mpr ((hi σ).mpr hσ)
    split
    · next hd =>
      obtain ⟨t, ht⟩ := Option.isSome_iff_exists.mp ((extended_of_extend? (b := ∅) hs).bound d hd)
      rw [ht, ha d t ht]
    · next hd =>
      cases ht : s[d]? with
      | none => rfl
      | some t => exact absurd (hnew hs d t ht).1 hd

end Unifier

def Term.nested (n : NodeId) (x y z : String) : Term :=
  let q (n : NodeId) (v : String) : Term :=
    .app n ⟨"q", [.int], .bool, none⟩ [.app (n + 1) (.constant v .int) []]
  .app n ⟨"and", [.bool, .bool], .bool, none⟩
    [q (n + 1) x, .quantified (n + 3) .universal [.constant y .int]
      (.quantified (n + 4) .universal [.constant z .int] (q (n + 5) z))]

theorem Term.wellFormed_nested {n : NodeId} {x y z : String} : (nested n x y z).WellFormed := by
  simp [nested, WellFormed, Each, EachAll, Decl.arity]
  simp [Decl.constant]

theorem Term.bindsOnce_nested {n : NodeId} {x y z : String} : (nested n x y z).BindsOnce := by
  constructor
  · simp [nested, BindsVariables, Each, EachAll, bounds, Decl.arity, Decl.constant]
  · simp [nested, Each, EachAll, bounds]

theorem Unifier.finds_instance_nested :
    (nested 7 "a" "b" "c").Unrebound [] ∧
      ∃ s, fresh? (nested 0 "x" "x" "x") (nested 7 "a" "b" "c") = some s ∧
        ∀ d : Decl, s[d]? = if d = .constant "x" .int then some (.constant "a" .int) else none := by
  have hu : (nested 7 "a" "b" "c").Unrebound [] := by simp +decide [nested, Unrebound, UnreboundAll]
  have hf : (nested 0 "x" "x" "x").freeVars = [.constant "x" .int] := by decide
  have hi : Instantiates (fun _ => .constant "a" .int) [nested 0 "x" "x" "x"] [nested 7 "a" "b" "c"] := by
    rw [instantiates_singleton, hf]
    exact ⟨by simp [Decl.arity, Decl.constant], by rfl⟩
  obtain ⟨he, hs⟩ := finds_instance wellFormed_nested wellFormed_nested bindsOnce_nested
    bindsOnce_nested hu
  obtain ⟨s, hs'⟩ := he.mpr ⟨_, hi⟩
  refine ⟨hu, s, hs', fun d => ?_⟩
  simp only [(hs s hs').1 _ hi d, hf, List.mem_singleton]

end CoreReuse
