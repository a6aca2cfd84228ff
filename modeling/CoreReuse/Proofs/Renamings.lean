import CoreReuse.Renaming.Targets

namespace CoreReuse

namespace Renaming

def AgreesWith (b : Renaming) (τ : Decl → Decl) : Prop := ∀ d t : Decl, b[d]? = some t → τ d = t

def total (b : Renaming) (d : Decl) : Decl := b[d]?.getD d

theorem agreesWith_total (b : Renaming) : b.AgreesWith b.total := by
  intro d t h
  rw [total, h, Option.getD_some]

@[simp] theorem agreesWith_empty (τ : Decl → Decl) : AgreesWith ∅ τ := by
  intro d t h
  simp at h

theorem AgreesWith.congr {r s : Renaming} {τ : Decl → Decl} (h : r.AgreesWith τ)
    (hrs : (r == s) = true) : s.AgreesWith τ := by
  intro d t hd
  rw [← (beq_iff r s).mp hrs d] at hd
  exact h d t hd

theorem merge?_eq_some {base joined u : Renaming} {es : List (Decl × Decl)}
    (hd : es.Pairwise fun e f => e.1 ≠ f.1) (hj : ∀ e ∈ es, joined[e.1]? = base[e.1]?)
    (h : merge? base es joined = some u) (d t : Decl) :
    u[d]? = some t ↔ joined[d]? = some t ∨ (d, t) ∈ es := by
  induction es generalizing joined with
  | nil => simp [← Option.some.inj h]
  | cons e es ih =>
    obtain ⟨o, x⟩ := e
    obtain ⟨hne, hes⟩ := List.pairwise_cons.mp hd
    obtain ⟨ho, hjs⟩ := List.forall_mem_cons.mp hj
    simp only [merge?] at h
    split at h
    · next existing hb =>
      split at h
      · next he =>
        subst he
        rw [ih hes hjs h, List.mem_cons, Prod.mk.injEq]
        have hox : d = o ∧ t = existing → joined[d]? = some t := by
          rintro ⟨rfl, rfl⟩
          rw [ho, hb]
        grind
      · cases h
    · next hb =>
      have hj' : ∀ e ∈ es, (joined.insert o x)[e.1]? = base[e.1]? := by
        intro e he
        rw [getElem?_insert, if_neg (fun h => hne e he h.symm), hjs e he]
      rw [ih hes hj' h, getElem?_insert, List.mem_cons, Prod.mk.injEq]
      grind

theorem merge?_eq_none {base joined : Renaming} {es : List (Decl × Decl)}
    (h : merge? base es joined = none) :
    ∃ d t x : Decl, base[d]? = some t ∧ (d, x) ∈ es ∧ t ≠ x := by
  induction es generalizing joined with
  | nil => cases h
  | cons e es ih =>
    obtain ⟨o, x⟩ := e
    simp only [merge?] at h
    split at h
    · next t hb =>
      split at h
      · obtain ⟨d, t, y, h1, h2, h3⟩ := ih h
        exact ⟨d, t, y, h1, List.mem_cons_of_mem _ h2, h3⟩
      · next hne => exact ⟨o, t, x, hb, List.mem_cons_self, hne⟩
    · obtain ⟨d, t, y, h1, h2, h3⟩ := ih h
      exact ⟨d, t, y, h1, List.mem_cons_of_mem _ h2, h3⟩

theorem mem_toList {r : Renaming} {d t : Decl} : (d, t) ∈ r.toList ↔ r[d]? = some t :=
  Std.TreeMap.mem_toList_iff_getElem?_eq_some

theorem pairwise_toList (r : Renaming) : r.toList.Pairwise fun e f => e.1 ≠ f.1 := by
  have h := r.distinct_keys_toList
  simpa only [Std.LawfulEqCmp.compare_eq_iff_eq] using h

theorem join_eq_some {r s u : Renaming} (h : join r s = some u) (d t : Decl) :
    u[d]? = some t ↔ r[d]? = some t ∨ s[d]? = some t := by
  unfold join at h
  split at h
  · rw [merge?_eq_some (pairwise_toList s) (fun _ _ => rfl) h, mem_toList]
  · rw [merge?_eq_some (pairwise_toList r) (fun _ _ => rfl) h, mem_toList, or_comm]

theorem join_eq_none {r s : Renaming} (h : join r s = none) :
    ∃ d t x : Decl, r[d]? = some t ∧ s[d]? = some x ∧ t ≠ x := by
  unfold join at h
  split at h
  · obtain ⟨d, t, x, h1, h2, h3⟩ := merge?_eq_none h
    exact ⟨d, t, x, h1, mem_toList.mp h2, h3⟩
  · obtain ⟨d, t, x, h1, h2, h3⟩ := merge?_eq_none h
    exact ⟨d, x, t, mem_toList.mp h2, h1, h3.symm⟩

theorem agreesWith_join {r s u : Renaming} (h : join r s = some u) (τ : Decl → Decl) :
    u.AgreesWith τ ↔ r.AgreesWith τ ∧ s.AgreesWith τ := by
  have hu := join_eq_some h
  refine ⟨fun hτ => ⟨fun d t hd => ?_, fun d t hd => ?_⟩, fun ⟨hr, hs⟩ d t hd => ?_⟩
  · exact hτ d t ((hu d t).mpr (.inl hd))
  · exact hτ d t ((hu d t).mpr (.inr hd))
  · exact ((hu d t).mp hd).elim (hr d t) (hs d t)

theorem not_agreesWith_of_join {r s : Renaming} (h : join r s = none) {τ : Decl → Decl}
    (hr : r.AgreesWith τ) : ¬ s.AgreesWith τ := by
  obtain ⟨d, t, x, h1, h2, h3⟩ := join_eq_none h
  intro hs
  exact h3 ((hr d t h1).symm.trans (hs d x h2))

theorem getElem?_eq_some_of_agreesWith {r s : Renaming} (h : ∀ τ, s.AgreesWith τ → r.AgreesWith τ)
    {d t : Decl} (hd : r[d]? = some t) : s[d]? = some t := by
  cases hs : s[d]? with
  | some x =>
    have ht := h _ s.agreesWith_total d t hd
    rw [total, hs, Option.getD_some] at ht
    rw [ht]
  | none =>
    -- A map that agrees with `s` is free to send `d` elsewhere.
    obtain ⟨e, he⟩ : ∃ e : Decl, e ≠ t :=
      ⟨{ t with args := .bool :: t.args }, fun he => List.cons_ne_self _ _ (congrArg Decl.args he)⟩
    have hagree : s.AgreesWith fun x => if x = d then e else s.total x := by
      intro x y hx
      have hne : x ≠ d := by
        rintro rfl
        rw [hs] at hx
        cases hx
      exact (if_neg hne).trans (s.agreesWith_total x y hx)
    have ht := h _ hagree d t hd
    exact absurd ((if_pos rfl).symm.trans ht) he

theorem beq_of_agreesWith_iff {r s : Renaming} (h : ∀ τ, r.AgreesWith τ ↔ s.AgreesWith τ) :
    (r == s) = true := by
  rw [beq_iff]
  intro d
  apply Option.ext
  intro t
  exact ⟨getElem?_eq_some_of_agreesWith fun τ => (h τ).mpr,
    getElem?_eq_some_of_agreesWith fun τ => (h τ).mp⟩

def Reaches (rs : List Renaming) (τ : Decl → Decl) : Prop := ∃ r ∈ rs, r.AgreesWith τ

def Binding (ds : List Decl) (rs : List Renaming) : Prop :=
  ∀ r ∈ rs, ∀ d : Decl, (r[d]?).isSome ↔ d ∈ ds

end Renaming

namespace Targets

open Renaming

def Admits (t : Targets) (τ : Decl → Decl) : Prop :=
  ∀ d : Decl, ∀ ts, t[d]? = some ts → τ d ∈ ts

variable {t : Targets} {rs : List Renaming} {r : Renaming} {τ : Decl → Decl} {ds : List Decl}

theorem admits_empty (τ : Decl → Decl) : Admits ∅ τ := by
  intro d ts h
  simp at h

theorem allows_of_admits (ht : t.Admits τ) (hr : r.AgreesWith τ) : t.allows r = true := by
  rw [allows, List.all_eq_true]
  rintro ⟨d, x⟩ hd
  have hx := hr d x (mem_toList.mp hd)
  cases h : t[d]? with
  | none => rfl
  | some ts =>
    have hm := ht d ts h
    rw [hx] at hm
    simpa using hm

theorem mem_origins {o : Decl} : o ∈ origins rs ↔ ∃ r ∈ rs, (r[o]?).isSome := by
  simp only [origins, List.mem_eraseDups, List.mem_flatMap, Std.TreeMap.mem_keys,
    Std.TreeMap.isSome_getElem?_eq_contains, Std.TreeMap.contains_iff_mem]

theorem mem_used {o x : Decl} : x ∈ used rs o ↔ ∃ r ∈ rs, r[o]? = some x := by
  simp [used, List.mem_eraseDups, List.mem_filterMap]

theorem getElem?_insert (t : Targets) (o : Decl) (ts : List Decl) (d : Decl) :
    (t.insert o ts)[d]? = if d = o then some ts else t[d]? := by
  simp only [Std.TreeMap.getElem?_insert, Std.LawfulEqCmp.compare_eq_iff_eq, @eq_comm _ o]

theorem Admits.insert (ht : t.Admits τ) {o : Decl} {ts : List Decl} (ho : τ o ∈ ts) :
    Admits (t.insert o ts) τ := by
  intro d us hd
  rw [getElem?_insert] at hd
  split at hd
  · next he =>
    obtain rfl := Option.some.inj hd
    exact he ▸ ho
  · exact ht d us hd

theorem narrowAt_of_admits {os : List Decl} (ht : t.Admits τ) (ho : ∀ o ∈ os, τ o ∈ used rs o) :
    (narrowAt rs os t).1 = true ∧ (narrowAt rs os t).2.Admits τ := by
  induction os generalizing t with
  | nil => exact ⟨rfl, ht⟩
  | cons o os ih =>
    obtain ⟨ho, hos⟩ := List.forall_mem_cons.mp ho
    unfold narrowAt
    split
    · exact ih (ht.insert ho) hos
    · next current hc =>
      have hk : τ o ∈ current.filter (used rs o).contains :=
        List.mem_filter.mpr ⟨ht o current hc, by simpa using ho⟩
      dsimp only
      split
      · next he =>
        rw [List.isEmpty_iff.mp he] at hk
        cases hk
      · exact ih (ht.insert hk) hos

theorem narrow_of_admits (ht : t.Admits τ) (hb : Binding ds rs) (hτ : Reaches rs τ) :
    (t.narrow rs).1 = true ∧ (t.narrow rs).2.Admits τ := by
  apply narrowAt_of_admits ht
  intro o ho
  obtain ⟨s, hs, hso⟩ := mem_origins.mp ho
  obtain ⟨r, hr, hrτ⟩ := hτ
  have hro := (hb r hr o).mpr ((hb s hs o).mp hso)
  obtain ⟨x, hx⟩ := Option.isSome_iff_exists.mp hro
  rw [hrτ o x hx]
  exact mem_used.mpr ⟨r, hr, hx⟩

end Targets

end CoreReuse
