import CoreReuse.Proofs.Extensions
import Mathlib.Data.List.Forall2
import Mathlib.Data.List.Pairwise

namespace CoreReuse.Targets

open Renaming

theorem nodup_eraseDups : ∀ ds : List Decl, ds.eraseDups.Nodup
  | [] => by simp
  | d :: ds => by
    rw [List.eraseDups_cons, List.nodup_cons, List.mem_eraseDups]
    exact ⟨by simp, nodup_eraseDups _⟩
termination_by ds => ds.length
decreasing_by exact Nat.lt_succ_of_le (List.length_filter_le _ _)

variable {t : Targets} {calls more : List (List Renaming)} {rs : List Renaming} {os : List Decl}
variable {o d x : Decl} {r : Renaming}

def Uses (rs : List Renaming) (d x : Decl) : Prop := ∃ r ∈ rs, r[d]? = some x

def Binds (rs : List Renaming) (d : Decl) : Prop := ∃ x, Uses rs d x

def Common (calls : List (List Renaming)) (d x : Decl) : Prop := ∀ rs ∈ calls, Binds rs d → Uses rs d x

/-- What calls have left possible. Each of them narrowed its declarations in some order and left all of
them with a target. -/
inductive Narrowed : List (List Renaming) → Targets → Prop where
  | new : Narrowed [] ∅
  | narrow {calls : List (List Renaming)} {t : Targets} {rs : List Renaming} {os : List Decl} :
      Narrowed calls t → os.Perm (origins rs) → (narrowAt rs os t).1 = true →
      Narrowed (calls ++ [rs]) (narrowAt rs os t).2

theorem mem_origins_iff : d ∈ origins rs ↔ Binds rs d := by
  simp only [mem_origins, Option.isSome_iff_exists, Binds, Uses]
  constructor
  · rintro ⟨r, hr, x, hx⟩
    exact ⟨x, r, hr, hx⟩
  · rintro ⟨x, r, hr, hx⟩
    exact ⟨r, hr, x, hx⟩

theorem common_append : Common (calls ++ more) d x ↔ Common calls d x ∧ Common more d x := by
  simp only [Common, List.mem_append, or_imp, forall_and]

theorem common_concat : Common (calls ++ [rs]) d x ↔ Common calls d x ∧ (Binds rs d → Uses rs d x) := by
  rw [common_append]
  simp only [Common, List.mem_singleton, forall_eq]

def kept (rs : List Renaming) (t : Targets) (o : Decl) : List Decl :=
  match t[o]? with
  | none => used rs o
  | some current => current.filter (used rs o).contains

theorem mem_kept : x ∈ kept rs t d ↔ Uses rs d x ∧ ∀ ts, t[d]? = some ts → x ∈ ts := by
  unfold kept
  cases h : t[d]? with
  | none => simp [mem_used, Uses]
  | some current => simp [mem_used, Uses, and_comm]

theorem kept_insert_of_ne (h : d ≠ o) (ts : List Decl) : kept rs (t.insert o ts) d = kept rs t d := by
  rw [kept, kept, getElem?_insert, if_neg h]

theorem narrowAt_cons (ho : Binds rs o) (os : List Decl) (t : Targets) :
    narrowAt rs (o :: os) t =
      if kept rs t o = [] then (false, t.insert o []) else narrowAt rs os (t.insert o (kept rs t o)) := by
  obtain ⟨x, hx⟩ := ho
  unfold kept
  cases h : t[o]? with
  | none =>
    have hne : used rs o ≠ [] := List.ne_nil_of_mem (mem_used.mpr hx)
    simp only [narrowAt, h, if_neg hne]
  | some current =>
    simp only [narrowAt, h, List.isEmpty_iff]
    split
    · next he => rw [he]
    · rfl

theorem narrowAt_eq_false_iff (hnodup : os.Nodup) (hos : ∀ o ∈ os, Binds rs o) (t : Targets) :
    (narrowAt rs os t).1 = false ↔ ∃ o ∈ os, kept rs t o = [] := by
  induction os generalizing t with
  | nil => simp [narrowAt]
  | cons o os ih =>
    obtain ⟨ho, hos⟩ := List.forall_mem_cons.mp hos
    obtain ⟨hne, hnodup⟩ := List.nodup_cons.mp hnodup
    -- Narrowing one declaration does not show in what is kept of the others.
    have hsame : ∀ d ∈ os, kept rs (t.insert o (kept rs t o)) d = kept rs t d := by
      intro d hd
      exact kept_insert_of_ne (ne_of_mem_of_not_mem hd hne) _
    simp only [narrowAt_cons ho, List.mem_cons, exists_eq_or_imp]
    split
    · next h => exact iff_of_true rfl (.inl h)
    · next h =>
      rw [ih hnodup hos, or_iff_right h]
      exact exists_congr fun d => and_congr_right fun hd => by rw [hsame d hd]

theorem getElem?_narrowAt (hnodup : os.Nodup) (hos : ∀ o ∈ os, Binds rs o) {t : Targets}
    (h : (narrowAt rs os t).1 = true) (d : Decl) :
    (narrowAt rs os t).2[d]? = if d ∈ os then some (kept rs t d) else t[d]? := by
  induction os generalizing t with
  | nil => rfl
  | cons o os ih =>
    obtain ⟨ho, hos⟩ := List.forall_mem_cons.mp hos
    obtain ⟨hne, hnodup⟩ := List.nodup_cons.mp hnodup
    rw [narrowAt_cons ho] at h ⊢
    split at h
    · cases h
    · next hk =>
      rw [if_neg hk, ih hnodup hos h, getElem?_insert]
      by_cases hd : d = o
      · subst hd
        simp [hne]
      · simp [hd, kept_insert_of_ne hd]

structure Intersects (calls : List (List Renaming)) (t : Targets) : Prop where
  absent_iff : ∀ d : Decl, t[d]? = none ↔ ∀ rs ∈ calls, ¬ Binds rs d
  nodup : ∀ (d : Decl) ts, t[d]? = some ts → ts.Nodup
  mem_iff : ∀ (d : Decl) ts, t[d]? = some ts → ∀ x, x ∈ ts ↔ Common calls d x

theorem intersects_empty : Intersects [] ∅ where
  absent_iff d := by simp
  nodup d ts h := by simp at h
  mem_iff d ts h := by simp at h

theorem Intersects.mem_kept_iff (hi : Intersects calls t) (hd : Binds rs d) :
    x ∈ kept rs t d ↔ Common (calls ++ [rs]) d x := by
  rw [mem_kept, common_concat, and_comm, imp_iff_right hd]
  refine and_congr_left fun _ => ?_
  cases h : t[d]? with
  | none =>
    have hnone := (hi.absent_iff d).mp h
    exact iff_of_true nofun fun rs hrs hb => absurd hb (hnone rs hrs)
  | some ts => simp [hi.mem_iff d ts h]

theorem nodup_kept (h : ∀ ts, t[d]? = some ts → ts.Nodup) : (kept rs t d).Nodup := by
  unfold kept
  cases ht : t[d]? with
  | none => exact nodup_eraseDups _
  | some ts => exact (h ts ht).filter _

theorem binds_of_perm (hp : os.Perm (origins rs)) : ∀ o ∈ os, Binds rs o :=
  fun _ ho => mem_origins_iff.mp (hp.mem_iff.mp ho)

theorem nodup_of_perm (hp : os.Perm (origins rs)) : os.Nodup := hp.nodup_iff.mpr (nodup_eraseDups _)

theorem Intersects.concat (hi : Intersects calls t) (hp : os.Perm (origins rs))
    (h : (narrowAt rs os t).1 = true) : Intersects (calls ++ [rs]) (narrowAt rs os t).2 := by
  have hmem : ∀ d, d ∈ os ↔ Binds rs d := fun d => hp.mem_iff.trans mem_origins_iff
  have hget := getElem?_narrowAt (nodup_of_perm hp) (binds_of_perm hp) h
  have hbound : ∀ d, Binds rs d → (narrowAt rs os t).2[d]? = some (kept rs t d) :=
    fun d hd => (hget d).trans (if_pos ((hmem d).mpr hd))
  have hfree : ∀ d, ¬ Binds rs d → (narrowAt rs os t).2[d]? = t[d]? :=
    fun d hd => (hget d).trans (if_neg (mt (hmem d).mp hd))
  constructor
  · intro d
    by_cases hd : Binds rs d
    · refine iff_of_false (by simp [hbound d hd]) fun hnone => ?_
      exact hnone rs (List.mem_append_right _ List.mem_cons_self) hd
    · rw [hfree d hd, hi.absent_iff d]
      simp [or_imp, forall_and, hd]
  · intro d ts hts
    by_cases hd : Binds rs d
    · rw [hbound d hd] at hts
      exact Option.some.inj hts ▸ nodup_kept (hi.nodup d)
    · exact hi.nodup d ts (hfree d hd ▸ hts)
  · intro d ts hts x
    by_cases hd : Binds rs d
    · rw [hbound d hd] at hts
      rw [← Option.some.inj hts, hi.mem_kept_iff hd]
    · rw [hi.mem_iff d ts (hfree d hd ▸ hts), common_concat, and_iff_left fun hb => absurd hb hd]

theorem Narrowed.intersects (hn : Narrowed calls t) : Intersects calls t := by
  induction hn with
  | new => exact intersects_empty
  | narrow _ hp h ih => exact ih.concat hp h

theorem Intersects.fails_iff (hi : Intersects calls t) (hp : os.Perm (origins rs)) :
    (narrowAt rs os t).1 = false ↔ ∃ d, Binds rs d ∧ ∀ x, ¬ Common (calls ++ [rs]) d x := by
  rw [narrowAt_eq_false_iff (nodup_of_perm hp) (binds_of_perm hp)]
  refine exists_congr fun d => ?_
  rw [hp.mem_iff, mem_origins_iff]
  refine and_congr_right fun hd => ?_
  simp only [← hi.mem_kept_iff hd, List.eq_nil_iff_forall_not_mem]

theorem allows_iff : t.allows r = true ↔ ∀ d x : Decl, r[d]? = some x → ∀ ts, t[d]? = some ts → x ∈ ts := by
  simp only [allows, List.all_eq_true, Prod.forall, mem_toList]
  refine forall₂_congr fun d x => imp_congr_right fun _ => ?_
  cases h : t[d]? with
  | none => simp
  | some ts => simp

def Uniform (calls : List (List Renaming)) : Prop := ∀ rs ∈ calls, ∃ ds, Binding ds rs

theorem Uniform.uses (hu : Uniform calls) (hrs : rs ∈ calls) (hd : Binds rs d) (hr : r ∈ rs) :
    ∃ x, r[d]? = some x := by
  obtain ⟨ds, hb⟩ := hu rs hrs
  obtain ⟨y, s, hs, hy⟩ := hd
  exact Option.isSome_iff_exists.mp ((hb r hr d).mpr ((hb s hs d).mp (by simp [hy])))

structure Choice (calls : List (List Renaming)) (choice : List Renaming) : Prop where
  chosen : List.Forall₂ (· ∈ ·) choice calls
  compatible : choice.Pairwise Compatible

theorem exists_chosen {choice : List Renaming} (hc : List.Forall₂ (· ∈ ·) choice calls) (hrs : rs ∈ calls) :
    ∃ r ∈ choice, r ∈ rs := by
  induction hc with
  | nil => cases hrs
  | cons hr _ ih =>
    rcases List.mem_cons.mp hrs with rfl | hrs
    · exact ⟨_, List.mem_cons_self, hr⟩
    · obtain ⟨r, hr, h⟩ := ih hrs
      exact ⟨r, List.mem_cons_of_mem _ hr, h⟩

theorem Choice.common {choice : List Renaming} (hc : Choice calls choice) (hu : Uniform calls)
    (hr : r ∈ choice) (hx : r[d]? = some x) : Common calls d x := by
  intro rs hrs hd
  -- What is chosen for this call binds the declaration too, and does not clash.
  obtain ⟨q, hq, hqs⟩ := exists_chosen hc.chosen hrs
  obtain ⟨z, hz⟩ := hu.uses hrs hd hqs
  obtain rfl : z = x := hc.compatible.forall_of_forall (fun p _ => .refl p) hq hr d z x hz hx
  exact ⟨q, hqs, hz⟩

theorem Intersects.allows_of_choice (hi : Intersects calls t) {choice : List Renaming}
    (hc : Choice (calls ++ more) choice) (hu : Uniform (calls ++ more)) (hr : r ∈ choice) :
    t.allows r = true :=
  allows_iff.mpr fun d x hx ts hts =>
    (hi.mem_iff d ts hts x).mpr (common_append.mp (hc.common hu hr hx)).1

theorem Intersects.narrowAt_of_choice (hi : Intersects calls t) {choice : List Renaming}
    (hc : Choice (calls ++ rs :: more) choice) (hu : Uniform (calls ++ rs :: more))
    (hp : os.Perm (origins rs)) : (narrowAt rs os t).1 = true := by
  rw [← Bool.not_eq_false, hi.fails_iff hp]
  rintro ⟨d, hd, hnone⟩
  have hrs : rs ∈ calls ++ rs :: more := List.mem_append_right _ List.mem_cons_self
  obtain ⟨r, hr, hrrs⟩ := exists_chosen hc.chosen hrs
  obtain ⟨x, hx⟩ := hu.uses hrs hd hrrs
  have hall := hc.common hu hr hx
  rw [List.append_cons] at hall
  exact hnone x (common_append.mp hall).1

/-- The targets of a declaration are those that every call uses which binds it. A further call fails if it
leaves a declaration without any, and neither that nor pruning excludes a choice of compatible renamings. -/
theorem Narrowed.targets_exactly (hn : Narrowed calls t) :
    Intersects calls t ∧
      (∀ rs os, os.Perm (origins rs) →
        ((narrowAt rs os t).1 = false ↔ ∃ d, Binds rs d ∧ ∀ x, ¬ Common (calls ++ [rs]) d x)) ∧
      (∀ r : Renaming, t.allows r = true ↔
        ∀ d x : Decl, r[d]? = some x → ∀ ts, t[d]? = some ts → x ∈ ts) ∧
      ∀ more choice, Uniform (calls ++ more) → Choice (calls ++ more) choice →
        (∀ r ∈ choice, t.allows r = true) ∧ ∀ rs rest, more = rs :: rest →
          ∀ os, os.Perm (origins rs) → (narrowAt rs os t).1 = true := by
  have hi := hn.intersects
  refine ⟨hi, fun rs os => hi.fails_iff, fun r => allows_iff, fun more choice hu hc => ⟨?_, ?_⟩⟩
  · exact fun r => hi.allows_of_choice hc hu
  · rintro rs rest rfl os
    exact hi.narrowAt_of_choice hc hu

theorem Narrowed.targets_crossing :
    let x := Decl.constant "x" .int
    let y := Decl.constant "y" .int
    let a := Decl.constant "a" .int
    let b := Decl.constant "b" .int
    let c := Decl.constant "c" .int
    let xa : Renaming := Std.TreeMap.insert ∅ x a
    let xb : Renaming := Std.TreeMap.insert ∅ x b
    let xc : Renaming := Std.TreeMap.insert ∅ x c
    let calls : List (List Renaming) := [[xa.insert y a, xb.insert y c], [xb, xc]]
    let t : Targets := ((Targets.narrow ∅ [xa.insert y a, xb.insert y c]).2.narrow [xb, xc]).2
    Narrowed calls t ∧ Intersects calls t ∧ t[x]? = some [b] ∧ t[y]? = some [a, c] ∧
      (t.narrow [xc]).1 = false ∧ t.allows (xa.insert y a) = false ∧ t.allows (xb.insert y c) = true := by
  intro x y a b c xa xb xc calls t
  have hn : Narrowed calls t :=
    .narrow (.narrow .new (.refl _) (by decide +kernel)) (.refl _) (by decide +kernel)
  have hx : t[x]? = some [b] := by decide +kernel
  have hu : Uniform (calls ++ []) := by
    have hfirst : Binding [x, y] [xa.insert y a, xb.insert y c] := by
      rintro r hr d
      rcases List.mem_pair.mp hr with rfl | rfl <;> simp only [xa, xb, Renaming.getElem?_insert] <;> grind
    have hsecond : Binding [x] [xb, xc] := by
      rintro r hr d
      rcases List.mem_pair.mp hr with rfl | rfl <;> simp only [xb, xc, Renaming.getElem?_insert] <;> grind
    simp only [calls, List.append_nil, Uniform, List.forall_mem_cons]
    exact ⟨⟨_, hfirst⟩, ⟨_, hsecond⟩, nofun⟩
  have hclash : Compatible (xb.insert y c) xb := by
    have hy : xb[y]? = none := by decide +kernel
    intro d e f he hf
    rw [Renaming.getElem?_insert] at he
    split at he
    · next hd =>
      rw [hd, hy] at hf
      cases hf
    · exact Option.some.inj (he.symm.trans hf)
  have hc : Choice (calls ++ []) [xb.insert y c, xb] :=
    ⟨.cons (by simp) (.cons (by simp) .nil), by simpa using hclash⟩
  obtain ⟨hi, hfails, hallows, hkeeps⟩ := hn.targets_exactly
  refine ⟨hn, hi, hx, by decide +kernel, ?_, ?_, (hkeeps [] _ hu hc).1 _ List.mem_cons_self⟩
  · have hxc : xc[x]? = some c := by decide +kernel
    refine (hfails _ _ (.refl _)).mpr ⟨x, ⟨c, xc, List.mem_cons_self, hxc⟩, fun z hz => ?_⟩
    obtain ⟨hcommon, huses⟩ := common_concat.mp hz
    obtain ⟨r, hr, hrz⟩ := huses ⟨c, xc, List.mem_cons_self, hxc⟩
    rw [List.mem_singleton.mp hr, hxc] at hrz
    have hz := (hi.mem_iff x [b] hx z).mpr hcommon
    rw [← Option.some.inj hrz] at hz
    exact absurd hz (by decide)
  · rw [← Bool.not_eq_true, hallows]
    intro h
    have hb := h x a (by decide +kernel) [b] hx
    exact absurd hb (by decide)

end CoreReuse.Targets
