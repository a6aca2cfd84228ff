import CoreReuse.Proofs.Histories
import CoreReuse.Proofs.Matching.Instances

namespace CoreReuse.Unifier

variable {V : Vocabulary} {m : Option Nat} {g h : Hasher} {l r : Term} {b : Renaming}

def guardedBy (g h : Hasher) (b : Renaming) : Unifier :=
  { bindings := b, guarded := true, left := g, right := h }

theorem ready_guardedBy (hg : g.Sound V m) (hh : h.Sound V m) : (guardedBy g h b).Ready V m true :=
  ⟨rfl, fun _ => hg, fun _ => hh⟩

theorem structural_eq_of_unify (hb : (unify {} l r (plain b)).1 = true) :
    Hash.structural m l = Hash.structural m r := by
  have he := unify_extends (s := {}) l r (plain_ready (V := .empty) (m := none) b) nofun nofun
  have hleast := (he.least hb _).mp (Renaming.agreesWith_total _)
  exact hleast.2.structural_eq m

def found (out : Bool × Unifier) : Option Renaming := if out.1 then some out.2.bindings else none

theorem found_unify_guardedBy (hg : g.Sound V m) (hh : h.Sound V m) (hl : l ∈ V) (hr : r ∈ V) :
    found (unify {} l r (guardedBy g h b)) = found (unify {} l r (plain b)) := by
  have hguarded : found (unify {} l r (guardedBy g h b)) = extend? b l r :=
    unify_eq_extend? (ready_guardedBy hg hh) (fun _ => hl) fun _ => hr
  have hplain : found (unify {} l r (plain b)) = extend? b l r :=
    unify_eq_extend? (plain_ready (V := .empty) (m := none) b) nofun nofun
  exact hguarded.trans hplain.symm

theorem eq_of_found_eq {out out' : Bool × Unifier} (hf : found out = found out') :
    out.1 = out'.1 ∧ (out'.1 = true → out.2.bindings = out'.2.bindings) := by
  rcases out with ⟨_ | _, u⟩ <;> rcases out' with ⟨_ | _, v⟩
  · exact ⟨rfl, nofun⟩
  · cases hf
  · cases hf
  · exact ⟨rfl, fun _ => Option.some.inj hf⟩

theorem guarded_agrees (hg : g.Reached V m) (hh : h.Reached V m) (hl : l ∈ V) (hr : r ∈ V)
    (b : Renaming) :
    let bare := unify {} l r { bindings := b }
    let out := unify {} l r { bindings := b, guarded := true, left := g, right := h }
    (bare.1 = true → (g.hash l).1 = (h.hash r).1) ∧
      out.1 = bare.1 ∧ (bare.1 = true → out.2.bindings = bare.2.bindings) ∧
      (V.Fits m → (g.hash l).2.overflowed = false ∧ (h.hash r).2.overflowed = false ∧
        out.2.left.overflowed = false ∧ out.2.right.overflowed = false) ∧
      ∀ k, m = some k → wordLimit ≤ k + 2 → l.height ≤ k + 1 →
        ((g.hash l).2.hash l).2.overflowed = true := by
  intro bare out
  obtain ⟨hx, hgl⟩ := Hasher.hash_sound hg.sound hl
  obtain ⟨hy, hhr⟩ := Hasher.hash_sound hh.sound hr
  obtain ⟨hanswer, hbindings⟩ := eq_of_found_eq (found_unify_guardedBy (b := b) hg.sound hh.sound hl hr)
  have hready := (unify_extends (s := {}) l r (ready_guardedBy (b := b) hg.sound hh.sound)
    (fun _ => hl) fun _ => hr).ready
  refine ⟨fun hb => ?_, hanswer, hbindings, fun hf => ?_, ?_⟩
  · rw [hx, hy]
    exact structural_eq_of_unify hb
  · exact ⟨hgl.calm hf, hhr.calm hf, (hready.left rfl).calm hf, (hready.right rfl).calm hf⟩
  · rintro k rfl hk hlk
    apply Hasher.overflowed_of_remembered hgl.maxHeight_eq hk
    apply Hasher.remembered_hash hg.sound hl
    rintro _ ⟨⟩
    omega

end Unifier

open Unifier

def Vocabulary.nesteds : Vocabulary :=
  .ofTerms [.nested 0 "x" "x" "x", .nested 7 "a" "b" "c"] (by decide)

theorem Vocabulary.nesteds_fits : nesteds.Fits (some 2) := by
  rintro _ ⟨⟩
  exact ⟨by decide, show ∀ t ∈ Term.subtermsAll [.nested 0 "x" "x" "x", .nested 7 "a" "b" "c"], _ by decide⟩

theorem Unifier.guarded_agrees_nested :
    let l := Term.nested 0 "x" "x" "x"
    let r := Term.nested 7 "a" "b" "c"
    let cold := Hasher.ofMaxHeight (some 2)
    let warm := (cold.hash l).2
    let out := unify {} l r { bindings := ∅, guarded := true, left := warm, right := cold }
    (warm.hash l).1 = (cold.hash r).1 ∧ out.1 = true ∧ out.2.left.overflowed = false ∧
      out.2.right.overflowed = false := by
  have hl : Term.nested 0 "x" "x" "x" ∈ Vocabulary.nesteds := Vocabulary.mem_ofTerms List.mem_cons_self
  have hr : Term.nested 7 "a" "b" "c" ∈ Vocabulary.nesteds :=
    Vocabulary.mem_ofTerms (List.mem_cons_of_mem _ List.mem_cons_self)
  have hbare : (unify {} (.nested 0 "x" "x" "x") (.nested 7 "a" "b" "c") { bindings := ∅ }).1 = true := by
    decide +kernel
  have hcold : Hasher.Reached .nesteds (some 2) (.ofMaxHeight (some 2)) := .new
  obtain ⟨hhash, hanswer, -, hcalm, -⟩ := guarded_agrees (hcold.hash hl) hcold hl hr ∅
  obtain ⟨-, -, hleft, hright⟩ := hcalm Vocabulary.nesteds_fits
  exact ⟨hhash hbare, hanswer.trans hbare, hleft, hright⟩

theorem Unifier.nested_overflows :
    let l := Term.nested 0 "x" "x" "x"
    let r := Term.nested 7 "a" "b" "c"
    let fresh := Hasher.ofMaxHeight (some (wordLimit - 1))
    (unify {} l r { bindings := ∅ }).1 = true ∧
      (unify {} l r { bindings := ∅, guarded := true, left := fresh, right := fresh }).2.left.overflowed =
        true := by
  decide +kernel

end CoreReuse
