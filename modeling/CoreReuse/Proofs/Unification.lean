import CoreReuse.Proofs.Carrying
import CoreReuse.Proofs.Fingerprints
import CoreReuse.Proofs.Frames
import CoreReuse.Proofs.Renamings

namespace CoreReuse

namespace Unifier

open Term

variable {V : Vocabulary} {m : Option Nat} {g : Bool} {s : Scopes} {u v : Unifier}

structure Ready (V : Vocabulary) (m : Option Nat) (guarded : Bool) (u : Unifier) : Prop where
  guarded_eq : u.guarded = guarded
  left : guarded = true → u.left.Sound V m
  right : guarded = true → u.right.Sound V m

theorem Ready.withBindings (h : u.Ready V m g) (b : Renaming) :
    Ready V m g { u with bindings := b } :=
  ⟨h.guarded_eq, h.left, h.right⟩

structure Extends (V : Vocabulary) (m : Option Nat) (g : Bool) (s : Scopes) (P : (Decl → Decl) → Prop)
    (ls rs : List Decl) (u : Unifier) (out : Bool × Unifier) : Prop extends Frames s ls rs u out where
  ready : out.2.Ready V m g
  bound : out.1 = true → ∀ d ∈ ls, (out.2.bindings[d]?).isSome
  least : out.1 = true → ∀ τ, out.2.bindings.AgreesWith τ ↔ u.bindings.AgreesWith τ ∧ P τ
  complete : out.1 = false → ∀ τ, u.bindings.AgreesWith τ → ¬ P τ

variable {P P' : (Decl → Decl) → Prop} {ls rs ls' rs' : List Decl} {out : Bool × Unifier}

namespace Extends

theorem congr (h : Extends V m g s P ls rs u out) (hP : ∀ τ, P τ ↔ P' τ) : Extends V m g s P' ls rs u out := by
  have he : P = P' := funext fun τ => propext (hP τ)
  exact he ▸ h

theorem refuse (hu : u.Ready V m g) (h : ∀ τ, u.bindings.AgreesWith τ → ¬ P τ) :
    Extends V m g s P ls rs u (false, u) where
  toFrames := .of_bindings_eq rfl
  ready := hu
  bound := by simp
  least := by simp
  complete _ := h

theorem accept (hu : u.Ready V m g) (h : ∀ τ, P τ) : Extends V m g s P [] rs u (true, u) where
  toFrames := .of_bindings_eq rfl
  ready := hu
  bound := by simp
  least := by simp [h]
  complete := by simp

theorem andThen {step : Unifier → Bool × Unifier} (h : Extends V m g s P ls rs u out)
    (hs : ∀ v : Unifier, v.Ready V m g → Extends V m g s P' ls' rs' v (step v)) :
    Extends V m g s (fun τ => P τ ∧ P' τ) (ls ++ ls') (rs ++ rs') u (andThen out step) := by
  have hframes := h.toFrames.andThen fun _ => (hs out.2 h.ready).toFrames
  obtain ⟨ok, v⟩ := out
  cases ok with
  | false => exact ⟨hframes, h.ready, nofun, nofun, fun _ τ hτ hP => h.complete rfl τ hτ hP.1⟩
  | true =>
    have h' := hs v h.ready
    refine ⟨hframes, h'.ready, fun hok d hd => ?_, fun hok τ => ?_, fun hok τ hτ hP => ?_⟩
    · rcases List.mem_append.mp hd with hd | hd
      · obtain ⟨t, ht⟩ := Option.isSome_iff_exists.mp (h.bound rfl d hd)
        exact Option.isSome_iff_exists.mpr ⟨t, h'.kept d t ht⟩
      · exact h'.bound hok d hd
    · rw [Unifier.andThen, h'.least hok, h.least rfl, and_assoc]
    · exact h'.complete hok τ ((h.least rfl τ).mpr ⟨hτ, hP.1⟩) hP.2

end Extends

theorem unifyDecl_extends {l r : Decl} (hu : u.Ready V m g) (hs : r ∈ s.right → l ∈ s.left) :
    Extends V m g s (CarriesVariable s · l r) [l] [r] u (unifyDecl l r u) := by
  have hframes : Frames s [l] [r] u (unifyDecl l r u) := unifyDecl_frames hs
  unfold unifyDecl at hframes ⊢
  split
  · next hr =>
    rw [if_pos hr] at hframes
    cases hl : u.bindings[l]? with
    | some t =>
      rw [Renaming.bind_of_getElem?_eq_some hl] at hframes ⊢
      by_cases ht : t = r
      · subst ht
        refine ⟨hframes, hu, fun _ d hd => ?_, fun _ τ => ?_, by simp⟩
        · rw [List.mem_singleton.mp hd, hl]
          rfl
        · exact ⟨fun hτ => ⟨hτ, hr, hτ l t hl, hs⟩, And.left⟩
      · rw [beq_eq_false_iff_ne.mpr ht]
        exact .refuse hu fun τ hτ hP => ht ((hτ l t hl).symm.trans hP.target_eq)
    | none =>
      rw [Renaming.bind_of_getElem?_eq_none hl] at hframes ⊢
      refine ⟨hframes, hu.withBindings _, fun _ d hd => ?_, fun _ τ => ?_, by simp⟩
      · rw [List.mem_singleton.mp hd, Renaming.getElem?_insert, if_pos rfl]
        rfl
      · constructor
        · intro hτ
          refine ⟨fun d t hd => hτ d t (hframes.kept d t hd), hr, hτ l r ?_, hs⟩
          · rw [Renaming.getElem?_insert, if_pos rfl]
        · rintro ⟨hτ, hP⟩ d t hd
          rw [Renaming.getElem?_insert] at hd
          split at hd
          · next he => rw [he, hP.target_eq, Option.some.inj hd]
          · exact hτ d t hd
  · next hr => exact .refuse hu fun τ _ hP => hr hP.result_eq

theorem unifyVariable_extends {l r : Decl} (hu : u.Ready V m g) :
    Extends V m g s (CarriesVariable s · l r) [l] [r] u (unifyVariable s l r u) := by
  unfold unifyVariable
  split
  · next hc =>
    simp only [List.contains_eq_mem, Bool.and_eq_true, decide_eq_true_eq, Bool.not_eq_true',
      decide_eq_false_iff_not] at hc
    exact .refuse hu fun τ _ hP => hc.2 (hP.uncaptured hc.1)
  · next hc =>
    apply unifyDecl_extends hu
    simpa using hc

theorem unifyBounds_extends (ls rs : List Decl) (hu : u.Ready V m g) (hl : ∀ l ∈ ls, l ∈ s.left) :
    Extends V m g s (fun τ => List.Forall₂ (CarriesVariable s τ) ls rs) ls rs u
      (unifyBounds ls rs u) := by
  induction ls generalizing rs u with
  | nil =>
    cases rs with
    | nil => exact .accept hu fun _ => .nil
    | cons r rs => exact .refuse hu fun τ _ hP => by cases hP
  | cons l ls ih =>
    cases rs with
    | nil => exact .refuse hu fun τ _ hP => by cases hP
    | cons r rs =>
      obtain ⟨h1, h2⟩ := List.forall_mem_cons.mp hl
      have h := (unifyDecl_extends (r := r) hu fun _ => h1).andThen
        (fun v hv => ih rs hv h2)
      rw [unifyBounds_cons]
      exact h.congr fun τ => List.forall₂_cons.symm

end Unifier

section Bounds

variable {s : Scopes} {bs cs : List Decl} {τ : Decl → Decl}

theorem target_eq_of_mem_zip (h : List.Forall₂ (Term.CarriesVariable s τ) bs cs)
    {p : Decl × Decl} (hp : p ∈ bs.zip cs) : τ p.1 = p.2 :=
  (List.forall₂_zip h hp).target_eq

theorem PairedOff.of_forall₂ (h : List.Forall₂ (Term.CarriesVariable s τ) bs cs) :
    PairedOff bs cs where
  length_eq := h.length_eq
  result_eq _ hp := (List.forall₂_zip h hp).result_eq
  functional p hp q hq hpq := by
    rw [← target_eq_of_mem_zip h hp, ← target_eq_of_mem_zip h hq, hpq]

theorem PairedOff.forall₂_rebound (h : PairedOff bs cs) :
    List.Forall₂ (Term.CarriesVariable (s.enter bs cs) (rebound bs cs τ)) bs cs := by
  rw [List.forall₂_iff_zip]
  refine ⟨h.length_eq, fun {l r} hp => ⟨h.result_eq _ hp, h.rebound_eq hp, fun _ => ?_⟩⟩
  exact List.mem_append_left _ (List.of_mem_zip hp).1

end Bounds

namespace Unifier

open Term

variable {V : Vocabulary} {m : Option Nat} {g : Bool} {s : Scopes} {u : Unifier}

variable {bs cs : List Decl} {b c : Term} {out : Bool × Unifier}

theorem Extends.unshadow (h : Extends V m g (s.enter bs cs)
    (fun τ => List.Forall₂ (CarriesVariable (s.enter bs cs) τ) bs cs ∧ Carries (s.enter bs cs) τ b c)
    (bs ++ b.freeVars) (cs ++ c.freeVars) { u with bindings := u.bindings.eraseAll bs } out) :
    Extends V m g s (fun τ => PairedOff bs cs ∧ Carries (s.enter bs cs) (rebound bs cs τ) b c)
      (freeIn bs b) (freeIn cs c) u (leave bs u out) := by
  have hd : ∀ d : Decl, (leave bs u out).2.bindings[d]? =
      if d ∈ bs then u.bindings[d]? else out.2.bindings[d]? :=
    getElem?_unshadowed u.bindings out.2.bindings bs
  have hframes : Frames s (freeIn bs b) (freeIn cs c) u (leave bs u out) := h.toFrames.unshadow
  -- A map agrees with what was bound before the scope if inside it agrees with what is left of that.
  have hin : ∀ τ, u.bindings.AgreesWith τ → (u.bindings.eraseAll bs).AgreesWith (rebound bs cs τ) := by
    intro τ hτ d t hdt
    obtain ⟨hn, hdt⟩ := getElem?_eraseAll_eq_some.mp hdt
    rw [rebound_of_notMem hn, hτ d t hdt]
  obtain ⟨ok, w⟩ := out
  refine ⟨hframes, h.ready.withBindings _, fun hok d hdb => ?_, fun hok τ => ?_,
    fun hok τ hτ ⟨hp, hc⟩ => ?_⟩
  · obtain ⟨h1, h2⟩ := mem_freeIn.mp hdb
    rw [hd, if_neg h2]
    exact h.bound hok d (List.mem_append_right _ h1)
  · have ht := ((h.least hok _).mp w.bindings.agreesWith_total).2.1
    have hp := PairedOff.of_forall₂ ht
    constructor
    · intro hτ
      have hu : u.bindings.AgreesWith τ := fun d t hdt => hτ d t (hframes.kept d t hdt)
      have hw : w.bindings.AgreesWith (rebound bs cs τ) := by
        intro d t hdt
        by_cases hn : d ∈ bs
        · obtain ⟨e, hde⟩ := exists_mem_zip hp.length_eq hn
          rw [hp.rebound_eq hde, ← w.bindings.agreesWith_total d t hdt, target_eq_of_mem_zip ht hde]
        · rw [rebound_of_notMem hn]
          exact hτ d t (by rw [hd, if_neg hn, hdt])
      exact ⟨hu, hp, ((h.least hok _).mp hw).2.2⟩
    · rintro ⟨hτ, -, hc⟩ d t hdt
      have hw := (h.least hok _).mpr ⟨hin τ hτ, hp.forall₂_rebound, hc⟩
      rw [hd] at hdt
      split at hdt
      · exact hτ d t hdt
      · next hn => rw [← hw d t hdt, rebound_of_notMem hn]
  · exact h.complete hok _ (hin τ hτ) ⟨hp.forall₂_rebound, hc⟩

theorem shadowing_extends (s : Scopes) (bs cs : List Decl) {body : Unifier → Bool × Unifier} (hu : u.Ready V m g)
    (hb : ∀ v : Unifier, v.Ready V m g → Extends V m g (s.enter bs cs)
      (Carries (s.enter bs cs) · b c) b.freeVars c.freeVars v (body v)) :
    Extends V m g s (fun τ => PairedOff bs cs ∧ Carries (s.enter bs cs) (rebound bs cs τ) b c)
      (freeIn bs b) (freeIn cs c) u
      (shadowing bs (fun u => andThen (unifyBounds bs cs u) body) u) := by
  have hu' := hu.withBindings (u.bindings.eraseAll bs)
  have h := (unifyBounds_extends (s := s.enter bs cs) bs cs hu'
    fun l hl => List.mem_append_left _ hl).andThen hb
  rw [shadowing_eq]
  exact h.unshadow

theorem guard_extends {l r : Term} (hu : u.Ready V m g) (hl : g = true → l ∈ V)
    (hr : g = true → r ∈ V) :
    (guard l r u).2.Ready V m g ∧
      ((guard l r u).1 = false → ∀ s τ, ¬ Carries s τ l r) := by
  unfold guard
  split
  · next hc =>
    simp only [Bool.and_eq_true, hu.guarded_eq] at hc
    obtain ⟨hx, h1⟩ := Hasher.hash_sound (hu.left hc.1) (hl hc.1)
    obtain ⟨hy, h2⟩ := Hasher.hash_sound (hu.right hc.1) (hr hc.1)
    refine ⟨⟨hu.guarded_eq, fun _ => h1, fun _ => h2⟩, fun hne s τ hc => ?_⟩
    simp only [hx, hy, beq_eq_false_iff_ne] at hne
    exact hne (hc.structural_eq m)
  · exact ⟨hu, nofun⟩

theorem Extends.of_same_start {P : (Decl → Decl) → Prop} {ls rs : List Decl} {v : Unifier}
    (h : Extends V m g s P ls rs v out) (hb : v.bindings = u.bindings) :
    Extends V m g s P ls rs u out where
  toFrames := h.toFrames.of_same_start hb
  ready := h.ready
  bound := h.bound
  least := hb ▸ h.least
  complete := hb ▸ h.complete

theorem unify_extends_of_descend {l r : Term} (hu : u.Ready V m g) (hl : g = true → l ∈ V)
    (hr : g = true → r ∈ V) (h : l.ty = r.ty → ∀ v : Unifier, v.Ready V m g →
      Extends V m g s (Carries s · l r) l.freeVars r.freeVars v (descend s l r v)) :
    Extends V m g s (Carries s · l r) l.freeVars r.freeVars u (unify s l r u) := by
  rw [unify_eq]
  split
  · next ht =>
    have hb := guard_bindings l r u
    obtain ⟨hv, hn⟩ := guard_extends hu hl hr
    rcases hgu : guard l r u with ⟨_ | _, v⟩
    · rw [hgu] at hb hv hn
      exact (Extends.refuse hv fun τ _ => hn rfl s τ).of_same_start hb
    · rw [hgu] at hb hv hn
      exact (h ht v hv).of_same_start hb
  · next ht => exact .refuse hu fun τ _ hc => ht hc.ty_eq

mutual

theorem unify_extends {s : Scopes} {u : Unifier} : ∀ (l r : Term), u.Ready V m g → (g = true → l ∈ V) →
    (g = true → r ∈ V) → Extends V m g s (Carries s · l r) l.freeVars r.freeVars u (unify s l r u)
  | .app k f as, r, hu, hl, hr => by
    apply unify_extends_of_descend hu hl hr
    intro ht v hv
    cases r with
    | app k' g bs =>
      cases as with
      | nil => cases bs with
        | nil => exact unifyVariable_extends hv
        | cons b bs =>
          rw [descend]
          split
          · contradiction
          · split
            · exact .refuse hv fun τ _ => id
            · exact .refuse hv fun τ _ => id
      | cons a as =>
        rw [descend]
        split
        · contradiction
        · split
          · next hf =>
            cases bs with
            | nil => exact .refuse hv fun τ _ h => h.2
            | cons b bs =>
              have h := unifyAll_extends (s := s) (a :: as) (b :: bs) hv (fun hg => Vocabulary.args_app (hl hg))
                (fun hg => Vocabulary.args_app (hr hg))
              exact h.congr fun τ => ⟨fun h => ⟨hf, h⟩, And.right⟩
          · next hf => exact .refuse hv fun τ _ h => hf h.1
    | _ => exact .refuse hv fun τ _ h => by cases as <;> cases h
  | .quantified k q bs b, r, hu, hl, hr => by
    apply unify_extends_of_descend hu hl hr
    intro ht v hv
    cases r with
    | quantified k' q' cs c =>
      rw [descend]
      split
      · next hq =>
        have h := shadowing_extends s bs cs hv fun w hw =>
          unify_extends b c hw (fun hg => Vocabulary.body_quantified (hl hg))
            (fun hg => Vocabulary.body_quantified (hr hg))
        simp only [freeVars, freeIn, List.append_nil]
        exact h.congr fun τ => ⟨fun h => ⟨hq, h⟩, And.right⟩
      · next hq => exact .refuse hv fun τ _ h => hq h.1
    | _ => exact .refuse hv fun τ _ => id
  | .lambda k is b, r, hu, hl, hr => by
    apply unify_extends_of_descend hu hl hr
    intro ht v hv
    cases r with
    | lambda k' js c =>
      have h := shadowing_extends s is js hv fun w hw =>
        unify_extends b c hw (fun hg => Vocabulary.body_lambda (hl hg)) (fun hg => Vocabulary.body_lambda (hr hg))
      simp only [freeVars, freeIn, List.append_nil]
      exact h
    | _ => exact .refuse hv fun τ _ => id
  | .literal k t x, r, hu, hl, hr => by
    apply unify_extends_of_descend hu hl hr
    intro ht v hv
    cases r with
    | literal k' t' y =>
      rw [descend]
      by_cases hx : x = y
      · rw [beq_iff_eq.mpr hx]
        exact .accept hv fun τ => ⟨ht, hx⟩
      · rw [beq_eq_false_iff_ne.mpr hx]
        exact .refuse hv fun τ _ h => hx h.2
    | _ => exact .refuse hv fun τ _ => id

theorem unifyAll_extends {s : Scopes} {u : Unifier} : ∀ (ls rs : List Term), u.Ready V m g →
    (g = true → ∀ l ∈ ls, l ∈ V) → (g = true → ∀ r ∈ rs, r ∈ V) →
      Extends V m g s (CarriesAll s · ls rs) (freeInAll [] ls) (freeInAll [] rs) u (unifyAll s ls rs u)
  | [], [], hu, _, _ => .accept hu fun _ => trivial
  | [], r :: rs, hu, _, _ => .refuse hu fun τ _ => id
  | l :: ls, [], hu, _, _ => .refuse hu fun τ _ => id
  | l :: ls, r :: rs, hu, hl, hr => by
    rw [unifyAll_cons]
    have h := unify_extends (s := s) l r hu (fun hg => hl hg l List.mem_cons_self)
      (fun hg => hr hg r List.mem_cons_self)
    exact h.andThen fun v hv => unifyAll_extends ls rs hv
      (fun hg t ht => hl hg t (List.mem_cons_of_mem l ht))
      (fun hg t ht => hr hg t (List.mem_cons_of_mem r ht))

end

end Unifier

end CoreReuse
