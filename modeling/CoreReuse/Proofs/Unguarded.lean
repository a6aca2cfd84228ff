import CoreReuse.Proofs.Growth
import CoreReuse.Proofs.Unification

namespace CoreReuse.Unifier

open Term

variable {V : Vocabulary} {m : Option Nat} {g : Bool} {s : Scopes} {u : Unifier}

def plain (b : Renaming) : Unifier := { bindings := b }

def extend? (b : Renaming) (l r : Term) : Option Renaming :=
  match unify {} l r (plain b) with
  | (true, u) => some u.bindings
  | (false, _) => none

structure Grows (u v : Unifier) : Prop where
  left : u.left.Grows v.left
  right : u.right.Grows v.right

theorem Grows.refl (u : Unifier) : u.Grows u := ⟨.refl _, .refl _⟩

theorem Grows.trans {u v w : Unifier} (h : u.Grows v) (h' : v.Grows w) : u.Grows w :=
  ⟨h.left.trans h'.left, h.right.trans h'.right⟩

structure Follows (u : Unifier) (out bare : Bool × Unifier) : Prop where
  grows : u.Grows out.2
  same : out.1 = true → bare = (true, plain out.2.bindings)

theorem Follows.refuse (u : Unifier) (bare : Bool × Unifier) : Follows u (false, u) bare :=
  ⟨.refl u, nofun⟩

theorem Follows.andThen {u : Unifier} {out bare : Bool × Unifier}
    {step step' : Unifier → Bool × Unifier} (h : Follows u out bare)
    (hs : ∀ v, Follows v (step v) (step' (plain v.bindings))) :
    Follows u (andThen out step) (andThen bare step') := by
  obtain ⟨ok, v⟩ := out
  cases ok with
  | false => exact ⟨h.grows, nofun⟩
  | true =>
    rw [h.same rfl]
    exact ⟨h.grows.trans (hs v).grows, (hs v).same⟩

theorem unifyDecl_follows (l r : Decl) (u : Unifier) :
    Follows u (unifyDecl l r u) (unifyDecl l r (plain u.bindings)) := by
  unfold unifyDecl
  split
  · exact ⟨⟨.refl _, .refl _⟩, fun hok => Prod.ext hok rfl⟩
  · exact .refuse _ _

theorem unifyVariable_follows (s : Scopes) (l r : Decl) (u : Unifier) :
    Follows u (unifyVariable s l r u) (unifyVariable s l r (plain u.bindings)) := by
  unfold unifyVariable
  split
  · exact .refuse _ _
  · exact unifyDecl_follows l r u

theorem unifyBounds_follows (ls rs : List Decl) (u : Unifier) :
    Follows u (unifyBounds ls rs u) (unifyBounds ls rs (plain u.bindings)) := by
  induction ls generalizing rs u with
  | nil =>
    cases rs with
    | nil => exact ⟨.refl u, fun _ => rfl⟩
    | cons r rs => exact .refuse _ _
  | cons l ls ih =>
    cases rs with
    | nil => exact .refuse _ _
    | cons r rs =>
      rw [unifyBounds_cons, unifyBounds_cons]
      exact (unifyDecl_follows l r u).andThen fun v => ih rs v

theorem shadowing_follows {bs : List Decl} {step : Unifier → Bool × Unifier}
    (hs : ∀ v, Follows v (step v) (step (plain v.bindings))) (u : Unifier) :
    Follows u (shadowing bs step u) (shadowing bs step (plain u.bindings)) := by
  rw [shadowing_eq, shadowing_eq]
  have h := hs { u with bindings := u.bindings.eraseAll bs }
  exact ⟨⟨h.grows.left, h.grows.right⟩,
    fun hok => congrArg (leave bs (plain u.bindings)) (h.same hok)⟩

theorem guard_follows (l r : Term) (u : Unifier) :
    Follows u (guard l r u) (guard l r (plain u.bindings)) where
  grows := by
    unfold guard
    split
    · exact ⟨Hasher.hash_grows _ _, Hasher.hash_grows _ _⟩
    · exact .refl u
  same _ := by
    rw [guard_bindings]
    rfl

theorem unify_follows_of_descend {l r : Term}
    (h : ∀ v, Follows v (descend s l r v) (descend s l r (plain v.bindings))) :
    Follows u (unify s l r u) (unify s l r (plain u.bindings)) := by
  rw [unify_eq, unify_eq]
  split
  · exact (guard_follows l r u).andThen h
  · exact .refuse _ _

mutual

theorem unify_follows {s : Scopes} {u : Unifier} : ∀ (l r : Term),
    Follows u (unify s l r u) (unify s l r (plain u.bindings))
  | .app k f as, r => by
    apply unify_follows_of_descend
    intro v
    cases r with
    | app k' g bs =>
      rw [descend, descend]
      split
      · exact unifyVariable_follows s f g v
      · split
        · exact unifyAll_follows as bs
        · exact .refuse _ _
    | _ => exact .refuse _ _
  | .quantified k q bs b, r => by
    apply unify_follows_of_descend
    intro v
    cases r with
    | quantified k' q' cs c =>
      rw [descend, descend]
      split
      · exact shadowing_follows
          (fun v => (unifyBounds_follows bs cs v).andThen fun w => unify_follows b c) v
      · exact .refuse _ _
    | _ => exact .refuse _ _
  | .lambda k is b, r => by
    apply unify_follows_of_descend
    intro v
    cases r with
    | lambda k' js c =>
      rw [descend, descend]
      exact shadowing_follows
        (fun v => (unifyBounds_follows is js v).andThen fun w => unify_follows b c) v
    | _ => exact .refuse _ _
  | .literal k t x, r => by
    apply unify_follows_of_descend
    intro v
    cases r with
    | literal k' t' y => exact ⟨.refl v, fun hok => Prod.ext hok rfl⟩
    | _ => exact .refuse _ _

theorem unifyAll_follows {s : Scopes} {u : Unifier} : ∀ (ls rs : List Term),
    Follows u (unifyAll s ls rs u) (unifyAll s ls rs (plain u.bindings))
  | [], [] => ⟨.refl u, fun _ => rfl⟩
  | [], r :: rs => .refuse _ _
  | l :: ls, [] => .refuse _ _
  | l :: ls, r :: rs => by
    rw [unifyAll_cons, unifyAll_cons]
    exact (unify_follows l r).andThen fun v => unifyAll_follows ls rs

end

theorem plain_ready (b : Renaming) : (plain b).Ready V m false := ⟨rfl, nofun, nofun⟩

theorem extend?_eq_some_iff {b b' : Renaming} {l r : Term} :
    extend? b l r = some b' ↔ ∃ v, unify {} l r (plain b) = (true, v) ∧ v.bindings = b' := by
  unfold extend?
  split
  · next h => simp [h]
  · next h => simp [h]

structure Extended (b : Renaming) (l r : Term) (b' : Renaming) : Prop where
  kept : ∀ d t : Decl, b[d]? = some t → b'[d]? = some t
  new : ∀ d t : Decl, b'[d]? = some t →
    b[d]? = some t ∨ d ∈ l.freeVars ∧ d.result = t.result ∧ t ∈ r.freeVars
  bound : ∀ d ∈ l.freeVars, (b'[d]?).isSome
  least : ∀ τ, b'.AgreesWith τ ↔ b.AgreesWith τ ∧ Carries {} τ l r

theorem extended_of_extend? {b b' : Renaming} {l r : Term} (h : extend? b l r = some b') :
    Extended b l r b' := by
  obtain ⟨v, hv, rfl⟩ := extend?_eq_some_iff.mp h
  have he := unify_extends (s := {}) l r (plain_ready (V := .empty) (m := none) b) nofun nofun
  rw [hv] at he
  refine ⟨he.kept, fun d t hd => ?_, he.bound rfl, he.least rfl⟩
  exact (he.new d t hd).imp_right fun hn => ⟨hn.origin, hn.result_eq, (hn.target (by simp)).1⟩

theorem not_carries_of_extend? {b : Renaming} {l r : Term} (h : extend? b l r = none)
    {τ : Decl → Decl} (hτ : b.AgreesWith τ) : ¬ Carries {} τ l r := by
  have he := unify_extends (s := {}) l r (plain_ready (V := .empty) (m := none) b) nofun nofun
  rcases hv : unify {} l r (plain b) with ⟨_ | _, v⟩
  · rw [hv] at he
    exact he.complete rfl τ hτ
  · rw [extend?, hv] at h
    cases h

theorem unify_eq_extend? {l r : Term} (hu : u.Ready V m g) (hl : g = true → l ∈ V)
    (hr : g = true → r ∈ V) :
    (if (unify {} l r u).1 then some (unify {} l r u).2.bindings else none) =
      extend? u.bindings l r := by
  have he := unify_extends (s := {}) l r hu hl hr
  cases hok : (unify {} l r u).1 with
  | true =>
    have hf := (unify_follows (s := {}) l r).same hok
    exact (extend?_eq_some_iff.mpr ⟨_, hf, rfl⟩).symm
  | false =>
    cases hx : extend? u.bindings l r with
    | none => rfl
    | some b =>
      have ht := ((extended_of_extend? hx).least _).mp b.agreesWith_total
      exact absurd ht.2 (he.complete hok _ ht.1)

end CoreReuse.Unifier
