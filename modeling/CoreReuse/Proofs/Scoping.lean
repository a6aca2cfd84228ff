import CoreReuse.Proofs.Frames

/-!
Unification with two stacks of bound declarations in its state. A binder pushes what it binds on
either side and pops as many when it is done. The stacks never run short and are as they were after
every call, whatever it answers, and in between the run is the one that is told its scopes.
-/

namespace CoreReuse

/-- A unifier with the declarations that are bound around it, the innermost last. -/
structure StackedUnifier where
  unifier : Unifier
  left : List Decl := []
  right : List Decl := []

namespace StackedUnifier

def withUnifier (w : StackedUnifier) (u : Unifier) : StackedUnifier := { w with unifier := u }

def after (w : StackedUnifier) (out : Bool × Unifier) : Bool × StackedUnifier :=
  (out.1, w.withUnifier out.2)

def andThen (out : Option (Bool × StackedUnifier))
    (step : StackedUnifier → Option (Bool × StackedUnifier)) : Option (Bool × StackedUnifier) :=
  match out with
  | some (true, w) => step w
  | _ => out

def pop? (n : Nat) (stack : List Decl) : Option (List Decl) :=
  if n ≤ stack.length then some (stack.take (stack.length - n)) else none

def enter (ls rs : List Decl) (w : StackedUnifier) : StackedUnifier where
  unifier := { w.unifier with bindings := Renaming.eraseAll w.unifier.bindings ls }
  left := w.left ++ ls
  right := w.right ++ rs

def leave? (ls rs : List Decl) (shadowed : List (Decl × Decl)) (w : StackedUnifier) :
    Option StackedUnifier := do
  let left ← pop? ls.length w.left
  let right ← pop? rs.length w.right
  let bindings := Renaming.restore (Renaming.eraseAll w.unifier.bindings ls) shadowed
  return ⟨{ w.unifier with bindings }, left, right⟩

def within (ls rs : List Decl) (body : StackedUnifier → Option (Bool × StackedUnifier))
    (w : StackedUnifier) : Option (Bool × StackedUnifier) :=
  let shadowed := Renaming.extract w.unifier.bindings ls
  let inside := w.enter ls rs
  let out := andThen (inside.after (Unifier.unifyBounds ls rs inside.unifier)) body
  out.bind fun o => (o.2.leave? ls rs shadowed).map (Prod.mk o.1)

def unifyVariable (l r : Decl) (w : StackedUnifier) : Bool × StackedUnifier :=
  if w.right.contains r && !w.left.contains l then (false, w)
  else w.after (Unifier.unifyDecl l r w.unifier)

mutual

def unify (l r : Term) (w : StackedUnifier) : Option (Bool × StackedUnifier) :=
  if l.ty = r.ty then
    andThen (w.after (Unifier.guard l r w.unifier)) fun w =>
      match l, r with
      | .app _ f as, .app _ g bs =>
        if as.isEmpty && bs.isEmpty then unifyVariable f g w
        else if f = g then unifyAll as bs w
        else some (false, w)
      | .quantified _ p bs b, .quantified _ q cs c =>
        if p = q then within bs cs (unify b c) w else some (false, w)
      | .lambda _ is b, .lambda _ js c => within is js (unify b c) w
      | .literal _ _ x, .literal _ _ y => some (x == y, w)
      | _, _ => some (false, w)
  else
    some (false, w)

def unifyAll (ls rs : List Term) (w : StackedUnifier) : Option (Bool × StackedUnifier) :=
  match ls, rs with
  | [], [] => some (true, w)
  | l :: ls, r :: rs => andThen (unify l r w) (unifyAll ls rs)
  | _, _ => some (false, w)

end

variable {s : Scopes} {w : StackedUnifier} {ls rs : List Decl}

structure Holds (s : Scopes) (w : StackedUnifier) : Prop where
  left : ∀ d, d ∈ w.left ↔ d ∈ s.left
  right : ∀ d, d ∈ w.right ↔ d ∈ s.right

theorem Holds.enter (h : Holds s w) (ls rs : List Decl) : Holds (s.enter ls rs) (w.enter ls rs) where
  left d := by
    rw [StackedUnifier.enter, Scopes.enter, List.mem_append, List.mem_append, h.left, or_comm]
  right d := by
    rw [StackedUnifier.enter, Scopes.enter, List.mem_append, List.mem_append, h.right, or_comm]

theorem Holds.withUnifier (h : Holds s w) (u : Unifier) : Holds s (w.withUnifier u) :=
  ⟨h.left, h.right⟩

theorem pop?_append (stack ls : List Decl) : pop? ls.length (stack ++ ls) = some stack := by
  simp [pop?]

theorem andThen_after {out : Bool × Unifier} {body : StackedUnifier → Option (Bool × StackedUnifier)}
    {step : Unifier → Bool × Unifier}
    (hb : ∀ u, body (w.withUnifier u) = some (w.after (step u))) :
    andThen (w.after out) body = some (w.after (Unifier.andThen out step)) := by
  rcases out with ⟨_ | _, u⟩
  · rfl
  · exact hb u

theorem leave?_enter (u : Unifier) (shadowed : List (Decl × Decl)) :
    ((w.enter ls rs).withUnifier u).leave? ls rs shadowed = some (w.withUnifier
      { u with bindings := Renaming.restore (Renaming.eraseAll u.bindings ls) shadowed }) := by
  simp only [leave?, enter, withUnifier, pop?_append, Option.bind_eq_bind, Option.bind_some,
    Option.pure_def]

theorem unifyVariable_eq (h : Holds s w) (l r : Decl) :
    unifyVariable l r w = w.after (Unifier.unifyVariable s l r w.unifier) := by
  have hl : w.left.contains l = s.left.contains l := by simp only [List.contains_eq_mem, h.left]
  have hr : w.right.contains r = s.right.contains r := by simp only [List.contains_eq_mem, h.right]
  rw [unifyVariable, Unifier.unifyVariable, hl, hr]
  split
  · rfl
  · rfl

theorem within_eq {body : StackedUnifier → Option (Bool × StackedUnifier)}
    {step : Unifier → Bool × Unifier} (h : Holds s w)
    (hb : ∀ v, Holds (s.enter ls rs) v → body v = some (v.after (step v.unifier))) :
    within ls rs body w = some (w.after
      (Unifier.shadowing ls (fun u => Unifier.andThen (Unifier.unifyBounds ls rs u) step) w.unifier)) := by
  have hin := h.enter ls rs
  have hrun : andThen ((w.enter ls rs).after (Unifier.unifyBounds ls rs (w.enter ls rs).unifier)) body =
      some ((w.enter ls rs).after
        (Unifier.andThen (Unifier.unifyBounds ls rs (w.enter ls rs).unifier) step)) :=
    andThen_after fun u => hb _ (hin.withUnifier u)
  rw [within, hrun, Option.bind_some, after, leave?_enter]
  rfl

mutual

theorem unify_eq {s : Scopes} {w : StackedUnifier} (h : Holds s w) : ∀ l r : Term,
    unify l r w = some (w.after (Unifier.unify s l r w.unifier))
  | .app k f as, r => by
    rw [Unifier.unify_eq, unify]
    split
    · apply andThen_after
      intro u
      have hu := h.withUnifier u
      cases r with
      | app k' g bs =>
        rw [Unifier.descend]
        dsimp only
        split
        · exact congrArg some (unifyVariable_eq hu f g)
        · split
          · exact unifyAll_eq hu as bs
          · rfl
      | _ => rfl
    · rfl
  | .quantified k q bs b, r => by
    rw [Unifier.unify_eq, unify]
    split
    · apply andThen_after
      intro u
      have hu := h.withUnifier u
      cases r with
      | quantified k' q' cs c =>
        rw [Unifier.descend]
        dsimp only
        split
        · exact within_eq hu fun v hv => unify_eq hv b c
        · rfl
      | _ => rfl
    · rfl
  | .lambda k is b, r => by
    rw [Unifier.unify_eq, unify]
    split
    · apply andThen_after
      intro u
      have hu := h.withUnifier u
      cases r with
      | lambda k' js c => exact within_eq hu fun v hv => unify_eq hv b c
      | _ => rfl
    · rfl
  | .literal k t x, r => by
    rw [Unifier.unify_eq, unify]
    split
    · apply andThen_after
      intro u
      cases r <;> rfl
    · rfl

theorem unifyAll_eq {s : Scopes} {w : StackedUnifier} (h : Holds s w) : ∀ ls rs : List Term,
    unifyAll ls rs w = some (w.after (Unifier.unifyAll s ls rs w.unifier))
  | [], [] => rfl
  | [], r :: rs => rfl
  | l :: ls, [] => rfl
  | l :: ls, r :: rs => by
    rw [Unifier.unifyAll_cons, unifyAll, unify_eq h l r]
    apply andThen_after
    intro u
    exact unifyAll_eq (h.withUnifier u) ls rs

end

end StackedUnifier

def Unifier.unifyEach : List (Term × Term) → Unifier → List Bool × Unifier
  | [], u => ([], u)
  | (l, r) :: pairs, u =>
    let (ok, u) := unify {} l r u
    let (oks, u) := unifyEach pairs u
    (ok :: oks, u)

theorem Unifier.unifyEach_frames (pairs : List (Term × Term)) (u : Unifier) :
    (∀ d t : Decl, u.bindings[d]? = some t → (unifyEach pairs u).2.bindings[d]? = some t) ∧
      ∀ d t : Decl, (unifyEach pairs u).2.bindings[d]? = some t → u.bindings[d]? = some t ∨
        ∃ p ∈ pairs, d ∈ p.1.freeVars ∧ t ∈ p.2.freeVars ∧ d.result = t.result := by
  induction pairs generalizing u with
  | nil => exact ⟨fun _ _ => id, fun _ _ => .inl⟩
  | cons p pairs ih =>
    have hfirst : Frames {} p.1.freeVars p.2.freeVars u (unify {} p.1 p.2 u) := unify_frames p.1 p.2
    obtain ⟨hkept, hnew⟩ := ih (unify {} p.1 p.2 u).2
    refine ⟨fun d t hd => hkept d t (hfirst.kept d t hd), fun d t hd => ?_⟩
    rcases hnew d t hd with hd | ⟨q, hq, hadded⟩
    · rcases hfirst.new d t hd with hd | hadded
      · exact .inl hd
      · have htarget := (hadded.target List.not_mem_nil).1
        exact .inr ⟨p, List.mem_cons_self, hadded.origin, htarget, hadded.result_eq⟩
    · exact .inr ⟨q, List.mem_cons_of_mem p hq, hadded⟩

namespace StackedUnifier

def unifyEach : List (Term × Term) → StackedUnifier → Option (List Bool × StackedUnifier)
  | [], w => some ([], w)
  | (l, r) :: pairs, w => do
    let (ok, w) ← unify l r w
    let (oks, w) ← unifyEach pairs w
    return (ok :: oks, w)

theorem unifyEach_eq (pairs : List (Term × Term)) (u : Unifier) :
    unifyEach pairs { unifier := u } =
      some ((Unifier.unifyEach pairs u).1, { unifier := (Unifier.unifyEach pairs u).2 }) := by
  induction pairs generalizing u with
  | nil => rfl
  | cons p pairs ih =>
    have h : Holds {} { unifier := u } := ⟨fun _ => Iff.rfl, fun _ => Iff.rfl⟩
    have hfirst : unify p.1 p.2 { unifier := u } = some ((Unifier.unify {} p.1 p.2 u).1,
        { unifier := (Unifier.unify {} p.1 p.2 u).2 }) := unify_eq h p.1 p.2
    rw [unifyEach, hfirst, Option.bind_eq_bind, Option.bind_some]
    dsimp only
    rw [ih]
    rfl

theorem unifyEach_undisturbed (pairs : List (Term × Term)) (u : Unifier) :
    (∀ (w : StackedUnifier) (l r : Term), ∃ ok v, unify l r w = some (ok, w.withUnifier v) ∧
      Unifier.Frames ⟨w.left, w.right⟩ l.freeVars r.freeVars w.unifier (ok, v)) ∧
      ∃ oks v, unifyEach pairs { unifier := u } = some (oks, { unifier := v }) ∧
        Unifier.unifyEach pairs u = (oks, v) ∧
        (∀ d t : Decl, u.bindings[d]? = some t → v.bindings[d]? = some t) ∧
        ∀ d t : Decl, v.bindings[d]? = some t → u.bindings[d]? = some t ∨
          ∃ p ∈ pairs, d ∈ p.1.freeVars ∧ t ∈ p.2.freeVars ∧ d.result = t.result := by
  refine ⟨fun w l r => ?_, _, _, unifyEach_eq pairs u, rfl, Unifier.unifyEach_frames pairs u⟩
  have h : Holds ⟨w.left, w.right⟩ w := ⟨fun _ => Iff.rfl, fun _ => Iff.rfl⟩
  exact ⟨_, _, unify_eq h l r, Unifier.unify_frames l r⟩

end StackedUnifier

end CoreReuse
