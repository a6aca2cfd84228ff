import CoreReuse.Hash.Hasher
import CoreReuse.Renaming.Basic

namespace CoreReuse

/-- The bound declarations of the binders around a pair of terms, innermost first. -/
structure Scopes where
  left : List Decl := []
  right : List Decl := []

def Scopes.enter (s : Scopes) (left right : List Decl) : Scopes :=
  ⟨left ++ s.left, right ++ s.right⟩

structure Unifier where
  bindings : Renaming
  guarded : Bool := false
  left : Hasher := .unlimited
  right : Hasher := .unlimited

namespace Unifier

def unifyDecl (l r : Decl) (u : Unifier) : Bool × Unifier :=
  if l.result = r.result then
    let (ok, bindings) := Renaming.bind u.bindings l r
    (ok, { u with bindings })
  else
    (false, u)

def unifyBounds : List Decl → List Decl → Unifier → Bool × Unifier
  | [], [], u => (true, u)
  | l :: ls, r :: rs, u =>
    match unifyDecl l r u with
    | (true, u) => unifyBounds ls rs u
    | (false, u) => (false, u)
  | _, _, u => (false, u)

def unifyVariable (s : Scopes) (l r : Decl) (u : Unifier) : Bool × Unifier :=
  if s.right.contains r && !s.left.contains l then (false, u) else unifyDecl l r u

def guard (l r : Term) (u : Unifier) : Bool × Unifier :=
  if u.guarded && !l.isLeaf then
    let (x, left) := u.left.hash l
    let (y, right) := u.right.hash r
    (x == y, { u with left, right })
  else
    (true, u)

def shadowing (bounds : List Decl) (step : Unifier → Bool × Unifier) (u : Unifier) : Bool × Unifier :=
  let shadowed := Renaming.extract u.bindings bounds
  let (ok, v) := step { u with bindings := Renaming.eraseAll u.bindings bounds }
  (ok, { v with bindings := Renaming.restore (Renaming.eraseAll v.bindings bounds) shadowed })

mutual

def unify (s : Scopes) (l r : Term) (u : Unifier) : Bool × Unifier :=
  if l.ty = r.ty then
    match guard l r u with
    | (false, u) => (false, u)
    | (true, u) =>
      match l, r with
      | .app _ f as, .app _ g bs =>
        if as.isEmpty && bs.isEmpty then unifyVariable s f g u
        else if f = g then unifyAll s as bs u
        else (false, u)
      | .quantified _ p bs b, .quantified _ q cs c =>
        if p = q then
          shadowing bs (fun u =>
            match unifyBounds bs cs u with
            | (true, u) => unify (s.enter bs cs) b c u
            | (false, u) => (false, u)) u
        else
          (false, u)
      | .lambda _ is b, .lambda _ js c =>
        shadowing is (fun u =>
          match unifyBounds is js u with
          | (true, u) => unify (s.enter is js) b c u
          | (false, u) => (false, u)) u
      | .literal _ _ x, .literal _ _ y => (x == y, u)
      | _, _ => (false, u)
  else
    (false, u)

def unifyAll (s : Scopes) (ls rs : List Term) (u : Unifier) : Bool × Unifier :=
  match ls, rs with
  | [], [] => (true, u)
  | l :: ls, r :: rs =>
    match unify s l r u with
    | (true, u) => unifyAll s ls rs u
    | (false, u) => (false, u)
  | _, _ => (false, u)

end

def fresh? (l r : Term) : Option Renaming :=
  match unify {} l r { bindings := ∅ } with
  | (true, u) => some u.bindings
  | (false, _) => none

end Unifier

end CoreReuse
