import CoreReuse.Decl

/-!
Terms. Every node of a term carries a number that stands for its identity: equal numbers mean the
same node, which is what tables about nodes are keyed by. Equality of terms looks past the numbers.
-/

namespace CoreReuse

abbrev NodeId := Nat

inductive Quantifier where
  | universal
  | existential
deriving DecidableEq, Repr, Inhabited

namespace Quantifier

def toString : Quantifier → String
  | universal => "forall"
  | existential => "exists"

instance : ToString Quantifier := ⟨toString⟩

end Quantifier

inductive Term where
  | app (node : NodeId) (head : Decl) (args : List Term)
  | quantified (node : NodeId) (quantifier : Quantifier) (bounds : List Decl) (body : Term)
  | lambda (node : NodeId) (indices : List Decl) (body : Term)
  | literal (node : NodeId) (ty : Ty) (text : String)
deriving Inhabited

namespace Term

def node : Term → NodeId
  | app n _ _ => n
  | quantified n _ _ _ => n
  | lambda n _ _ => n
  | literal n _ _ => n

def ty : Term → Ty
  | app _ head _ => head.result
  | quantified _ _ _ _ => .bool
  | lambda _ indices body => indices.foldr (fun i t => .array i.result t) body.ty
  | literal _ t _ => t

def children : Term → List Term
  | app _ _ args => args
  | quantified _ _ _ body => [body]
  | lambda _ _ body => [body]
  | literal _ _ _ => []

def isLeaf (t : Term) : Bool := t.children.isEmpty

def asVariable? : Term → Option Decl
  | app _ head [] => some head
  | _ => none

mutual

def height : Term → Nat
  | app _ _ args => heights args + 1
  | quantified _ _ _ body => body.height + 1
  | lambda _ _ body => body.height + 1
  | literal _ _ _ => 1

def heights : List Term → Nat
  | [] => 0
  | t :: ts => max t.height (heights ts)

end

mutual

def same : Term → Term → Bool
  | app _ f as, app _ g bs => f == g && sames as bs
  | quantified _ p bs b, quantified _ q cs c => p == q && bs == cs && same b c
  | lambda _ is b, lambda _ js c => is == js && same b c
  | literal _ s x, literal _ t y => s == t && x == y
  | _, _ => false

def sames : List Term → List Term → Bool
  | [], [] => true
  | a :: as, b :: bs => same a b && sames as bs
  | _, _ => false

end

mutual

@[simp] theorem same_refl : ∀ t : Term, same t t = true
  | app _ _ args => by simp [same, sames_refl args]
  | quantified _ _ _ body => by simp [same, same_refl body]
  | lambda _ _ body => by simp [same, same_refl body]
  | literal _ _ _ => by simp [same]

@[simp] theorem sames_refl : ∀ ts : List Term, sames ts ts = true
  | [] => rfl
  | t :: ts => by simp [sames, same_refl t, sames_refl ts]

end

/-- A comparison that is over at once if both terms are the same object in memory. -/
@[inline] def unlessShared (s t : Term) (k : Unit → { b : Bool // b = same s t }) :
    { b : Bool // b = same s t } :=
  ⟨withPtrEq s t (fun u => (k u).val) fun h => by rw [(k ()).property, h, same_refl],
    (k ()).property⟩

mutual

def decideSame (s t : Term) : { b : Bool // b = same s t } :=
  unlessShared s t fun _ =>
    match s, t with
    | app _ f as, app _ g bs => ⟨f == g && (decideSames as bs).val, by
        simp only [same, (decideSames as bs).property]⟩
    | quantified _ p bs b, quantified _ q cs c => ⟨p == q && bs == cs && (decideSame b c).val, by
        simp only [same, (decideSame b c).property]⟩
    | lambda _ is b, lambda _ js c => ⟨is == js && (decideSame b c).val, by
        simp only [same, (decideSame b c).property]⟩
    | s, t => ⟨same s t, rfl⟩

def decideSames (ss ts : List Term) : { b : Bool // b = sames ss ts } :=
  match ss, ts with
  | a :: as, b :: bs => ⟨(decideSame a b).val && (decideSames as bs).val, by
      simp only [sames, (decideSame a b).property, (decideSames as bs).property]⟩
  | ss, ts => ⟨sames ss ts, rfl⟩

end

instance : BEq Term := ⟨fun s t => (decideSame s t).val⟩

theorem beq_eq_same (s t : Term) : (s == t) = same s t := (decideSame s t).property

def sameResults : List Decl → List Decl → Bool
  | [], [] => true
  | i :: is, j :: js => i.result == j.result && sameResults is js
  | _, _ => false

theorem ty_lambda_eq_iff {is js : List Decl} (h : sameResults is js = true) (m n : NodeId)
    (b c : Term) : (lambda m is b).ty = (lambda n js c).ty ↔ b.ty = c.ty := by
  simp only [ty]
  fun_induction sameResults is js with
  | case1 => rfl
  | case2 i is j js ih => simp_all
  | case3 => contradiction

def decideTy (s t : Term) : { b : Bool // b = decide (s.ty = t.ty) } :=
  let look (_ : Unit) : { b : Bool // b = decide (s.ty = t.ty) } :=
    match s, t with
    | lambda m is b, lambda n js c =>
      if h : sameResults is js then
        ⟨(decideTy b c).val, by simp only [(decideTy b c).property, ty_lambda_eq_iff h m n]⟩
      else
        ⟨_, rfl⟩
    | _, _ => ⟨_, rfl⟩
  ⟨withPtrEq s t (fun u => (look u).val) fun h => by simp [(look ()).property, h],
    (look ()).property⟩

instance (s t : Term) : Decidable (s.ty = t.ty) :=
  decidable_of_iff ((decideTy s t).val = true) (by simp [(decideTy s t).property])

def declsText (ds : List Decl) : String :=
  "(" ++ " ".intercalate (ds.map fun d => "(" ++ d.toString ++ " " ++ d.result.toString ++ ")")
    ++ ")"

mutual

def toString : Term → String
  | app _ head [] => head.toString
  | app _ head (a :: as) => "(" ++ head.toString ++ spaced (a :: as) ++ ")"
  | quantified _ q bounds body =>
    "(" ++ q.toString ++ " " ++ declsText bounds ++ " " ++ toString body ++ ")"
  | lambda _ indices body => "(lambda " ++ declsText indices ++ " " ++ toString body ++ ")"
  | literal _ _ text => text

def spaced : List Term → String
  | [] => ""
  | t :: ts => " " ++ toString t ++ spaced ts

end

instance : ToString Term := ⟨toString⟩

end Term

end CoreReuse
