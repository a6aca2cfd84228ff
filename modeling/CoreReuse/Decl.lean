import CoreReuse.Ty

namespace CoreReuse

structure Decl where
  name : String
  args : List Ty
  result : Ty
  /-- The indices of a symbol such as `(_ extract 7 4)`. An empty list of them is still a list. -/
  params : Option (List String) := none
deriving DecidableEq, Repr, Inhabited

namespace Decl

def constant (name : String) (ty : Ty) : Decl := ⟨name, [], ty, none⟩

def arity (d : Decl) : Nat := d.args.length

@[simp] theorem arity_constant (name : String) (ty : Ty) : (constant name ty).arity = 0 := rfl

def toString (d : Decl) : String :=
  match d.params with
  | none => d.name
  | some ps => "(_ " ++ d.name ++ String.join (ps.map (" " ++ ·)) ++ ")"

instance : ToString Decl := ⟨toString⟩

open Std

instance : Ord Decl where
  compare := compareLex (compareOn name) (compareLex (compareOn result)
    (compareLex (compareOn args) (compareOn params)))

instance : TransOrd Decl :=
  inferInstanceAs (TransCmp (compareLex (compareOn name) (compareLex (compareOn result)
    (compareLex (compareOn args) (compareOn params)))))

instance : LawfulEqOrd Decl where
  compare_self := ReflCmp.compare_self
  eq_of_compare {c d} h := by
    change (compare c.name d.name).then ((compare c.result d.result).then
      ((compare c.args d.args).then (compare c.params d.params))) = .eq at h
    simp only [Ordering.then_eq_eq, LawfulEqCmp.compare_eq_iff_eq] at h
    cases c
    cases d
    simp_all

end Decl

end CoreReuse
