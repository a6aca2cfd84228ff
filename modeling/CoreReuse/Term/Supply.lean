import CoreReuse.Term.Basic

namespace CoreReuse

inductive BuildError where
  | arity (head : Decl)
  | clausesNotBoolean
deriving DecidableEq, Repr

namespace BuildError

def message : BuildError → String
  | arity head => head.toString ++ " expects " ++ ToString.toString head.arity ++ " arguments"
  | clausesNotBoolean => "clauses must be boolean"

end BuildError

abbrev Build := StateT NodeId (Except BuildError)

namespace Term.Build

def fresh : Build NodeId := fun next => .ok (next, next + 1)

def app (head : Decl) (args : List Term) : Build Term :=
  if args.length = head.arity then
    return .app (← fresh) head args
  else
    throw (.arity head)

def var (d : Decl) : Build Term := app d []

def quantified (q : Quantifier) (bounds : List Decl) (body : Term) : Build Term :=
  return .quantified (← fresh) q bounds body

def lambda (indices : List Decl) (body : Term) : Build Term :=
  return .lambda (← fresh) indices body

def literal (ty : Ty) (text : String) : Build Term :=
  return .literal (← fresh) ty text

def bool (b : Bool) : Build Term := literal .bool (if b then "true" else "false")

def int (n : Int) : Build Term := literal .int (ToString.toString n)

end Term.Build

end CoreReuse
