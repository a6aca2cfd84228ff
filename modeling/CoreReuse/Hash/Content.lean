import CoreReuse.ClauseSet
import CoreReuse.Hash.Sip

namespace CoreReuse.Hash

def combine (parts : List UInt64) : UInt64 := parts.foldl (fun acc part => acc * 31 + part) 0

def appendName (m : Sip.Message) (name : String) : Sip.Message :=
  (name.toUTF8.toList.foldl (fun m b => m.append b.toUInt64 1) m).append 0xff 1

def appendTy (m : Sip.Message) (t : Ty) : Sip.Message :=
  let m := m.append t.rank.toUInt64 8
  match t with
  | .array index element => appendTy (appendTy m index) element
  | .bitVec width => m.append width.toUInt64 4
  | .uninterpreted name => appendName m name
  | .bool | .int | .real => m

def ofTy (t : Ty) : UInt64 := (appendTy {} t).hash

def ofName (name : String) : UInt64 := (appendName {} name).hash

def quantifierTag : Quantifier → UInt64
  | .universal => 0x51
  | .existential => 0x52

def lambdaTag : UInt64 := 0x53

def literalTag : UInt64 := 0x54

def content (t : Term) : UInt64 :=
  match t with
  | .app _ _ [] => combine [ofTy t.ty]
  | .app _ head args => combine [ofTy t.ty, ofName head.name, args.length.toUInt64]
  | .quantified _ q bounds _ =>
    combine [ofTy t.ty, bounds.length.toUInt64, quantifierTag q]
  | .lambda _ indices _ => combine [ofTy t.ty, indices.length.toUInt64, lambdaTag]
  | .literal _ _ _ => combine [ofTy t.ty, literalTag]

def expands (maxHeight : Option Nat) (depth : Nat) : Bool :=
  match maxHeight with
  | none => true
  | some m => depth ≤ m

mutual

def expanded (maxHeight : Option Nat) (depth : Nat) : Term → UInt64
  | .app n head args => rolled maxHeight (depth + 1) (content (.app n head args)) args
  | .quantified n q bounds body =>
    combine [content (.quantified n q bounds body),
      if expands maxHeight (depth + 1) then expanded maxHeight (depth + 1) body else content body]
  | .lambda n indices body =>
    combine [content (.lambda n indices body),
      if expands maxHeight (depth + 1) then expanded maxHeight (depth + 1) body else content body]
  | .literal n ty text => content (.literal n ty text)

def rolled (maxHeight : Option Nat) (depth : Nat) (acc : UInt64) : List Term → UInt64
  | [] => acc
  | t :: ts =>
    rolled maxHeight depth
      (combine [acc, if expands maxHeight depth then expanded maxHeight depth t else content t]) ts

end

/-- The hash of a term. Its root is always looked into; below that, a node deeper than the bound
contributes its content alone. -/
def structural (maxHeight : Option Nat) (t : Term) : UInt64 := expanded maxHeight 1 t

end CoreReuse.Hash
