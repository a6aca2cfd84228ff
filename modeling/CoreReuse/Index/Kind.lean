import CoreReuse.Text.Blank
import CoreReuse.Text.Numeral

namespace CoreReuse

inductive FlatKind where
  | list
  | random (candidates : UInt64)
  | bloom (nbits : UInt64)
deriving DecidableEq, Repr, Inhabited

inductive IndexKind where
  | flat (kind : FlatKind)
  | composite (outer inner : IndexKind)
deriving DecidableEq, Repr, Inhabited

inductive IndexError where
  | unknown (text : String)
  | invalidParameter (text : String)
  | zeroBloomWidth
  | zeroSampleSize
deriving DecidableEq, Repr

namespace IndexError

def message : IndexError → String
  | unknown text => "unknown index: " ++ text
  | invalidParameter text => "invalid index parameter: " ++ text
  | zeroBloomWidth => "bloom index needs at least one bit"
  | zeroSampleSize => "random index needs to sample at least one candidate"

end IndexError

namespace FlatKind

def name : FlatKind → String
  | list => "list"
  | random _ => "random"
  | bloom _ => "bloom"

def toString : FlatKind → String
  | list => "list"
  | random candidates => "random:" ++ ToString.toString candidates.toNat
  | bloom nbits => "bloom:" ++ ToString.toString nbits.toNat

def validate : FlatKind → Except IndexError Unit
  | random candidates => if candidates = 0 then .error .zeroSampleSize else .ok ()
  | bloom nbits => if nbits = 0 then .error .zeroBloomWidth else .ok ()
  | list => .ok ()

def ofParameter (text : List Char) (make : UInt64 → FlatKind) (parameter : List Char) :
    Except IndexError FlatKind := do
  match Text.word? (Text.trim parameter) with
  | some n =>
    let kind := make n
    kind.validate
    return kind
  | none => throw (.invalidParameter (String.ofList text))

def parse (text : List Char) : Except IndexError FlatKind :=
  match Text.splitOnce ':' text with
  | none =>
    match String.ofList (Text.trim text) with
    | "list" => .ok list
    | "random" | "bloom" => .error (.invalidParameter (String.ofList text))
    | _ => .error (.unknown (String.ofList text))
  | some (name, parameter) =>
    match String.ofList (Text.trim name) with
    | "random" => ofParameter text random parameter
    | "bloom" => ofParameter text bloom parameter
    | "list" => .error (.invalidParameter (String.ofList text))
    | _ => .error (.unknown (String.ofList text))

end FlatKind

namespace IndexKind

def toString : IndexKind → String
  | flat kind => kind.toString
  | composite outer inner => outer.toString ++ "/" ++ inner.toString

def isComposite : IndexKind → Bool
  | flat _ => false
  | composite _ _ => true

def validate : IndexKind → Except IndexError Unit
  | flat kind => kind.validate
  | composite outer inner => do
    if outer.isComposite then
      throw (.invalidParameter (outer.toString ++ "/" ++ inner.toString))
    outer.validate
    inner.validate

def ofLevels (first : FlatKind) : List FlatKind → IndexKind
  | [] => flat first
  | next :: rest => composite (flat first) (ofLevels next rest)

/-- The flat kind at the outer level. A composite there is taken for a list; in a valid kind there
is none. -/
def outermost : IndexKind → FlatKind
  | flat kind => kind
  | composite _ _ => .list

def levels : IndexKind → FlatKind × List FlatKind
  | flat kind => (kind, [])
  | composite outer inner => (outer.outermost, inner.levels.1 :: inner.levels.2)

def parse (s : String) : Except IndexError IndexKind := do
  match ← (Text.pieces '/' s.toList).mapM FlatKind.parse with
  | first :: rest => return ofLevels first rest
  | [] => throw (.unknown s)

end IndexKind

end CoreReuse
