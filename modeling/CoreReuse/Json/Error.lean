import CoreReuse.Decimal.Shortest
import CoreReuse.Text.Numeral
import CoreReuse.Text.Quoted

namespace CoreReuse.Json

inductive Number where
  | natural (n : UInt64)
  | negative (n : Nat)
  | float (minus : Bool) (magnitude : Float)

inductive Unexpected where
  | null
  | boolean (b : Bool)
  | number (n : Number)
  | string (s : String)
  | sequence
  | map

def decimalText (d : Decimal) : String :=
  let digits := Nat.toDigits 10 d.digits
  let point : Int := digits.length + d.exponent
  if 0 ≤ d.exponent && point ≤ 16 then
    String.ofList (digits ++ List.replicate d.exponent.toNat '0') ++ ".0"
  else if 0 < point && point ≤ 16 then
    String.ofList (digits.take point.toNat) ++ "." ++ String.ofList (digits.drop point.toNat)
  else if -5 < point && point ≤ 0 then
    "0." ++ String.ofList (List.replicate (-point).toNat '0' ++ digits)
  else
    let exponent := (if 0 < point then "e+" else "e") ++ toString (point - 1)
    match digits with
    | [] => exponent
    | [d] => String.singleton d ++ exponent
    | d :: ds => String.singleton d ++ "." ++ String.ofList ds ++ exponent

def floatText (minus : Bool) (magnitude : Float) : String :=
  (if minus then "-" else "") ++
    (if magnitude == 0 then "0.0"
      else decimalText (Decimal.shortest (.ofBits magnitude.toBits)))

namespace Number

def describe : Number → String
  | natural n => "integer `" ++ toString n.toNat ++ "`"
  | negative n => "integer `-" ++ toString n ++ "`"
  | float minus magnitude =>
    "floating point `" ++ floatText minus magnitude ++ "`"

end Number

namespace Unexpected

def describe : Unexpected → String
  | null => "null"
  | boolean b => "boolean `" ++ toString b ++ "`"
  | number n => n.describe
  | string s => "string " ++ Text.quoted s
  | sequence => "sequence"
  | map => "map"

end Unexpected

inductive ReadError where
  | malformed
  | unfinished
  | unexpectedType (found : Unexpected) (expected : String)
  | unexpectedValue (found : Unexpected) (expected : String)
  | unknownVariant (name : String) (expected : List String)
  | unknownField (name : String) (expected : List String)
  | duplicateField (name : String)
  | refused (message : String)

def splitLast (pattern : List Char) : List Char → Option (List Char × List Char)
  | [] => none
  | c :: cs =>
    match splitLast pattern cs with
    | some (before, rest) => some (c :: before, rest)
    | none =>
      if pattern.isPrefixOf (c :: cs) then some ([], (c :: cs).drop pattern.length) else none

def isPosition (s : List Char) : Bool :=
  let column := " column ".toList
  let line := s.takeWhile Char.isDigit
  let rest := s.drop line.length
  column.isPrefixOf rest && (Text.word? line).isSome &&
    (rest.drop column.length).all Char.isDigit && (Text.word? (rest.drop column.length)).isSome

def withoutPosition (message : String) : String :=
  match splitLast " at line ".toList message.toList with
  | some (before, rest) => if isPosition rest then String.ofList before else message
  | none => message

def listed (names : List String) : String :=
  let ticked := names.map fun n => "`" ++ n ++ "`"
  match ticked with
  | [a, b] => a ++ " or " ++ b
  | [a] => a
  | _ => "one of " ++ ", ".intercalate ticked

namespace ReadError

def message? : ReadError → Option String
  | malformed => none
  | unfinished => none
  | unexpectedType found expected =>
    some ("invalid type: " ++ found.describe ++ ", expected " ++ expected)
  | unexpectedValue found expected =>
    some ("invalid value: " ++ found.describe ++ ", expected " ++ expected)
  | unknownVariant name expected =>
    some ("unknown variant `" ++ name ++ "`, expected " ++ listed expected)
  | unknownField name expected =>
    some ("unknown field `" ++ name ++ "`, expected " ++ listed expected)
  | duplicateField name => some ("duplicate field `" ++ name ++ "`")
  | refused message => some (withoutPosition message)

end ReadError

end CoreReuse.Json
