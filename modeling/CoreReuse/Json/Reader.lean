import CoreReuse.Json.Error
import CoreReuse.Word

namespace CoreReuse.Json

abbrev Reader (α : Type) := StateT (List Char) (Except ReadError) α

namespace Reader

def isBlank (c : Char) : Bool := c == ' ' || c == '\n' || c == '\t' || c == '\r'

def isDigit (c : Char) : Bool := '0' ≤ c && c ≤ '9'

def skipBlanks : Reader Unit := modify (·.dropWhile isBlank)

def peek : Reader (Option Char) := return (← get).head?

def peekValue : Reader (Option Char) := do
  skipBlanks
  peek

def skip : Reader Unit := modify List.tail

def word : List Char → Reader Unit
  | [] => return
  | c :: cs => do
    match ← peek with
    | none => throw .unfinished
    | some d =>
      skip
      if d = c then word cs else throw .malformed

inductive Scan where
  | plain
  | escaped
  | hex (first : Option Nat) (left value : Nat)
  | secondSlash (first : Nat)
  | secondMark (first : Nat)

def hexValue? (c : Char) : Option Nat :=
  if isDigit c then some (c.toNat - 48)
  else if 'a' ≤ c && c ≤ 'f' then some (c.toNat - 87)
  else if 'A' ≤ c && c ≤ 'F' then some (c.toNat - 55)
  else none

def escapeValue? : Char → Option Char
  | '"' => some '"'
  | '\\' => some '\\'
  | '/' => some '/'
  | 'b' => some '\x08'
  | 'f' => some '\x0c'
  | 'n' => some '\n'
  | 'r' => some '\r'
  | 't' => some '\t'
  | _ => none

def isHighHalf (n : Nat) : Bool := 0xd800 ≤ n && n ≤ 0xdbff

def isLowHalf (n : Nat) : Bool := 0xdc00 ≤ n && n ≤ 0xdfff

def ofHalves (high low : Nat) : Char :=
  Char.ofNat ((high - 0xd800) * 0x400 + (low - 0xdc00) + 0x10000)

def hasFourBytes (s : List Char) : Bool := 4 ≤ (String.ofList s).utf8ByteSize

def push (c : Char) (scanned : Except ReadError (List Char × List Char)) :
    Except ReadError (List Char × List Char) :=
  scanned.map fun p => (c :: p.1, p.2)

def scan : Scan → List Char → Except ReadError (List Char × List Char)
  | _, [] => .error .unfinished
  | .plain, c :: cs =>
    if c = '"' then .ok ([], cs)
    else if c = '\\' then scan .escaped cs
    else if c.toNat < 0x20 then .error .malformed
    else push c (scan .plain cs)
  | .escaped, c :: cs =>
    if c = 'u' then
      if hasFourBytes cs then scan (.hex none 4 0) cs else .error .unfinished
    else
      match escapeValue? c with
      | some d => push d (scan .plain cs)
      | none => .error .malformed
  | .hex first left value, c :: cs =>
    match hexValue? c with
    | none => .error .malformed
    | some d =>
      let value := value * 16 + d
      if 1 < left then
        scan (.hex first (left - 1) value) cs
      else
        match first with
        | none =>
          if isLowHalf value then .error .malformed
          else if isHighHalf value then scan (.secondSlash value) cs
          else push (Char.ofNat value) (scan .plain cs)
        | some high =>
          if isLowHalf value then push (ofHalves high value) (scan .plain cs)
          else .error .malformed
  | .secondSlash first, c :: cs =>
    if c = '\\' then scan (.secondMark first) cs else .error .malformed
  | .secondMark first, c :: cs =>
    if c = 'u' then
      if hasFourBytes cs then scan (.hex (some first) 4 0) cs else .error .unfinished
    else
      .error .malformed

def string : Reader String := fun s => do
  let (cs, rest) ← scan .plain s.tail
  return (String.ofList cs, rest)

def digits : Reader (List Char) := fun s => .ok (s.takeWhile isDigit, s.dropWhile isDigit)

def absorb (n : Nat) : List Char → Nat × List Char
  | [] => (n, [])
  | d :: ds =>
    let next := n * 10 + (d.toNat - 48)
    if next < wordLimit then absorb next ds else (n, d :: ds)

def powerOfTen (n : Nat) : Float := Float.ofScientific 1 false n

/-- The magnitude `f * 10 ^ exponent`, unless it is infinite. Each step cuts 308 off an exponent too
low for a double; after so many steps nothing is left of the magnitude. -/
def scale : Nat → Float → Int → Option Float
  | 0, _, _ => some 0
  | n + 1, f, exponent =>
    if exponent.natAbs ≤ 308 then
      if 0 ≤ exponent then
        let g := f * powerOfTen exponent.natAbs
        if g.isInf then none else some g
      else
        some (f / powerOfTen exponent.natAbs)
    else if f == 0 then some f
    else if 0 ≤ exponent then none
    else scale n (f / powerOfTen 308) (exponent + 308)

def float (minus : Bool) (significand : Nat) (exponent : Int) : Reader Number := do
  match scale 4 significand.toUInt64.toFloat exponent with
  | some f => return .float minus f
  | none => throw .malformed

def exponentPart (minus : Bool) (significand : Nat) (start : Int) : Reader Number := do
  skip
  let sign ← peek
  if sign == some '+' || sign == some '-' then skip
  match ← peek with
  | none => throw .unfinished
  | some c =>
    if !isDigit c then throw .malformed
    let e : Nat := (← digits).foldl (fun n d => n * 10 + (d.toNat - 48)) 0
    if sign == some '-' then
      if 2147483647 < e then return .float minus 0 else float minus significand (start - e)
    else if 2147483647 < e then
      if significand = 0 then return .float minus 0 else throw .malformed
    else
      float minus significand (start + e)

def isExponentMark (c : Option Char) : Bool := c == some 'e' || c == some 'E'

def fractionPart (minus : Bool) (significand : Nat) (start : Int) : Reader Number := do
  skip
  let ds ← digits
  if ds.isEmpty then
    if (← peek).isNone then throw .unfinished else throw .malformed
  let (n, left) := absorb significand ds
  let exponent := start - (ds.length - left.length : Nat)
  if isExponentMark (← peek) then exponentPart minus n exponent else float minus n exponent

def number (minus : Bool) : Reader Number := do
  let ds ← digits
  match ds with
  | [] => if (← peek).isNone then throw .unfinished else throw .malformed
  | '0' :: _ :: _ => throw .malformed
  | _ =>
    let (n, left) := absorb 0 ds
    let next ← peek
    if next == some '.' then fractionPart minus n left.length
    else if isExponentMark next then exponentPart minus n left.length
    else if !left.isEmpty then float minus n left.length
    else if !minus then return .natural n.toUInt64
    else if 0 < n && n ≤ wordLimit / 2 then return .negative n
    else float minus n 0

def unexpected {α : Type} (expected : String) : Reader α := do
  let mismatch (u : Unexpected) : Reader α := throw (.unexpectedType u expected)
  match ← peek with
  | some 'n' =>
    skip
    word "ull".toList
    mismatch .null
  | some 't' =>
    skip
    word "rue".toList
    mismatch (.boolean true)
  | some 'f' =>
    skip
    word "alse".toList
    mismatch (.boolean false)
  | some '-' =>
    skip
    mismatch (.number (← number true))
  | some '"' => mismatch (.string (← string))
  | some '[' => mismatch .sequence
  | some '{' => mismatch .map
  | some c => if isDigit c then mismatch (.number (← number false)) else throw .malformed
  | none => throw .unfinished

def unsigned (expected : String) : Reader UInt64 := do
  let n ← match ← peekValue with
    | some '-' =>
      skip
      number true
    | some c => if isDigit c then number false else unexpected expected
    | none => throw .unfinished
  match n with
  | .natural n => return n
  | .negative k => throw (.unexpectedValue (.number (.negative k)) expected)
  | .float minus f => throw (.unexpectedType (.number (.float minus f)) expected)

def optional {α : Type} (value : Reader α) : Reader (Option α) := do
  match ← peekValue with
  | some 'n' =>
    skip
    word "ull".toList
    return none
  | _ => return some (← value)

def boolean : Reader Bool := do
  match ← peekValue with
  | some 't' =>
    skip
    word "rue".toList
    return true
  | some 'f' =>
    skip
    word "alse".toList
    return false
  | _ => unexpected "a boolean"

def text (expected : String) : Reader String := do
  match ← peekValue with
  | some '"' => string
  | _ => unexpected expected

def unit : Reader Unit := do
  match ← peekValue with
  | some 'n' =>
    skip
    word "ull".toList
  | _ => unexpected "unit"

def mark (c : Char) : Reader Unit := do
  match ← peekValue with
  | none => throw .unfinished
  | some d => if d = c then skip else throw .malformed

def named {α : Type} (options : List (String × α)) (name : String) : Reader α :=
  match options.lookup name with
  | some a => return a
  | none => throw (.unknownVariant name (options.map (·.1)))

def key : Reader String := do
  match ← peekValue with
  | none => throw .unfinished
  | some '"' => string
  | some _ => throw .malformed

def variant {α : Type} (options : List (String × α)) : Reader α := do
  match ← peekValue with
  | none => throw .unfinished
  | some '"' => named options (← string)
  | some '{' =>
    skip
    let a ← named options (← key)
    mark ':'
    unit
    mark '}'
    return a
  | some _ => throw .malformed

def done : Reader Unit := do
  if (← peekValue).isSome then throw .malformed

def run {α : Type} (r : Reader α) (s : String) : Except ReadError α := do
  let (a, rest) ← r s.toList
  let _ ← done rest
  return a

end Reader

end CoreReuse.Json
