import CoreReuse.Word

namespace CoreReuse.Text

def digitValue? (c : Char) : Option Nat :=
  if '0' ≤ c && c ≤ '9' then some (c.toNat - 48) else none

def readDigits (acc : Nat) : List Char → Option Nat
  | [] => some acc
  | c :: cs => do readDigits (acc * 10 + (← digitValue? c)) cs

def unsigned? : List Char → Option Nat
  | [] => none
  | c :: cs => readDigits 0 (c :: cs)

def ofSigned? : List Char → Option Nat
  | '+' :: cs => unsigned? cs
  | cs => unsigned? cs

def word? (s : List Char) : Option UInt64 := do
  let n ← ofSigned? s
  if n < wordLimit then some n.toUInt64 else none

end CoreReuse.Text
