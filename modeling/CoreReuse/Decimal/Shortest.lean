namespace CoreReuse

structure Double where
  mantissa : Nat
  exponent : Int
  atPower : Bool
deriving Repr

namespace Double

def hidden : Nat := 4503599627370496

def ofBits (bits : UInt64) : Double :=
  let n : Nat := bits.toNat
  let fraction : Nat := n % hidden
  let field : Nat := n / hidden % 2048
  if field = 0 then ⟨fraction, -1074, false⟩
  else ⟨fraction + hidden, (field : Int) - 1075, fraction = 0 && 1 < field⟩

def value (d : Double) : Rat := (d.mantissa : Rat) * (2 : Rat) ^ d.exponent

def rounds (d : Double) (x : Rat) : Bool :=
  let unit := (2 : Rat) ^ d.exponent
  let low := d.value - (if d.atPower then unit / 4 else unit / 2)
  let high := d.value + unit / 2
  if d.mantissa % 2 = 0 then low ≤ x && x ≤ high else low < x && x < high

end Double

structure Decimal where
  digits : Nat
  exponent : Int
deriving Repr

namespace Decimal

def value (d : Decimal) : Rat := (d.digits : Rat) * (10 : Rat) ^ d.exponent

def strip : Nat → Decimal → Decimal
  | 0, d => d
  | n + 1, d =>
    if d.digits % 10 = 0 then strip n ⟨d.digits / 10, d.exponent + 1⟩ else d

def magnitude (x : Rat) : Int :=
  let n := x.num.toNat
  if x.den ≤ n then
    (Nat.toDigits 10 (n / x.den)).length
  else
    1 - (((List.range 400).find? fun j => x.den ≤ n * Nat.pow 10 j).getD 0 : Nat)

def onGrid (d : Double) (exponent : Int) : Option Decimal :=
  let below : Decimal := ⟨(d.value / (10 : Rat) ^ exponent).floor.toNat, exponent⟩
  let above : Decimal := ⟨below.digits + 1, exponent⟩
  match d.rounds below.value, d.rounds above.value with
  | true, true =>
    let (left, right) := (d.value - below.value, above.value - d.value)
    some (if left < right || left = right && below.digits % 2 = 0 then below else above)
  | true, false => some below
  | false, true => some above
  | false, false => none

def shortest (d : Double) : Decimal :=
  let p := magnitude d.value
  let found := (List.range 17).findSome? fun (n : Nat) => onGrid d (p - (n + 1 : Nat))
  strip 17 (found.getD ⟨d.mantissa, d.exponent⟩)

end Decimal

end CoreReuse
