import PriceFormula.Number.Decimal
import PriceFormula.Number.Parts

/-! The shortest decimal that reads back as a given float. Of the decimals with one digit, then
two, and so on, only the two grid points around the value can read back first. -/

namespace PriceFormula.Number

open Float.Model

def leadingExponent (num den : Nat) : Int :=
  if den ≤ num then ((Nat.toDigits 10 (num / den)).length : Int) - 1
  else -((Nat.toDigits 10 ((den - 1) / num)).length : Int)

/-- The grid point `count * 10 ^ exponent` of the decimals with `places` digits. The point just
above the largest of them has a single digit. -/
def gridPoint (places count : Nat) (exponent : Int) : Decimal :=
  if count = Nat.pow 10 places then ⟨false, 1, exponent + places⟩ else ⟨false, count, exponent⟩

/-- The decimal with `places` digits nearest to `x = num / den` among those that read back as `x`.
When both neighbours do and are equally near, `tieUp` of the lower digits decides. -/
def shortestWith (tieUp : Nat → Bool) (x : Float) (num den places : Nat) : Option Decimal :=
  let exponent := leadingExponent num den - (places - 1 : Nat)
  let scaledNum := if exponent < 0 then num * Nat.pow 10 exponent.natAbs else num
  let scaledDen := if exponent < 0 then den else den * Nat.pow 10 exponent.natAbs
  let below := scaledNum / scaledDen
  let lower := gridPoint places below exponent
  let upper := gridPoint places (below + 1) exponent
  let upperNearer :=
    match compare (2 * (scaledNum % scaledDen)) scaledDen with
    | .lt => false
    | .eq => tieUp below
    | .gt => true
  match decide (lower.toFloat = x), decide (upper.toFloat = x) with
  | true, true => some (if upperNearer then upper else lower)
  | true, false => some lower
  | false, true => some upper
  | false, false => none

def exactDecimal (mantissa : Nat) (exponent : Int) : Decimal :=
  if 0 ≤ exponent then ⟨false, mantissa <<< exponent.toNat, 0⟩
  else ⟨false, mantissa * Nat.pow 5 (-exponent).toNat, exponent⟩

/-- The shortest decimal that reads back as `x`, for finite `x`. Seventeen digits always suffice,
so the exact decimal behind them is never needed. -/
def shortest (tieUp : Nat → Bool) (x : Float) : Decimal :=
  match parts x with
  | .finite sign mantissa exponent _ =>
    let (num, den) := fraction mantissa exponent
    let magnitude :=
      ((List.range 17).findSome? fun n => shortestWith tieUp x.abs num den (n + 1)).getD
        (exactDecimal mantissa exponent)
    match sign with
    | .negative => { magnitude with negative := true }
    | .positive => magnitude
  | _ => ⟨isNegative x, 0, 0⟩

end PriceFormula.Number
