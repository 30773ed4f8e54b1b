import RelinCeremony.Binary64.Basic
import RelinCeremony.Decimal.Shortest

namespace RelinCeremony
namespace Decimal

/-!
# Layout of decimals

The text of a floating-point number: the fewest digits that identify it, laid
out by a record of decisions, a `Layout`.  Messages use `plain`,
descriptions of values use `descriptive`.
-/

/-- The decisions of a text format for floating-point numbers. -/
structure Layout where
  /-- Whether an integral value is written with `.0`. -/
  pointZero : Bool
  /-- The exponents of the leading digit that are written positionally; the
  others are written with `e`.  All of them if there is no range. -/
  positional : Option (Int × Int)

/-- Positional throughout, integral values without a point. -/
def plain : Layout := ⟨false, none⟩

/-- Positional from `10^-4` up to, and not with, `10^16`; a point always. -/
def descriptive : Layout := ⟨true, some (-4, 16)⟩

def zeros (n : Nat) : String := String.ofList (List.replicate n '0')

/-- A decimal written positionally. -/
def positionalText (pointZero : Bool) (d : Decimal) : String :=
  let text := Nat.toDigits 10 d.digits
  if 0 ≤ d.exponent then
    String.ofList text ++ zeros d.exponent.toNat ++ (if pointZero then ".0" else "")
  else
    let places := (-d.exponent).toNat
    if places < text.length then
      let whole := text.length - places
      String.ofList (text.take whole) ++ "." ++ String.ofList (text.drop whole)
    else
      "0." ++ zeros (places - text.length) ++ String.ofList text

/-- A decimal written with one digit before the point and a power of ten. -/
def exponentText (d : Decimal) : String :=
  let text := Nat.toDigits 10 d.digits
  let leading := d.exponent + ((text.length : Int) - 1)
  let fraction := if text.length ≤ 1 then "" else "." ++ String.ofList (text.drop 1)
  String.ofList (text.take 1) ++ fraction ++ "e" ++ toString leading

/-- The text of a positive decimal in a layout. -/
def Layout.magnitudeText (layout : Layout) (d : Decimal) : String :=
  let leading := d.exponent + (((Nat.toDigits 10 d.digits).length : Int) - 1)
  match layout.positional with
  | some (least, limit) =>
      if least ≤ leading && leading < limit then positionalText layout.pointZero d
      else exponentText d
  | none => positionalText layout.pointZero d

def Layout.render (layout : Layout) : Binary64 → String
  | .nan => "NaN"
  | .infinite negative => if negative then "-inf" else "inf"
  | .finite negative significand exponent =>
      let sign := if negative then "-" else ""
      if significand = 0 then sign ++ positionalText layout.pointZero ⟨0, 0⟩
      else
        let narrowBelow := significand == 2 ^ 52 && exponent > -1074
        sign ++ layout.magnitudeText (shortest ⟨significand, exponent, narrowBelow⟩)

end Decimal
end RelinCeremony
