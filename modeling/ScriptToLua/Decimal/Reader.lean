import ScriptToLua.Numeral
import ScriptToLua.Decimal.Shortest

/-!
Decimal numerals as doubles: an optional sign, then digits with an optional point and exponent, or a
word for an infinity or for not a number.
-/

namespace ScriptToLua.Decimal

/-- The digits at the front of a text and what follows them. -/
def takeDigits (cs : List Char) : List Char × List Char :=
  (cs.takeWhile Char.isDigit, cs.dropWhile Char.isDigit)

/-- The exponent of ten that ends a numeral: nothing, or a marker, an optional sign and digits. -/
def exponentPart? : List Char → Option Int
  | [] => some 0
  | c :: cs =>
    if c = 'e' ∨ c = 'E' then
      match cs with
      | '-' :: ds => (digits? ds).map fun n => -(n : Int)
      | '+' :: ds => (digits? ds).map Int.ofNat
      | ds => (digits? ds).map Int.ofNat
    else none
where
  digits? (ds : List Char) : Option Nat := Numeral.natural? 10 ds

/-- An unsigned numeral with at least one digit beside the point. -/
def Scaled.ofChars? (cs : List Char) : Option Scaled :=
  let (whole, rest) := takeDigits cs
  let (fraction, rest) :=
    match rest with
    | '.' :: rest => takeDigits rest
    | rest => ([], rest)
  match Numeral.natural? 10 (whole ++ fraction), exponentPart? rest with
  | some digits, some exponent => some ⟨digits, exponent - fraction.length⟩
  | _, _ => none

/-- The double nearest to a decimal. Beyond 10^400 every decimal is infinite and below 10^-400 every
decimal is zero. -/
def Scaled.toFloat (d : Scaled) : Float :=
  let top := digitCount d.digits + d.exponent
  if d.digits = 0 ∨ top < -400 then 0.0
  else if 400 < top then 1.0 / 0.0
  else Float.ofScientific d.digits (d.exponent < 0) d.exponent.natAbs

/-- The words for special values, in any case. -/
def word? (cs : List Char) : Option Float :=
  match String.ofList (cs.map Char.toLower) with
  | "inf" => some (1.0 / 0.0)
  | "infinity" => some (1.0 / 0.0)
  | "nan" => some (0.0 / 0.0)
  | _ => none

def unsigned? (cs : List Char) : Option Float :=
  (word? cs).or ((Scaled.ofChars? cs).map Scaled.toFloat)

/-- A numeral after an optional sign. -/
def float? : List Char → Option Float
  | '-' :: cs => (unsigned? cs).map Float.neg
  | '+' :: cs => unsigned? cs
  | cs => unsigned? cs

end ScriptToLua.Decimal
