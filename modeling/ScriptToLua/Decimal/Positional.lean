import ScriptToLua.Decimal.Shortest

/-!
Decimals written without an exponent: as many zeros as it takes, and a point only before a
fractional part.
-/

namespace ScriptToLua.Decimal

/-- Zeros before `cs` up to the given length. -/
def padLeft (length : Nat) (cs : List Char) : List Char :=
  List.replicate (length - cs.length) '0' ++ cs

/-- The digits with zeros after them, or with the point that many places from the right. -/
def Scaled.positional (d : Scaled) : List Char :=
  let cs := Nat.toDigits 10 d.digits
  match d.exponent with
  | .ofNat e => cs ++ List.replicate e '0'
  | .negSucc e =>
    let padded := padLeft (e + 2) cs
    let whole := padded.length - (e + 1)
    padded.take whole ++ '.' :: padded.drop whole

/-- The text of a number: integers below 10^15 as such, so that both zeros are `0`, and any other
finite number by its shortest digits. -/
def Real.text : Real → String
  | .nan => "nan"
  | .infinite false => "inf"
  | .infinite true => "-inf"
  | .finite negative b =>
    match (Real.finite negative b).integer? with
    | some n => if n.natAbs < Nat.pow 10 15 then toString n else signed negative b
    | none => signed negative b
where
  signed (negative : Bool) (b : Binary) : String :=
    String.ofList ((if negative then ['-'] else []) ++ b.shortest.positional)

end ScriptToLua.Decimal
