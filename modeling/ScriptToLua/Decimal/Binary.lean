/-!
The value of a double, read off its bits: not a number, an infinity, or a signed integer times a
power of two.
-/

namespace ScriptToLua.Decimal

/-- The magnitude `mantissa * 2 ^ exponent`. -/
structure Binary where
  mantissa : Nat
  exponent : Int
  deriving DecidableEq, Repr

/-- The value of a double; `negative` is the sign bit. -/
inductive Real where
  | nan
  | infinite (negative : Bool)
  | finite (negative : Bool) (magnitude : Binary)
  deriving DecidableEq, Repr

/-- The binary fraction of a finite double with the given exponent field and fraction field. -/
def Binary.ofFields (exponentField fraction : Nat) : Binary :=
  if exponentField = 0 then ⟨fraction, -1074⟩
  else ⟨Nat.pow 2 52 + fraction, exponentField - 1075⟩

/-- Splits the 64 bits of a double into sign, exponent field and fraction field. -/
def Real.ofBits (bits : Nat) : Real :=
  let negative := bits / Nat.pow 2 63 % 2 = 1
  let exponentField := bits / Nat.pow 2 52 % Nat.pow 2 11
  let fraction := bits % Nat.pow 2 52
  if exponentField = 2047 then
    if fraction = 0 then .infinite negative else .nan
  else .finite negative (.ofFields exponentField fraction)

def Real.ofFloat (x : Float) : Real := .ofBits x.toBits.toNat

/-- The magnitude as a natural number, if it is one. -/
def Binary.natural? (b : Binary) : Option Nat :=
  match b.exponent with
  | .ofNat e => some (b.mantissa * Nat.pow 2 e)
  | .negSucc e =>
    if b.mantissa % Nat.pow 2 (e + 1) = 0 then some (b.mantissa / Nat.pow 2 (e + 1)) else none

/-- The value as an integer, if it is one; both zeros are 0. -/
def Real.integer? : Real → Option Int
  | .finite negative b => b.natural?.map fun n => if negative then -(n : Int) else n
  | _ => none

end ScriptToLua.Decimal
