/-!
Digit strings and the numbers that they denote, in bases up to sixteen, together with the readers
for signed and unsigned 64-bit integers.
-/

namespace ScriptToLua.Numeral

/-- The value of a digit below `base`; letters of either case count from ten. -/
def digit? (base : Nat) (c : Char) : Option Nat :=
  let value :=
    if c.isDigit then c.toNat - '0'.toNat
    else if c.isLower then c.toNat - 'a'.toNat + 10
    else if c.isUpper then c.toNat - 'A'.toNat + 10
    else base
  if value < base then some value else none

/-- Continues a number whose leading digits denote `acc`. -/
def naturalFrom? (base acc : Nat) : List Char → Option Nat
  | [] => some acc
  | c :: rest => (digit? base c).bind fun d => naturalFrom? base (base * acc + d) rest

/-- The number denoted by a non-empty string of digits. -/
def natural? (base : Nat) : List Char → Option Nat
  | [] => none
  | cs => naturalFrom? base 0 cs

/-- The number denoted by digits, if it is below `bound`. -/
def bounded? (base bound : Nat) (cs : List Char) : Option Nat :=
  (natural? base cs).filter (· < bound)

/-- A 64-bit signed integer: digits after an optional sign. -/
def int64? (base : Nat) : List Char → Option Int
  | '-' :: cs => (bounded? base (Nat.pow 2 63 + 1) cs).map fun n => -(n : Int)
  | '+' :: cs => (bounded? base (Nat.pow 2 63) cs).map Int.ofNat
  | cs => (bounded? base (Nat.pow 2 63) cs).map Int.ofNat

/-- A 64-bit unsigned integer: digits after an optional plus sign. -/
def nat64? (base : Nat) : List Char → Option Nat
  | '+' :: cs => bounded? base (Nat.pow 2 64) cs
  | cs => bounded? base (Nat.pow 2 64) cs

/-- The digits after a hexadecimal marker `0x` or `0X`. -/
def hexDigits? : List Char → Option (List Char)
  | '0' :: 'x' :: cs => some cs
  | '0' :: 'X' :: cs => some cs
  | _ => none

/-- Decimal digits only, at least one of them. -/
def isDecimal (cs : List Char) : Bool :=
  !cs.isEmpty && cs.all Char.isDigit

end ScriptToLua.Numeral
