import ScriptToLua.Json.Text

/-!
JSON numbers. Of a number whose value is needed, natural numbers of 64 bits are told apart from all
others, and numbers too large for a double are refused.
-/

namespace ScriptToLua.Json

open Reader

inductive Number where
  | natural (n : Nat)
  /-- Negative, fractional, written with an exponent, or of more than 64 bits. -/
  | other
  deriving DecidableEq, Repr

/-- Reads the digits at the front. -/
def digits : Reader (List Char) := do
  let c ← get
  set (⟨c.rest.dropWhile Char.isDigit, c.line⟩ : Cursor)
  return c.rest.takeWhile Char.isDigit

/-- The text ends inside a number. -/
def endInside {α : Type} : Care → Reader α
  | .needed => failEnd
  | .skipped => fail

/-- Reads one digit. -/
def digit (care : Care) : Reader Char := do
  match ← peek? with
  | none => endInside care
  | some c =>
    advance
    if c.isDigit then return c else fail

/-- The digits before the point: a zero alone, or digits that do not begin with one. -/
def wholePart (care : Care) : Reader (List Char) := do
  let c ← digit care
  if c = '0' then
    match ← peek? with
    | some d => if d.isDigit then failNext else return [c]
    | none => return [c]
  else return c :: (← digits)

/-- The digits after the point, if there is one. -/
def fractionPart (care : Care) : Reader (Option (List Char)) := do
  if (← peek?) = some '.' then
    advance
    match ← digits with
    | [] => if (← peek?).isSome then failNext else endInside care
    | ds => return some ds
  else return none

def exponentSign : Reader Bool := do
  match ← peek? with
  | some '+' =>
    advance
    return false
  | some '-' =>
    advance
    return true
  | _ => return false

/-- The exponent, if there is one. -/
def exponentPart (care : Care) : Reader (Option Int) := do
  let c ← peek?
  if c = some 'e' ∨ c = some 'E' then
    advance
    let negative ← exponentSign
    let first ← digit care
    let ds := first :: (← digits)
    let n := (Numeral.natural? 10 ds).getD 0
    return some (if negative then -(n : Int) else n)
  else return none

/-- Takes up digits while the number fits into 64 bits. The first part is the number, the second says
how many digits were left out. -/
def takeUp : (significand : Nat) → List Char → Nat × Nat
  | n, [] => (n, 0)
  | n, c :: cs =>
    let m := 10 * n + (c.toNat - '0'.toNat)
    if m < Nat.pow 2 64 then takeUp m cs else (n, cs.length + 1)

/-- Whether a number is too large for a double. Its digits count as far as they fit into 64 bits. -/
def exceedsDouble (whole fraction : List Char) (exponent : Int) : Bool :=
  let (n, omitted) := takeUp 0 whole
  let (m, omittedFraction) := takeUp n fraction
  let e := exponent + omitted - (fraction.length - omittedFraction : Nat)
  m ≠ 0 && (308 < e ||
    (0 ≤ e && (Float.ofNat m * Float.ofScientific 1 false e.toNat).isInf))

/-- A number after its sign. -/
def number (care : Care) (negative : Bool) : Reader Number := do
  let whole ← wholePart care
  let fraction ← fractionPart care
  let exponent ← exponentPart care
  if care = .needed && exceedsDouble whole (fraction.getD []) (exponent.getD 0) then fail
  else
    match Numeral.bounded? 10 (Nat.pow 2 64) whole with
    | some n =>
      return if negative || fraction.isSome || exponent.isSome then .other else .natural n
    | none => return .other

/-- A number from its sign or first digit on. -/
def signedNumber (care : Care) : Reader Number := do
  if (← peek?) = some '-' then
    advance
    number care true
  else number care false

end ScriptToLua.Json
