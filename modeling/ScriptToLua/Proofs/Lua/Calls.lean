import Mathlib
import ScriptToLua.Lua.Syntax

/-!
How often code calls a function by its name.
-/

namespace ScriptToLua.Lua

/-- The name, if the code is one. -/
def Code.name? : Code → Option String
  | .name x => some x
  | _ => none

mutual

/-- How many calls in the code have the name `f` for a callee. -/
@[grind =]
def Code.calls (f : String) : Code → Nat
  | .index table key => table.calls f + key.calls f
  | .member table _ => table.calls f
  | .call callee arguments =>
    (if callee.name? = some f then 1 else 0) + callee.calls f + Code.callsAll f arguments
  | .invoke receiver _ arguments => receiver.calls f + Code.callsAll f arguments
  | .binary left _ right => left.calls f + right.calls f
  | .unary _ operand => operand.calls f
  | .table fields => Field.callsAll f fields
  | .function _ body => Code.callsAll f body
  | .paren inner => inner.calls f
  | .locals _ values => Code.callsAll f values
  | .localFunction _ _ body => Code.callsAll f body
  | .assign targets values => Code.callsAll f targets + Code.callsAll f values
  | .perform expression => expression.calls f
  | .returns values => Code.callsAll f values
  | .block body => Code.callsAll f body
  | _ => 0

@[grind =]
def Code.callsAll (f : String) : List Code → Nat
  | [] => 0
  | c :: rest => c.calls f + Code.callsAll f rest

@[grind =]
def Field.callsAll (f : String) : List Field → Nat
  | [] => 0
  | .item value :: rest => value.calls f + Field.callsAll f rest
  | .named _ value :: rest => value.calls f + Field.callsAll f rest
  | .keyed key value :: rest => key.calls f + value.calls f + Field.callsAll f rest

end

variable (f : String)

@[simp]
theorem Code.calls_number (text : String) : (Code.number text).calls f = 0 := rfl

@[simp]
theorem Code.calls_string (s : String) : (Code.string s).calls f = 0 := rfl

theorem Code.callsAll_eq (cs : List Code) : Code.callsAll f cs = (cs.map (Code.calls f)).sum := by
  induction cs with
  | nil => rfl
  | cons c cs ih => rw [Code.callsAll, ih, List.map_cons, List.sum_cons]

theorem Code.callsAll_append (cs ds : List Code) :
    Code.callsAll f (cs ++ ds) = Code.callsAll f cs + Code.callsAll f ds := by
  simp only [Code.callsAll_eq, List.map_append, List.sum_append]

theorem Code.callsAll_flatten (css : List (List Code)) :
    Code.callsAll f css.flatten = (css.map (Code.callsAll f)).sum := by
  induction css with
  | nil => rfl
  | cons cs css ih => rw [List.flatten_cons, Code.callsAll_append, ih, List.map_cons, List.sum_cons]

/-- The calls in a field. -/
def Field.calls (field : Field) : Nat := Field.callsAll f [field]

theorem Field.callsAll_eq (fields : List Field) :
    Field.callsAll f fields = (fields.map (Field.calls f)).sum := by
  induction fields with
  | nil => rfl
  | cons field fields ih =>
    cases field <;> simp only [Field.callsAll, Field.calls, ih, List.map_cons, List.sum_cons] <;>
      omega

/-- Code that only reads calls nothing. -/
theorem Code.calls_of_isPure : (c : Code) → c.isPure → c.calls f = 0
  | .nil, _ | .boolean _, _ | .number _, _ | .string _, _ | .name _, _ => by
    simp only [Code.calls]
  | .member t _, h => by
    simp only [Code.calls]
    exact Code.calls_of_isPure t h
  | .index t k, h => by
    simp only [Code.isPure, Bool.and_eq_true] at h
    simp only [Code.calls, Code.calls_of_isPure t h.1, Code.calls_of_isPure k h.2]
  | .binary left _ right, h => by
    simp only [Code.isPure, Bool.and_eq_true] at h
    simp only [Code.calls, Code.calls_of_isPure left h.1, Code.calls_of_isPure right h.2]
  | .unary _ operand, h => by
    simp only [Code.calls]
    exact Code.calls_of_isPure operand h
  | .paren inner, h => by
    simp only [Code.calls]
    exact Code.calls_of_isPure inner h

end ScriptToLua.Lua
