import Mathlib
import ScriptToLua.Proofs.Lowering.Views
import ScriptToLua.Proofs.Lua.IntegerNumeral

/-!
Slots of constant indices. The slot of a natural number is one more, exactly and however large the number
is: as one numeral where 64 bits hold it, as a sum otherwise, `natural?_oneBased`. A string that is an
index is a decimal numeral that lands in the slot of its number, `isIndexText_lands`.
-/

namespace ScriptToLua

namespace Lua

/-- The number that a numeral or the sum of two numerals writes. -/
def Code.natural? : Code → Option Nat
  | number text => naturalOf? text
  | binary (number left) .add (number right) => do
    return (← naturalOf? left) + (← naturalOf? right)
  | _ => none

end Lua

namespace Lowering

open Lua (Code IsNatural)
open TypeStore

section Slots

variable {text : String} {n : Nat}

theorem successor?_number (h : IsNatural text n) :
    successor? (.number text) = if n < 2 ^ 63 - 1 then some ((n + 1 : Nat) : Int) else none := by
  have hread : (Code.number text).integer? = if n < 2 ^ 63 then some (n : Int) else none :=
    h.integerOf?_eq
  rw [successor?, hread, Nat.pow_eq]
  by_cases hn : n < 2 ^ 63 - 1
  · have hfits : (n : Int) + 1 < (2 ^ 63 : Nat) := by omega
    rw [if_pos hn, if_pos (by omega), Option.map_some, Option.filter_some,
      if_pos (decide_eq_true hfits), Nat.cast_succ]
  · rw [if_neg hn, Option.filter_eq_none_iff]
    intro k hk
    split at hk
    · obtain rfl := Option.some.inj hk
      rw [decide_eq_true_eq]
      change ¬(n : Int) + 1 < (2 ^ 63 : Nat)
      omega
    · cases hk

/-- The slot of a natural number is worked out if 64 bits hold it. -/
theorem oneBased_number (h : IsNatural text n) (fold : Bool) :
    oneBased fold (.number text) =
      if fold ∧ n < 2 ^ 63 - 1 then .integer (n + 1 : Nat)
      else .binary (.number text) .add (.integer 1) := by
  unfold oneBased
  rw [successor?_number h]
  cases fold with
  | false => simp
  | true =>
    by_cases hn : n < 2 ^ 63 - 1
    · simp only [hn, and_self, if_true]
    · simp only [hn, and_false, if_false]

/-- The slot of a numeral writes the number after that of the numeral. It is a single numeral exactly for
numbers below `2 ^ 63 - 1`. -/
theorem natural?_oneBased (h : IsNatural text n) :
    (∀ fold, (oneBased fold (.number text)).natural? = some (n + 1)) ∧
      ((∃ slot, oneBased true (.number text) = .number slot) ↔ n < 2 ^ 63 - 1) := by
  constructor
  · intro fold
    rw [oneBased_number h]
    split
    · exact Lua.naturalOf?_toString (n + 1)
    · have hone : Lua.naturalOf? (toString (1 : Nat)) = some 1 := Lua.naturalOf?_toString 1
      change (do return (← Lua.naturalOf? text) + (← Lua.naturalOf? (toString (1 : Nat)))) = _
      rw [Lua.naturalOf?_eq_some_iff.2 h, hone]
      rfl
  · rw [oneBased_number h]
    constructor
    · rintro ⟨slot, hslot⟩
      by_contra hn
      rw [if_neg fun hfold => hn hfold.2] at hslot
      cases hslot
    · intro hn
      exact ⟨toString (n + 1), if_pos ⟨rfl, hn⟩⟩

/-- The largest 64-bit integer, in hexadecimal with leading zeros, and the number before it. -/
theorem natural?_oneBased_of_limit :
    IsNatural "0x007FFFFFFFFFFFFFFF" (2 ^ 63 - 1) ∧ IsNatural "9223372036854775806" (2 ^ 63 - 2) ∧
      (oneBased true (.number "0x007FFFFFFFFFFFFFFF")).natural? = some (2 ^ 63) ∧
      (¬∃ slot, oneBased true (.number "0x007FFFFFFFFFFFFFFF") = .number slot) ∧
      ∃ slot, oneBased true (.number "9223372036854775806") = .number slot := by
  have hmax : IsNatural "0x007FFFFFFFFFFFFFFF" (2 ^ 63 - 1) := by
    rw [← Lua.naturalOf?_eq_some_iff]
    decide +kernel
  have hlast : IsNatural "9223372036854775806" (2 ^ 63 - 2) := by
    rw [← Lua.naturalOf?_eq_some_iff]
    decide +kernel
  refine ⟨hmax, hlast, (natural?_oneBased hmax).1 true, ?_, ?_⟩
  · rw [(natural?_oneBased hmax).2]
    decide
  · rw [(natural?_oneBased hlast).2]
    decide

end Slots

section IndexTexts

variable {s : TypeStore} {fold : Bool} {receiver : Code} {shape : Shape}

/-- An index that is no string is translated where its type is that of numbers. -/
theorem landing?_number (hs : initial.Extends s) (h : shape.isArrayLike) (text : String) :
    Access.landing? s fold ⟨receiver, .element (.number text) .number, shape⟩ =
      some (.place (.entry receiver (oneBased fold (.number text)))) := by
  have hnumber : (s.get? .number).any TypeData.isNumber := by
    rw [hs.get? (by decide)]
    rfl
  simp only [Access.landing?, h, if_true, Access.landComputed, isStringLike_of_isNumber hnumber,
    Bool.false_eq_true, if_false]

theorem landing?_indexText {key : String} (h : shape.isArrayLike) (hi : isIndexText key) (t : TypeId) :
    Access.landing? s fold ⟨receiver, .element (.string key) t, shape⟩ =
      some (.place (.entry receiver (oneBased fold (.number key)))) := by
  simp only [Access.landing?, h, if_true, Access.landString, hi]

/-- The strings that are indices are the decimal numerals of the numbers below `10 ^ 15`. On array-like
receivers they land where their numerals land, and this is the slot after their number. -/
theorem isIndexText_lands (key : String) :
    (isIndexText key ↔ ∃ n < 10 ^ 15, key = toString n) ∧
    ∀ n : Nat, n < 10 ^ 15 → key = toString n → ∀ s : TypeStore, initial.Extends s →
      ∀ (receiver : Code) (shape : Shape), shape.isArrayLike → ∀ (t : TypeId) (fold : Bool),
      Access.landing? s fold ⟨receiver, .element (.string key) t, shape⟩ =
        Access.landing? s fold ⟨receiver, .element (.number key) .number, shape⟩ ∧
      Access.landing? s true ⟨receiver, .element (.string key) t, shape⟩ =
        some (.place (.entry receiver (.integer (n + 1)))) := by
  refine ⟨isIndexText_iff, ?_⟩
  rintro n hn rfl s hs receiver shape h t fold
  have hi : isIndexText (toString n) := isIndexText_iff.2 ⟨n, hn, rfl⟩
  have hfold : oneBased true (.number (toString n)) = .integer (n + 1) := by
    rw [oneBased_number (Lua.isNatural_toString n), if_pos ⟨rfl, hn.trans (by decide)⟩]
    rfl
  constructor
  · rw [landing?_indexText h hi, landing?_number hs h]
  · rw [landing?_indexText h hi, hfold]

/-- The last index, as a string of unknown type. -/
theorem isIndexText_lands_of_last :
    let key := "999999999999999"
    let landing (fold : Bool) (index : Code) (t : TypeId) :=
      Access.landing? initial fold ⟨.name "e", .element index t, .array .string⟩
    isIndexText key ∧ key = toString (10 ^ 15 - 1) ∧ initial.Extends initial ∧
      (Shape.array .string).isArrayLike ∧
      landing false (.string key) .unknown = landing false (.number key) .number ∧
      landing true (.string key) .unknown = some (.place (.entry (.name "e") (.integer (10 ^ 15)))) := by
  intro key landing
  have hlt : 10 ^ 15 - 1 < 10 ^ 15 := by decide
  have hkey : key = toString (10 ^ 15 - 1) := by decide +kernel
  have hstore : initial.Extends initial := .refl initial
  have harray : (Shape.array .string).isArrayLike := rfl
  obtain ⟨hiff, hlands⟩ := isIndexText_lands key
  obtain ⟨hsame, hslot⟩ := hlands _ hlt hkey initial hstore (.name "e") _ harray .unknown false
  exact ⟨hiff.2 ⟨_, hlt, hkey⟩, hkey, hstore, harray, hsame, hslot⟩

end IndexTexts

end Lowering

end ScriptToLua
