import Mathlib
import ScriptToLua.Lowering.Access

/-!
What the code of an access and of a call of a member can be. An access is read and written where it
lands, and a plain one as it stands: `Access.read_cases` and `Access.place_cases`.
-/

namespace ScriptToLua.Lowering

open Lua (Code)

namespace Access

variable {a : Access}

/-- The access is by a name, after a dot or as a text. -/
def Names (a : Access) (x : String) : Prop := a.key = .named x ∨ ∃ t, a.key = .element (.string x) t

/-- Where an access can land. -/
inductive Lands (fold : Bool) (a : Access) : Landing → Prop where
  | length {x : String} (h : a.Names x) : a.Lands fold .length
  | field {x : String} (h : a.Names x) : a.Lands fold (.place (.field a.receiver x))
  | indexText {x : String} {t : TypeId} (hi : isIndexText x) (h : a.key = .element (.string x) t) :
    a.Lands fold (.place (.entry a.receiver (oneBased fold (.number x))))
  | entry {k : Code} {t : TypeId} (h : a.key = .element k t) :
    a.Lands fold (.place (.entry a.receiver k))
  | slot {k : Code} {t : TypeId} (h : a.key = .element k t) :
    a.Lands fold (.place (.entry a.receiver (oneBased fold k)))

theorem lands_of_landing? {s : TypeStore} {fold : Bool} {l : Landing}
    (h : a.landing? s fold = some l) : a.Lands fold l := by
  unfold Access.landing? at h
  split at h
  · split at h
    · next x hk =>
      unfold landNamed at h
      split at h
      · cases h
        exact .field (.inl hk)
      · split at h
        · cases h
          exact .length (.inl hk)
        · cases h
    · next x t hk =>
      rw [Option.some.injEq] at h
      unfold landString at h
      split at h
      · next hi =>
        cases h
        exact .indexText hi hk
      · split at h
        · cases h
          exact .length (.inr ⟨t, hk⟩)
        · cases h
          exact .field (.inr ⟨t, hk⟩)
    · next k t _ hk =>
      rw [Option.some.injEq] at h
      unfold landComputed at h
      split at h
      · cases h
        exact .entry hk
      · cases h
        exact .slot hk
  · cases h

/-- Where the access lands; a plain one lands on the place that it reads as. -/
def lands (s : TypeStore) (fold : Bool) (a : Access) : Landing :=
  (a.landing? s fold).getD (.place a.plain)

/-- The code that reads, writes and deletes what is accessed comes from where the access lands. -/
theorem read_eq_lands (a : Access) (s : TypeStore) (fold : Bool) :
    a.read s fold =
      match a.lands s fold with
      | .place p => p.code
      | .length => .unary .len a.receiver := by
  unfold read read? lands
  cases a.landing? s fold with
  | none => rfl
  | some l => cases l <;> rfl

theorem isLength_eq_lands (a : Access) (s : TypeStore) (fold : Bool) :
    a.isLength s fold =
      match a.lands s fold with
      | .place _ => false
      | .length => true := by
  unfold isLength lands
  cases a.landing? s fold with
  | none => rfl
  | some l => cases l <;> rfl

theorem place_eq_lands (a : Access) (s : TypeStore) (fold : Bool) :
    a.place s fold =
      match a.lands s fold with
      | .place p => p
      | .length => a.plain := by
  unfold place place? lands
  cases a.landing? s fold with
  | none => rfl
  | some l => cases l <;> rfl

theorem lands_cases (a : Access) (s : TypeStore) (fold : Bool) :
    a.lands s fold = .place a.plain ∨ a.Lands fold (a.lands s fold) := by
  unfold lands
  cases hl : a.landing? s fold with
  | none => exact .inl rfl
  | some l => exact .inr (lands_of_landing? hl)

theorem place_cases (a : Access) (s : TypeStore) (fold : Bool) :
    a.place s fold = a.plain ∨ a.Lands fold (.place (a.place s fold)) := by
  have hl := a.lands_cases s fold
  rw [place_eq_lands]
  generalize a.lands s fold = l at hl
  cases l with
  | place p => exact hl.imp Landing.place.inj id
  | length => exact .inl rfl

/-- An access is read from the place that it is written to, or it is the length. -/
theorem read_cases (a : Access) (s : TypeStore) (fold : Bool) :
    (a.isLength s fold = false ∧ a.read s fold = (a.place s fold).code) ∨
      (a.Lands fold .length ∧ a.isLength s fold ∧ a.read s fold = .unary .len a.receiver) := by
  have hl := a.lands_cases s fold
  rw [isLength_eq_lands, read_eq_lands, place_eq_lands]
  generalize a.lands s fold = l at hl
  cases l with
  | place p => exact .inl ⟨rfl, rfl⟩
  | length => exact .inr ⟨hl.resolve_left nofun, rfl, rfl⟩

end Access

/-- A member is called plainly, as a method by its name, or with its receiver before the arguments. -/
theorem callMember_cases (receiver : Code) (name : String) (member : Option Property)
    (args : List Code) :
    callMember receiver name member args = .call (.member receiver name) args ∨
      (Lua.isName name ∧ callMember receiver name member args = .invoke receiver name args) ∨
      (receiver.isPure ∧ callMember receiver name member args =
        .call (.member receiver name) (receiver :: args)) ∨
      callMember receiver name member args = .immediate [.bindLocal objectTemp receiver,
        .yields (.call (.member (.name objectTemp) name) (.name objectTemp :: args))] := by
  unfold callMember
  split
  · exact .inl rfl
  · split
    · next hname => exact .inr (.inl ⟨hname, rfl⟩)
    · split
      · next hpure => exact .inr (.inr (.inl ⟨hpure, rfl⟩))
      · exact .inr (.inr (.inr rfl))

end ScriptToLua.Lowering
