import Mathlib
import ScriptToLua.Proofs.Lowering.Landing
import ScriptToLua.Proofs.Types.Additions
import ScriptToLua.Proofs.Types.IndexKinds

/-!
A value is often written through one type and read through another. All array-like types lead an access to
the same place, and so do all types that are not array-like: `views_agree`. Of the members that a type
declares only `length` makes a difference.
-/

namespace ScriptToLua.Lowering

open Lua (Code)
open TypeStore

namespace Access

/-- Where an array-like value keeps what an access with the key asks for. The value has its length from
the length operator, unless its type declares a member for it. -/
def home (ownLength : Bool) (isString : TypeId → Bool) (fold : Bool) (receiver : Code) :
    AccessKey → Landing
  | .named name =>
    if name = "length" ∧ ownLength = false then .length else .place (.field receiver name)
  | .element (.string name) _ =>
    if isIndexText name then .place (.entry receiver (oneBased fold (.number name)))
    else if name = "length" ∧ ownLength = false then .length
    else .place (.field receiver name)
  | .element index type =>
    if isString type then .place (.entry receiver index)
    else .place (.entry receiver (oneBased fold index))

section Lands

variable {a : Access} {s : TypeStore} {fold : Bool}

theorem lands_named {receiver : Code} {name : String} {shape : Shape} (h : shape.isArrayLike) :
    lands s fold ⟨receiver, .named name, shape⟩ =
      if name = "length" ∧ shape.member? name = none then .length
      else .place (.field receiver name) := by
  rw [lands, landing?, if_pos h]
  dsimp only
  unfold landNamed
  cases hm : shape.member? name with
  | some p => simp
  | none =>
    by_cases hl : name = "length"
    · simp [hl]
    · simp [hl, plain]

/-- Where an access to an array-like value lands is seen from the key and from whether the type declares
a member `length`. -/
theorem lands_eq_home (h : a.shape.isArrayLike) :
    a.lands s fold =
      home (a.shape.member? "length").isSome s.isStringLike fold a.receiver a.key := by
  have hlength (name : String) : (name = "length" ∧ a.shape.member? name = none) =
      (name = "length" ∧ (a.shape.member? "length").isSome = false) := by
    by_cases hn : name = "length"
    · simp [hn]
    · simp [hn]
  obtain ⟨receiver, key, shape⟩ := a
  cases key with
  | named name =>
    rw [lands_named h]
    simp only [home, hlength]
  | element index type =>
    rw [lands, landing?, if_pos h]
    cases index with
    | string name => simp only [Option.getD_some, landString, home, hlength]
    | _ => simp only [Option.getD_some, landComputed, home]

theorem lands_plain (h : a.shape.isArrayLike = false) : a.lands s fold = .place a.plain := by
  rw [lands, landing?, h]
  rfl

end Lands

/-- The two accesses, each with its store, are lowered to the same code: they read one place, write one
place and clear one place, and both are the length of an array or neither is. -/
structure SameCode (fold : Bool) (a : Access) (s : TypeStore) (a' : Access) (s' : TypeStore) :
    Prop where
  read : a.read s fold = a'.read s' fold
  isLength : a.isLength s fold = a'.isLength s' fold
  place : a.place s fold = a'.place s' fold
  delete : ∀ use, a.delete s fold use = a'.delete s' fold use

theorem SameCode.of_lands {fold : Bool} {a a' : Access} {s s' : TypeStore}
    (hreceiver : a.receiver = a'.receiver) (hplain : a.plain = a'.plain)
    (h : a.lands s fold = a'.lands s' fold) : SameCode fold a s a' s' := by
  have hplace : a.place s fold = a'.place s' fold := by
    rw [place_eq_lands, place_eq_lands, h, hplain]
  refine ⟨?_, ?_, hplace, fun use => ?_⟩
  · rw [read_eq_lands, read_eq_lands, h, hreceiver]
  · rw [isLength_eq_lands, isLength_eq_lands, h]
  · rw [Access.delete, Access.delete, hplace]

end Access

/-- The type of the index of an access, if it has one, is stored. -/
def AccessKey.Stored (s : TypeStore) : AccessKey → Prop
  | .named _ => True
  | .element _ type => s.Has type

theorem Access.home_congr {base s s' : TypeStore} (hb : base.WellFormed) (he : base.Extends s)
    (he' : base.Extends s') {key : AccessKey} (hk : key.Stored base) (ownLength fold : Bool)
    (receiver : Code) :
    home ownLength s.isStringLike fold receiver key =
      home ownLength s'.isStringLike fold receiver key := by
  cases key with
  | named name => rfl
  | element index type =>
    have htype : s.isStringLike type = s'.isStringLike type := by
      rw [he.isStringLike hb hk, he'.isStringLike hb hk]
    cases index with
    | string name => rfl
    | _ => simp only [home, htype]

section Views

variable {base s s' : TypeStore} {key : AccessKey}

/-- Through any two array-like types that both declare a member `length` or both do not, an access with
the same key is lowered to the same code, for either setting of `fold`. Through any two types that are
not array-like it is lowered to the same code too, at the place that it reads as. The types may be
looked at at different times, as long as that of the index is stored before. -/
theorem views_agree (hb : base.WellFormed) (he : base.Extends s) (he' : base.Extends s')
    (hk : key.Stored base) (t t' : TypeId) (receiver : Code) (fold : Bool) :
    let o := Access.ofType receiver key t s
    let o' := Access.ofType receiver key t' s'
    (o.1.shape.isArrayLike → o'.1.shape.isArrayLike →
      (o.1.shape.member? "length").isSome = (o'.1.shape.member? "length").isSome →
      Access.SameCode fold o.1 o.2 o'.1 o'.2) ∧
    (o.1.shape.isArrayLike = false → o'.1.shape.isArrayLike = false →
      Access.SameCode fold o.1 o.2 o'.1 o'.2 ∧
        o.1.read o.2 fold = o.1.plain.code ∧ o.1.place o.2 fold = o.1.plain) := by
  intro o o'
  have hlater : base.Extends o.2 := he.trans (shapeOf_onlyAdds t s)
  have hlater' : base.Extends o'.2 := he'.trans (shapeOf_onlyAdds t' s')
  constructor
  · intro ha ha' hlength
    refine .of_lands rfl rfl ?_
    calc
      o.1.lands o.2 fold = Access.home _ o.2.isStringLike fold receiver key :=
        Access.lands_eq_home ha
      _ = Access.home _ o'.2.isStringLike fold receiver key := by
        rw [hlength, Access.home_congr hb hlater hlater' hk]
      _ = o'.1.lands o'.2 fold := (Access.lands_eq_home ha').symm
  · intro ha ha'
    have hland : o.1.lands o.2 fold = .place o.1.plain := Access.lands_plain ha
    have hland' : o'.1.lands o'.2 fold = .place o'.1.plain := Access.lands_plain ha'
    exact ⟨.of_lands rfl rfl (hland.trans hland'.symm), Access.plain_of_isArrayLike ha o.2 fold⟩

/-- `number[] | string[]`, `interface Label extends Array<string> { tag: number }` and
`T extends Label`. -/
def viewStore : TypeStore :=
  ⟨initial.types ++
    #[.array .number, .array .string, .union [⟨7⟩, ⟨8⟩],
      .interface "Label" [⟨8⟩] [{ name := "tag", type := .number }], .parameter "T" (some ⟨10⟩)]⟩

theorem viewStore_wellFormed : viewStore.WellFormed :=
  wellFormed_of_mentions ⟨_, rfl⟩ (by decide)

/-- A slot is seen through the union, which stores the type of its slots, as through the parameter; what
is no array has no slots. -/
theorem views_agree_of_label :
    let seen (t : TypeId) := Access.ofType (.name "v") (.element (.name "i") .number) t viewStore
    (seen ⟨9⟩).2.size = viewStore.size + 1 ∧
      Access.SameCode true (seen ⟨9⟩).1 (seen ⟨9⟩).2 (seen ⟨11⟩).1 (seen ⟨11⟩).2 ∧
      (seen ⟨11⟩).1.place (seen ⟨11⟩).2 true =
        .entry (.name "v") (.binary (.name "i") .add (.integer 1)) ∧
      (seen .string).1.place (seen .string).2 true = .entry (.name "v") (.name "i") := by
  intro seen
  have hnumber : viewStore.Has .number := by decide
  have hkey : (AccessKey.element (.name "i") .number).Stored viewStore := hnumber
  obtain ⟨harrays, -⟩ := views_agree viewStore_wellFormed (.refl _) (.refl _) hkey ⟨9⟩ ⟨11⟩
    (.name "v") true
  obtain ⟨-, hothers⟩ := views_agree viewStore_wellFormed (.refl _) (.refl _) hkey .string .boolean
    (.name "v") true
  obtain ⟨-, -, hplain⟩ := hothers (by rfl) (by rfl)
  exact ⟨by decide +kernel, harrays (by rfl) (by rfl) (by rfl), rfl, hplain⟩

end Views

end ScriptToLua.Lowering
