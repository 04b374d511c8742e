import Mathlib
import ScriptToLua.Lowering.Access
import ScriptToLua.Proofs.Types.ArrayLike
import ScriptToLua.Proofs.Types.Recursion

/-!
A type is at most one of three: all strings, all numbers, or array-like, `indexKinds_exclusive`. What is
all strings, or all numbers, has a leaf that is one, and being array-like would go down to that leaf.
-/

namespace ScriptToLua

open Lowering (Access AccessKey)
open Relation (ReflTransGen)
open TypeStore

variable {p : TypeData → Bool} {s : TypeStore} {t u : TypeId} {room n : Nat}

/-- A search with the answer yes has come to a leaf with `p`. -/
theorem exists_leaf_of_madeOfAt (h : madeOfAt p s room t = some true) :
    ∃ u d, ReflTransGen (Asks p s) t u ∧ s.get? u = some d ∧ p d := by
  induction room generalizing t with
  | zero => cases h
  | succ room ih =>
    have hstep {u : TypeId} (ha : Asks p s t u) (hu : madeOfAt p s room u = some true) :
        ∃ u d, ReflTransGen (Asks p s) t u ∧ s.get? u = some d ∧ p d := by
      obtain ⟨v, d, hr, hd, hp⟩ := ih hu
      exact ⟨v, d, hr.head ha, hd, hp⟩
    cases hd : s.get? t with
    | none =>
      rw [madeOfAt, hd] at h
      cases h
    | some d =>
      rw [madeOfAt, hd] at h
      have hleaf (hp : some (p d) = some true) :
          ∃ u d, ReflTransGen (Asks p s) t u ∧ s.get? u = some d ∧ p d :=
        ⟨t, d, .refl, hd, Option.some.inj hp⟩
      cases d with
      | union members =>
        cases members with
        -- The empty union has no leaf, and is not made of anything.
        | nil => cases h
        | cons m members =>
          have hfirst : s.get? t = some (.union ([] ++ m :: members)) := hd
          exact hstep (.member hfirst (List.forall_mem_nil _)) (allM_head h)
      | parameter name constraint =>
        cases constraint with
        | none => exact hleaf h
        | some c => exact hstep (.constraint hd) h
      | _ => exact hleaf h

/-- All that the search comes to is array-like where it starts with an array-like type. -/
theorem ArrayLikeWithin.asks (h : ArrayLikeWithin s n t) (ha : Asks p s t u) :
    ∃ n, ArrayLikeWithin s n u := by
  cases n with
  | zero => cases h
  | succ n =>
    cases ha with
    | member hd _ => exact ⟨n, h.rule hd u (List.mem_append_right _ List.mem_cons_self)⟩
    | constraint hd => exact ⟨n, h.rule hd⟩

theorem ArrayLikeWithin.reaches (h : ArrayLikeWithin s n t) (hr : ReflTransGen (Asks p s) t u) :
    ∃ n, ArrayLikeWithin s n u := by
  induction hr with
  | refl => exact ⟨n, h⟩
  | tail _ ha ih =>
    obtain ⟨n, hn⟩ := ih
    exact hn.asks ha

/-- Nothing made of leaves that do not index like arrays does so itself. -/
theorem not_arrayLikeWithin_of_madeOf (hp : ∀ d P, p d → ¬ d.AsksOf P) (h : madeOf p s t) :
    ¬ ArrayLikeWithin s n t := by
  intro ha
  obtain ⟨u, d, hr, hd, hpd⟩ := exists_leaf_of_madeOfAt (madeOfAt_of_madeOf h)
  obtain ⟨m, hm⟩ := ha.reaches hr
  cases m with
  | zero => cases hm
  | succ m => exact hp d _ hpd (hm.rule hd)

theorem not_asksOf_of_isString (d : TypeData) (P : TypeId → Prop) (h : d.isString) : ¬ d.AsksOf P := by
  cases d with
  | intrinsic kind => exact id
  | stringLiteral value => exact id
  | _ => cases h

theorem not_asksOf_of_isNumber (d : TypeData) (P : TypeId → Prop) (h : d.isNumber) : ¬ d.AsksOf P := by
  cases d with
  | intrinsic kind => exact id
  | numberLiteral text => exact id
  | _ => cases h

/-- Strings and numbers are not array-like, whatever room there is for the shape. -/
theorem shapeAt_isArrayLike_of_primitive (hs : s.WellFormed)
    (h : s.isStringLike t ∨ s.isNumberLike t) : (shapeAt room t s).1.isArrayLike = false := by
  rw [Bool.eq_false_iff]
  intro ha
  have hwithin := (shapeAt_isArrayLike hs room t).1 ha
  rcases h with h | h
  · exact not_arrayLikeWithin_of_madeOf not_asksOf_of_isString h hwithin
  · exact not_arrayLikeWithin_of_madeOf not_asksOf_of_isNumber h hwithin

/-- An access to what is not array-like stays as it reads in the source. -/
theorem Lowering.Access.plain_of_isArrayLike {a : Access} (h : a.shape.isArrayLike = false)
    (s : TypeStore) (fold : Bool) : a.read s fold = a.plain.code ∧ a.place s fold = a.plain := by
  have hland : a.landing? s fold = none := by
    rw [Access.landing?, h]
    rfl
  have hread : a.read? s fold = none := Option.map_eq_none_iff.2 hland
  have hplace : a.place? s fold = none := by rw [Access.place?, hland]
  rw [Access.read, Access.place, hread, hplace]
  exact ⟨rfl, rfl⟩

/-- Where types mention only types that were stored before them, both searches end for every type, and
at most one of three holds: it is all strings, it is all numbers, or its shape is array-like. So no
access to a string or a number is moved to a slot: it is read and written at the key as it is given. -/
theorem indexKinds_exclusive (hi : initial.Extends s) (hb : s.LooksBack) (t : TypeId) :
    (¬ IsUnending TypeData.isString s t ∧ ¬ IsUnending TypeData.isNumber s t) ∧
      [s.isStringLike t, s.isNumberLike t, (shapeOf t s).1.isArrayLike].count true ≤ 1 ∧
      (s.isStringLike t ∨ s.isNumberLike t → ∀ receiver key later fold,
        let a := (Access.ofType receiver key t s).1
        a.read later fold = a.plain.code ∧ a.place later fold = a.plain) := by
  have harray (h : s.isStringLike t ∨ s.isNumberLike t) : (shapeOf t s).1.isArrayLike = false :=
    shapeAt_isArrayLike_of_primitive (hb.wellFormed hi) h
  refine ⟨⟨hb.not_isUnending _ t, hb.not_isUnending _ t⟩, ?_, ?_⟩
  · cases hnumber : s.isNumberLike t with
    | true =>
      rw [isStringLike_of_isNumberLike hnumber, harray (.inr hnumber)]
      rfl
    | false =>
      cases hstring : s.isStringLike t with
      | true =>
        rw [harray (.inl hstring)]
        rfl
      | false => cases (shapeOf t s).1.isArrayLike <;> decide
  · intro h receiver key later fold
    exact Access.plain_of_isArrayLike (harray h) later fold

/-- The parameter `T extends "a" | string`, the union of no types, and the union of that one with
`number[] & string`. -/
def kindsStore : TypeStore :=
  ⟨TypeStore.initial.types ++
    #[.stringLiteral "a", .union [⟨7⟩, .string], .parameter "T" (some ⟨8⟩), .union [], .array .number,
      .intersection [⟨11⟩, .string], .union [⟨10⟩, ⟨12⟩]]⟩

theorem kindsStore_looksBack : kindsStore.LooksBack := looksBack_of_mentions (by decide)

/-- The same access has its index as it is given where the receiver is a string, and one more than
that where it is array-like. -/
theorem indexKinds_exclusive_of_kinds :
    let read (t : TypeId) :=
      (Access.ofType (.name "r") (.element (.number "0") .number) t kindsStore).1.read kindsStore true
    initial.Extends kindsStore ∧ kindsStore.LooksBack ∧
      (kindsStore.isStringLike ⟨9⟩ ∧ read ⟨9⟩ = .index (.name "r") (.number "0")) ∧
      ((shapeOf ⟨13⟩ kindsStore).1.isArrayLike ∧ read ⟨13⟩ = .index (.name "r") (.number "1")) ∧
      [kindsStore.isStringLike ⟨13⟩, kindsStore.isNumberLike ⟨13⟩,
        (shapeOf ⟨13⟩ kindsStore).1.isArrayLike].count true ≤ 1 := by
  have hstring : kindsStore.isStringLike ⟨9⟩ := by decide +kernel
  obtain ⟨-, -, hplain⟩ := indexKinds_exclusive ⟨_, rfl⟩ kindsStore_looksBack ⟨9⟩
  obtain ⟨-, hcount, -⟩ := indexKinds_exclusive ⟨_, rfl⟩ kindsStore_looksBack ⟨13⟩
  exact ⟨⟨_, rfl⟩, kindsStore_looksBack, ⟨hstring, (hplain (.inl hstring) _ _ _ _).1⟩,
    ⟨by decide +kernel, by rfl⟩, hcount⟩

end ScriptToLua
