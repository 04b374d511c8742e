import Mathlib
import ScriptToLua.Proofs.Types.Additions
import ScriptToLua.Proofs.Types.Elements
import ScriptToLua.Proofs.Types.Renaming

/-!
What a type has under a name. Own properties come before inherited ones and later declarations before
earlier ones, and a union has only what all its members have: `shapeOf_member?`.
-/

namespace ScriptToLua

open TypeStore

/-- The last property of the name. -/
def lastNamed (properties : List Property) (name : String) : Option Property :=
  properties.findRev? fun p => p.name = name

/-- All shapes are array-like, or all are records. -/
def areAlike (shapes : List Shape) : Bool :=
  shapes.all Shape.isArrayLike || shapes.all Shape.isRecord

namespace TypeData

variable (shape : TypeId → Shape) (name : String)

/-- The property that counts for the name in a type, when the types in it have the given shapes. -/
def member? : TypeData → Option Property
  | object properties => lastNamed properties name
  | interface _ bases properties =>
    (lastNamed properties name).or (bases.findSomeRev? fun b => (shape b).member? name)
  | intersection members => members.findSomeRev? fun m => (shape m).member? name
  | union members =>
    if areAlike (members.map shape) && members.all fun m => ((shape m).member? name).isSome then
      members.head?.bind fun m => (shape m).member? name
    else none
  | parameter _ (some c) => (shape c).member? name
  | _ => none

/-- Some property of the type has the name. In a union all members must have one. -/
def Provides : TypeData → Prop
  | object properties => ∃ p ∈ properties, p.name = name
  | interface _ bases properties =>
    (∃ p ∈ properties, p.name = name) ∨ ∃ b ∈ bases, ((shape b).member? name).isSome
  | intersection members => ∃ m ∈ members, ((shape m).member? name).isSome
  | union members =>
    members ≠ [] ∧ areAlike (members.map shape) ∧ ∀ m ∈ members, ((shape m).member? name).isSome
  | parameter _ (some c) => ((shape c).member? name).isSome
  | _ => False

end TypeData

section Lookups

variable {properties : List Property} {shapes : List Shape} {name : String} {p : Property}

theorem lastNamed_name (h : lastNamed properties name = some p) : p.name = name := by
  rw [lastNamed, List.findRev?_eq_find?_reverse] at h
  simpa using List.find?_some h

theorem lastNamed_isSome :
    (lastNamed properties name).isSome ↔ ∃ p ∈ properties, p.name = name := by
  rw [lastNamed, List.findRev?_eq_find?_reverse, List.find?_isSome]
  simp only [List.mem_reverse, decide_eq_true_eq]

theorem findSomeRev?_isSome {α β : Type} {f : α → Option β} {l : List α} :
    (l.findSomeRev? f).isSome ↔ ∃ a ∈ l, (f a).isSome := by
  rw [List.findSomeRev?_eq_findSome?_reverse, List.findSome?_isSome_iff]
  simp only [List.mem_reverse]

/-- What is found was found at some element, and at none after it. -/
theorem exists_of_findSomeRev? {α β : Type} {f : α → Option β} {l : List α} {b : β}
    (h : l.findSomeRev? f = some b) :
    ∃ before a after, l = before ++ a :: after ∧ f a = some b ∧ ∀ x ∈ after, f x = none := by
  rw [List.findSomeRev?_eq_findSome?_reverse, List.findSome?_eq_some_iff] at h
  obtain ⟨after, a, before, hl, ha, hafter⟩ := h
  refine ⟨before.reverse, a, after.reverse, ?_, ha, fun x hx => hafter x (List.mem_reverse.1 hx)⟩
  rw [← List.reverse_inj, hl]
  simp

theorem findSomeRev?_map {α β γ : Type} (f : β → Option γ) (g : α → β) (l : List α) :
    (l.map g).findSomeRev? f = l.findSomeRev? fun a => f (g a) := by
  rw [List.findSomeRev?_eq_findSome?_reverse, List.findSomeRev?_eq_findSome?_reverse,
    ← List.map_reverse, List.findSome?_map]
  rfl

/-- A later property overwrites an earlier one of its name. -/
theorem declared_get? (properties : List Property) (name : String) :
    (declared properties).get? name = lastNamed properties name := by
  induction properties using List.reverseRecOn with
  | nil => rfl
  | append_singleton properties p ih =>
    have hinsert : declared (properties ++ [p]) = (declared properties).insert p.name p := by
      simp [declared, OrderedMap.ofList, OrderedMap.insertAll]
    rw [hinsert, OrderedMap.get?_insert, ih, lastNamed, lastNamed, List.findRev?_eq_find?_reverse,
      List.findRev?_eq_find?_reverse, List.reverse_append, List.reverse_singleton,
      List.singleton_append, List.find?_cons]
    by_cases hp : p.name = name
    · simp [hp]
    · simp [hp]

/-- A later shape overwrites what an earlier one has. -/
theorem inherited_get? (shapes : List Shape) (name : String) :
    (inherited shapes).get? name = shapes.findSomeRev? fun shape => shape.member? name := by
  induction shapes using List.reverseRecOn with
  | nil => rfl
  | append_singleton shapes shape ih =>
    rw [inherited_append, OrderedMap.get?_insertAll_entries, ih, List.findSomeRev?_eq_findSome?_reverse,
      List.findSomeRev?_eq_findSome?_reverse, List.reverse_append, List.reverse_singleton,
      List.findSome?_append, List.findSome?_singleton]
    rfl

theorem common_get? (shapes : List Shape) (name : String) :
    (common shapes).get? name =
      if shapes.all fun shape => (shape.member? name).isSome then
        shapes.head?.bind fun shape => shape.member? name
      else none := by
  cases shapes with
  | nil => rfl
  | cons first rest =>
    rw [common, OrderedMap.get?_filter, List.all_cons, List.head?_cons, Option.bind_some]
    cases hfirst : first.member? name with
    | some p =>
      have hget : first.members.get? name = some p := hfirst
      rw [hget, Option.isSome_some, Bool.true_and]
    | none =>
      have hget : first.members.get? name = none := hfirst
      rw [hget, ite_self, ite_self]

variable (s : TypeStore)

theorem unionShape_member? (shapes : List Shape) (name : String) :
    (unionShape shapes s).1.member? name =
      if areAlike shapes then (common shapes).get? name else none := by
  unfold unionShape areAlike
  cases shapes.all Shape.isArrayLike with
  | true =>
    change (Shape.arrayWith _ (common shapes)).members.get? name = _
    rw [arrayWith_members]
    rfl
  | false =>
    cases shapes.all Shape.isRecord with
    | true => rfl
    | false => rfl

/-- Slots do not matter for the members. -/
theorem slots_member? {none : TypeM Shape} {members : Members}
    (hnone : shapes.filterMap Shape.element? = [] → (none s).1.member? name = members.get? name) :
    ((match shapes.filterMap Shape.element? with
      | [] => none
      | elements => do
        let element ← joinElements elements
        return .arrayWith element members) s).1.member? name = members.get? name := by
  cases hes : shapes.filterMap Shape.element? with
  | nil => exact hnone hes
  | cons e es =>
    change (Shape.arrayWith _ members).members.get? name = _
    rw [arrayWith_members]

/-- Shapes that are neither array-like nor records have no members. -/
theorem inherited_get?_of_others (ha : shapes.filterMap Shape.element? = [])
    (hr : shapes.any Shape.isRecord = false) (name : String) : (inherited shapes).get? name = none := by
  rw [inherited_get?, ← Option.not_isSome_iff_eq_none, findSomeRev?_isSome]
  rintro ⟨shape, hshape, hsome⟩
  have helement := List.filterMap_eq_nil_iff.1 ha shape hshape
  have hrecord := List.any_eq_false.1 hr shape hshape
  cases shape with
  | array e => cases hsome
  | record members => exact hrecord rfl
  | hybrid e members => cases helement
  | other => cases hsome

theorem intersectionShape_member? (shapes : List Shape) (name : String) :
    (intersectionShape shapes s).1.member? name = (inherited shapes).get? name := by
  refine slots_member? s fun ha => ?_
  change (if shapes.any Shape.isRecord then Shape.record (inherited shapes) else Shape.other).member?
    name = _
  cases hr : shapes.any Shape.isRecord with
  | true => rfl
  | false => exact (inherited_get?_of_others ha hr name).symm

theorem interfaceShape_member? (shapes : List Shape) (properties : List Property) (name : String) :
    (interfaceShape shapes properties s).1.member? name =
      (lastNamed properties name).or ((inherited shapes).get? name) := by
  rw [← declared_get?, ← OrderedMap.get?_insertAll_entries]
  exact slots_member? s fun _ => rfl

end Lookups

section Nesting

variable {s : TypeStore} {d : TypeData} {n k : Nat} {t : TypeId} {ts : List TypeId}

theorem shapeFrom_sameFrom {shape shape' : TypeId → TypeM Shape}
    (h : ∀ u ∈ d.parts, SameFrom s (shape u) (shape' u)) :
    SameFrom s (d.shapeFrom shape) (d.shapeFrom shape') := by
  cases d with
  | tuple elements =>
    cases elements with
    | nil => exact .pure _
    | cons e es => exact .of_onlyAdds ((unionOf_interns _).bind fun _ => .pure _).onlyAdds
  | union members =>
    exact (SameFrom.mapM h).bind fun _ _ => .of_onlyAdds (unionShape_interns _).onlyAdds
  | intersection members =>
    exact (SameFrom.mapM h).bind fun _ _ => .of_onlyAdds (intersectionShape_interns _).onlyAdds
  | interface name bases properties =>
    exact (SameFrom.mapM h).bind fun _ _ => .of_onlyAdds (interfaceShape_interns _ _).onlyAdds
  | parameter name constraint =>
    cases constraint with
    | none => exact .pure _
    | some c => exact h c List.mem_cons_self
  | _ => exact .pure _

/-- To look deeper than types are nested changes nothing. -/
theorem shapeAt_sameFrom (hs : s.WellFormed) (ht : s.Has t) (hn : s.nestsWithin n t) (hle : n ≤ k) :
    SameFrom s (shapeAt n t) (shapeAt k t) := by
  induction n generalizing k t with
  | zero => cases hn
  | succ n ih =>
    obtain ⟨k, rfl⟩ : ∃ m, k = m + 1 := ⟨k - 1, by omega⟩
    intro σ hσ
    obtain ⟨d, hd⟩ : ∃ d, s.get? t = some d := ⟨_, Array.getElem?_eq_getElem ht⟩
    have hσd : σ.get? t = some d := (hσ.get? ht).trans hd
    rw [shapeAt_of_get? n hσd, shapeAt_of_get? k hσd]
    refine shapeFrom_sameFrom (fun u hu => ?_) σ hσ
    exact ih (hs.parts_has hd u hu) (nestsWithin_parts hn hd u hu) (Nat.le_of_succ_le_succ hle)

/-- The types in a type have, one after another, the outlines that they have by themselves. -/
theorem mapM_parts_outline (hs : s.WellFormed) (hd : s.get? t = some d)
    (hn : s.nestsWithin maxShapeDepth t) :
    (d.parts.mapM (shapeAt 63) s).1.map Shape.outline =
      (d.parts.map fun u => (shapeOf u s).1).map Shape.outline := by
  have hparts := hs.parts_has hd
  rw [mapM_shapeAt_outline 63 hs hparts, List.map_map]
  refine List.map_congr_left fun u hu => ?_
  have hsame := shapeAt_sameFrom hs (hparts u hu) (nestsWithin_parts (n := 63) hn hd u hu) (Nat.le_succ 63)
  exact congrArg (fun r => r.1.outline) (hsame s (.refl s)).1.symm

theorem areAlike_eq {shapes shapes' : List Shape} (h : shapes.map Shape.outline = shapes'.map Shape.outline) :
    areAlike shapes = areAlike shapes' := by
  rw [areAlike, areAlike, all_outline Shape.outline_isArrayLike h, all_outline Shape.outline_isRecord h]

/-- What a type has under a name depends on what the types in it have. -/
theorem shapeFrom_member? (shape : TypeId → Shape) {act : TypeId → TypeM Shape}
    (h : (d.parts.mapM act s).1.map Shape.outline = (d.parts.map shape).map Shape.outline)
    (name : String) : (d.shapeFrom act s).1.member? name = d.member? shape name := by
  cases d with
  | tuple elements => cases elements <;> rfl
  | object properties => exact declared_get? properties name
  | union members =>
    change (members.mapM act s).1.map _ = (members.map shape).map _ at h
    change (unionShape (members.mapM act s).1 _).1.member? name = _
    rw [unionShape_member?, areAlike_eq h, common_eq h, common_get?, TypeData.member?, List.all_map,
      List.head?_map, Option.bind_map]
    cases areAlike (members.map shape) with
    | true => rfl
    | false => rfl
  | intersection members =>
    change (members.mapM act s).1.map _ = (members.map shape).map _ at h
    change (intersectionShape (members.mapM act s).1 _).1.member? name = _
    rw [intersectionShape_member?, inherited_eq h, inherited_get?, findSomeRev?_map]
    rfl
  | interface iname bases properties =>
    change (bases.mapM act s).1.map _ = (bases.map shape).map _ at h
    change (interfaceShape (bases.mapM act s).1 properties _).1.member? name = _
    rw [interfaceShape_member?, inherited_eq h, inherited_get?, findSomeRev?_map]
    rfl
  | parameter pname constraint =>
    cases constraint with
    | none => rfl
    | some c =>
      have hc : (act c s).1.outline = (shape c).outline := (List.cons.inj h).1
      exact Shape.member?_of_outline hc name
  | _ => rfl

/-- A type that has a property for a name has one just where it provides the name. -/
theorem TypeData.member?_isSome (shape : TypeId → Shape) (name : String) :
    (d.member? shape name).isSome ↔ d.Provides shape name := by
  cases d with
  | object properties => exact lastNamed_isSome
  | interface iname bases properties =>
    rw [TypeData.member?, Option.isSome_or, Bool.or_eq_true, lastNamed_isSome, findSomeRev?_isSome]
    rfl
  | intersection members => exact findSomeRev?_isSome
  | union members =>
    rw [TypeData.member?, TypeData.Provides]
    cases members with
    | nil => simp
    | cons m ms =>
      cases areAlike ((m :: ms).map shape) with
      | false => simp
      | true =>
        rw [Bool.true_and]
        cases hall : (m :: ms).all fun m => ((shape m).member? name).isSome with
        | true =>
          have hm := List.all_eq_true.1 hall
          exact iff_of_true (hm m List.mem_cons_self) ⟨nofun, rfl, hm⟩
        | false =>
          refine iff_of_false Bool.false_ne_true fun ⟨_, _, hm⟩ => ?_
          rw [List.all_eq_true.2 hm] at hall
          cases hall
  | parameter pname constraint =>
    cases constraint with
    | none => exact iff_of_false Bool.false_ne_true id
    | some c => exact Iff.rfl
  | _ => exact iff_of_false Bool.false_ne_true id

/-- A property found under a name has that name if those of the types in the type do. -/
theorem TypeData.member?_name {shape : TypeId → Shape} {name : String} {p : Property}
    (h : ∀ u ∈ d.parts, (shape u).member? name = some p → p.name = name)
    (hp : d.member? shape name = some p) : p.name = name := by
  cases d with
  | object properties => exact lastNamed_name hp
  | interface iname bases properties =>
    rcases Option.or_eq_some_iff.1 hp with hp | ⟨-, hp⟩
    · exact lastNamed_name hp
    · obtain ⟨before, b, after, rfl, hp, -⟩ := exists_of_findSomeRev? hp
      exact h b (List.mem_append_right before List.mem_cons_self) hp
  | intersection members =>
    obtain ⟨before, m, after, rfl, hp, -⟩ := exists_of_findSomeRev? hp
    exact h m (List.mem_append_right before List.mem_cons_self) hp
  | union members =>
    rw [TypeData.member?] at hp
    split at hp
    · obtain ⟨m, hm, hp⟩ := Option.bind_eq_some_iff.1 hp
      exact h m (List.mem_of_head? hm) hp
    · cases hp
  | parameter pname constraint =>
    cases constraint with
    | none => cases hp
    | some c => exact h c List.mem_cons_self hp
  | _ => cases hp

theorem shapeAt_member? (n : Nat) (hs : s.WellFormed) (hd : s.get? t = some d) (name : String) :
    (shapeAt (n + 1) t s).1.member? name = d.member? (fun u => (shapeAt n u s).1) name := by
  rw [shapeAt_of_get? n hd]
  apply shapeFrom_member?
  rw [mapM_shapeAt_outline n hs (hs.parts_has hd), List.map_map]
  rfl

theorem shapeAt_member?_name (hs : s.WellFormed) {name : String} {p : Property}
    (h : (shapeAt n t s).1.member? name = some p) : p.name = name := by
  induction n generalizing t with
  | zero => cases h
  | succ n ih =>
    cases hd : s.get? t with
    | none =>
      rw [shapeAt_of_none _ hd] at h
      cases h
    | some d =>
      rw [shapeAt_member? n hs hd] at h
      exact TypeData.member?_name (fun u _ hu => ih hu) h

end Nesting

/-- What a type has under a name is decided by what it declares and by what the types in it have: an
object has the last property of the name; an interface its own last one, else that of the last base that
has one; an intersection that of the last member that has one; a union of array-like types, or of
records, that of the first member if all have one; a parameter that of its constraint. Nothing that is
provided is lost, and what is found has the name. -/
theorem shapeOf_member? {s : TypeStore} {t : TypeId} {d : TypeData} (hs : s.WellFormed)
    (hd : s.get? t = some d) (hn : s.nestsWithin maxShapeDepth t) (name : String) :
    (shapeOf t s).1.member? name = d.member? (fun u => (shapeOf u s).1) name ∧
      (∀ p, (shapeOf t s).1.member? name = some p → p.name = name) ∧
      (((shapeOf t s).1.member? name).isSome ↔ d.Provides (fun u => (shapeOf u s).1) name) := by
  have hrun : shapeOf t s = d.shapeFrom (shapeAt 63) s := shapeAt_of_get? 63 hd
  have hmember : (shapeOf t s).1.member? name = d.member? (fun u => (shapeOf u s).1) name := by
    rw [hrun]
    exact shapeFrom_member? _ (mapM_parts_outline hs hd hn) name
  refine ⟨hmember, fun p hp => shapeAt_member?_name hs hp, ?_⟩
  rw [hmember]
  exact TypeData.member?_isSome _ name

/-- `A = { x: number, x: string }`, `B = { x: boolean, y: number }`, `C = A & number[] & B`,
`interface I extends C, A { y: string }` and the union of `I` and `C`. -/
def overriddenStore : TypeStore :=
  let a : TypeData := .object [{ name := "x", type := .number }, { name := "x", type := .string }]
  let b : TypeData := .object [{ name := "x", type := .boolean }, { name := "y", type := .number }]
  ⟨TypeStore.initial.types ++
    #[a, .array .number, b, .intersection [⟨7⟩, ⟨8⟩, ⟨9⟩],
      .interface "I" [⟨10⟩, ⟨7⟩] [{ name := "y", type := .string }], .union [⟨11⟩, ⟨10⟩]]⟩

theorem overriddenStore_wellFormed : overriddenStore.WellFormed :=
  wellFormed_of_mentions ⟨_, rfl⟩ (by decide)

/-- The first member of the union has `x` from its last base, whose last `x` counts. -/
theorem shapeOf_member?_of_overridden :
    overriddenStore.WellFormed ∧ overriddenStore.get? ⟨12⟩ = some (.union [⟨11⟩, ⟨10⟩]) ∧
      overriddenStore.nestsWithin maxShapeDepth ⟨12⟩ ∧
      (shapeOf ⟨12⟩ overriddenStore).1.member? "x" = some { name := "x", type := .string } ∧
      (shapeOf ⟨12⟩ overriddenStore).1.member? "x" =
        (TypeData.union [⟨11⟩, ⟨10⟩]).member? (fun u => (shapeOf u overriddenStore).1) "x" ∧
      (∀ p, (shapeOf ⟨12⟩ overriddenStore).1.member? "x" = some p → p.name = "x") ∧
      (((shapeOf ⟨12⟩ overriddenStore).1.member? "x").isSome ↔
        (TypeData.union [⟨11⟩, ⟨10⟩]).Provides (fun u => (shapeOf u overriddenStore).1) "x") := by
  have hd : overriddenStore.get? ⟨12⟩ = some (.union [⟨11⟩, ⟨10⟩]) := by decide +kernel
  have hn : overriddenStore.nestsWithin maxShapeDepth ⟨12⟩ := by decide +kernel
  have hx : (shapeOf ⟨12⟩ overriddenStore).1.member? "x" = some { name := "x", type := .string } := by
    decide +kernel
  exact ⟨overriddenStore_wellFormed, hd, hn, hx, shapeOf_member? overriddenStore_wellFormed hd hn "x"⟩

end ScriptToLua
