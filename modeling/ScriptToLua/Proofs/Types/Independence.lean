import Mathlib
import ScriptToLua.Proofs.Types.Members

/-!
What of a shape depends on the order in which types were stored. The order decides which one of several
properties of one name counts, and nothing else: `Constructed.shapeOf_corresponds`.
-/

namespace ScriptToLua

open TypeStore

/-- The property is one that may count for its name in the shape of the type, looked into `n` levels
deep, if the members of groups come in any order. -/
inductive Offers (s : TypeStore) : (n : Nat) → TypeId → Property → Prop
  | object {n : Nat} {t : TypeId} {p : Property} {properties : List Property}
    (h : s.get? t = some (.object properties)) (hp : (declared properties).get? p.name = some p) :
    Offers s (n + 1) t p
  | union {n : Nat} {t m : TypeId} {p : Property} {members : List TypeId}
    (h : s.get? t = some (.union members)) (hm : m ∈ members) (hp : Offers s n m p) :
    Offers s (n + 1) t p
  | intersection {n : Nat} {t m : TypeId} {p : Property} {members : List TypeId}
    (h : s.get? t = some (.intersection members)) (hm : m ∈ members) (hp : Offers s n m p) :
    Offers s (n + 1) t p
  | own {n : Nat} {t : TypeId} {p : Property} {name : String} {bases : List TypeId}
    {properties : List Property} (h : s.get? t = some (.interface name bases properties))
    (hp : (declared properties).get? p.name = some p) : Offers s (n + 1) t p
  | inherited {n : Nat} {t b : TypeId} {p : Property} {name : String} {bases before after : List TypeId}
    {properties : List Property} (h : s.get? t = some (.interface name bases properties))
    (hown : (declared properties).contains p.name = false) (hbases : bases = before ++ b :: after)
    (hlater : ∀ c ∈ after, (shapeAt n c s).1.members.contains p.name = false)
    (hp : Offers s n b p) : Offers s (n + 1) t p
  | parameter {n : Nat} {t c : TypeId} {p : Property} {name : String}
    (h : s.get? t = some (.parameter name (some c))) (hp : Offers s n c p) : Offers s (n + 1) t p

section Offers

variable {s : TypeStore} {n : Nat} {t : TypeId} {name : String} {p : Property}

/-- A member of the shape of a type is one of the properties that the type offers. -/
theorem offers_of_member? (hs : s.WellFormed) (ht : s.Has t)
    (h : (shapeAt n t s).1.member? name = some p) : Offers s n t p ∧ p.name = name := by
  refine ⟨?_, shapeAt_member?_name hs h⟩
  obtain rfl := shapeAt_member?_name hs h
  induction n generalizing t with
  | zero => cases h
  | succ n ih =>
    obtain ⟨d, hd⟩ : ∃ d, s.get? t = some d := ⟨_, Array.getElem?_eq_getElem ht⟩
    have hparts := hs.parts_has hd
    rw [shapeAt_member? n hs hd] at h
    cases d with
    | object properties => exact .object hd ((declared_get? properties p.name).trans h)
    | union members =>
      rw [TypeData.member?] at h
      split at h
      · obtain ⟨m, hm, h⟩ := Option.bind_eq_some_iff.1 h
        have hmem := List.mem_of_head? hm
        exact .union hd hmem (ih (hparts m hmem) h)
      · cases h
    | intersection members =>
      obtain ⟨before, m, after, rfl, h, -⟩ := exists_of_findSomeRev? h
      have hmem : m ∈ before ++ m :: after := List.mem_append_right before List.mem_cons_self
      exact .intersection hd hmem (ih (hparts m hmem) h)
    | interface iname bases properties =>
      rcases Option.or_eq_some_iff.1 h with h | ⟨hown, h⟩
      · exact .own hd ((declared_get? properties p.name).trans h)
      · obtain ⟨before, b, after, rfl, h, hafter⟩ := exists_of_findSomeRev? h
        have hmem : b ∈ before ++ b :: after := List.mem_append_right before List.mem_cons_self
        refine .inherited hd ?_ rfl (fun c hc => ?_) (ih (hparts b hmem) h)
        · rw [OrderedMap.contains, declared_get?, hown]
          rfl
        · exact congrArg Option.isSome (hafter c hc)
    | parameter pname constraint =>
      cases constraint with
      | none => cases h
      | some c => exact .parameter hd (ih (hparts c List.mem_cons_self) h)
    | _ => cases h

end Offers

/-- The type has no two properties that may count for the name. -/
def Unambiguous (s : TypeStore) (t : TypeId) (name : String) : Prop :=
  ∀ p q, Offers s maxShapeDepth t p → Offers s maxShapeDepth t q → p.name = name → q.name = name →
    p = q

/-- The types of slots correspond: one that was stored before to its counterpart, and a union that is
new to a new union with corresponding members. -/
inductive ElementsCorrespond (f : TypeId → TypeId) (base base' s s' : TypeStore) :
    TypeId → TypeId → Prop
  | stored {e : TypeId} (h : base.Has e) : ElementsCorrespond f base base' s s' e (f e)
  | joined {e e' : TypeId} {members members' : List TypeId} (hnew : ¬ base.Has e)
    (hnew' : ¬ base'.Has e') (h : s.get? e = some (.union members))
    (h' : s'.get? e' = some (.union members')) (hold : ∀ m ∈ members, base.Has m)
    (hiff : ∀ u, u ∈ members' ↔ u ∈ members.map f) : ElementsCorrespond f base base' s s' e e'

/-- The members have the same names. Under a name that is not ambiguous they have corresponding data,
and under any name data that the type offers. -/
structure MembersCorrespond (f : TypeId → TypeId) (s : TypeStore) (t : TypeId)
    (members members' : Members) : Prop where
  names : SameNames members members'
  offered : ∀ name p', members'.get? name = some p' →
    ∃ p, Offers s maxShapeDepth t p ∧ p.name = name ∧ p' = p.rename f
  properties : ∀ name, Unambiguous s t name →
    members'.get? name = (members.get? name).map (Property.rename f)

section Independence

variable {f : TypeId → TypeId} {base base' s s' : TypeStore} {t e e' : TypeId}

/-- What joins to stored types only, and is new, is a union of these. -/
theorem TypeStore.Normal.get?_new (hs : s.Normal) (hb : base.WellFormed)
    (hold : ∀ u ∈ s.joined [e], base.Has u) (hnew : ¬ base.Has e) :
    s.get? e = some (.union (s.joined [e])) := by
  by_cases hu : ∃ members, s.get? e = some (.union members)
  · obtain ⟨members, hu⟩ := hu
    rw [hs.joined_union hu, hu]
  · have hne : ∀ members, s.get? e ≠ some (.union members) := fun members h => hu ⟨members, h⟩
    have hnever : e ≠ .never := by
      rintro rfl
      exact hnew (hb.has_intrinsic rfl)
    rw [joined_other hne hnever] at hold
    exact absurd (hold e (List.mem_singleton_self e)) hnew

variable (hc : base.Corresponds f base') (hb : base.Normal) (hb' : base'.Normal)

include hc hb hb'

/-- Properties offered in the second store come from properties offered in the first. -/
theorem offers_back {n : Nat} {t' : TypeId} {p' : Property} (h : Offers base' n t' p')
    (ht : base.Has t) (heq : t' = f t) : ∃ p, Offers base n t p ∧ p' = p.rename f := by
  have hgroup {members members' : List TypeId} {m' : TypeId}
      (hm : ∀ u ∈ members, base.Has u) (hiff : ∀ u, u ∈ members' ↔ u ∈ members.map f)
      (hmem' : m' ∈ members') : ∃ m ∈ members, base.Has m ∧ m' = f m := by
    obtain ⟨m, hmem, rfl⟩ := List.mem_map.1 ((hiff m').1 hmem')
    exact ⟨m, hmem, hm m hmem, rfl⟩
  induction h generalizing t with
  | object h hp =>
    obtain ⟨d, hd, hr⟩ := hc.data_back ht (heq ▸ h)
    cases hr
    rw [declared_rename] at hp
    obtain ⟨p, hp, rfl⟩ := Option.map_eq_some_iff.1 hp
    exact ⟨p, .object hd hp, rfl⟩
  | union h hmem _ ih =>
    obtain ⟨d, hd, hr⟩ := hc.data_back ht (heq ▸ h)
    cases hr with
    | union hiff =>
      obtain ⟨m, hm, hhas, rfl⟩ := hgroup (hb.wellFormed.closed t _ hd) hiff hmem
      obtain ⟨p, hp, rfl⟩ := ih hhas rfl
      exact ⟨p, .union hd hm hp, rfl⟩
  | intersection h hmem _ ih =>
    obtain ⟨d, hd, hr⟩ := hc.data_back ht (heq ▸ h)
    cases hr with
    | intersection hiff =>
      obtain ⟨m, hm, hhas, rfl⟩ := hgroup (hb.wellFormed.closed t _ hd) hiff hmem
      obtain ⟨p, hp, rfl⟩ := ih hhas rfl
      exact ⟨p, .intersection hd hm hp, rfl⟩
  | own h hp =>
    obtain ⟨d, hd, hr⟩ := hc.data_back ht (heq ▸ h)
    cases hr
    rw [declared_rename] at hp
    obtain ⟨p, hp, rfl⟩ := Option.map_eq_some_iff.1 hp
    exact ⟨p, .own hd hp, rfl⟩
  | @inherited n _ _ _ _ _ _ _ _ h hown hbases hlater _ ih =>
    obtain ⟨d, hd, hr⟩ := hc.data_back ht (heq ▸ h)
    cases hr with
    | interface name bases properties =>
      obtain ⟨before, rest, rfl, -, hrest⟩ := List.map_eq_append_iff.1 hbases
      obtain ⟨b, after, rfl, rfl, rfl⟩ := List.map_eq_cons_iff.1 hrest
      have hm : ∀ u ∈ before ++ b :: after, base.Has u := fun u hu =>
        hb.wellFormed.closed t _ hd u (List.mem_append_left _ hu)
      obtain ⟨p, hp, rfl⟩ := ih (hm b (List.mem_append_right _ List.mem_cons_self)) rfl
      rw [← declared_sameNames] at hown
      refine ⟨p, .inherited hd hown rfl (fun c hcm => ?_) hp, rfl⟩
      have hhas := hm c (List.mem_append_right _ (List.mem_cons_of_mem b hcm))
      have hmatch := shapeAt_matches hc hb hb' n ⟨hb, .refl base⟩ ⟨hb', .refl base'⟩ hhas
      exact (Shape.Matches.sameNames hmatch p.name).trans
        (hlater (f c) (List.mem_map_of_mem hcm))
  | parameter h _ ih =>
    obtain ⟨d, hd, hr⟩ := hc.data_back ht (heq ▸ h)
    generalize hconstraint : some _ = constraint at hr
    cases hr with
    | parameter name constraint =>
      obtain ⟨c, rfl, rfl⟩ := Option.map_eq_some_iff.1 hconstraint.symm
      obtain ⟨p, hp, rfl⟩ := ih (hb.wellFormed.closed t _ hd c List.mem_cons_self) rfl
      exact ⟨p, .parameter hd hp, rfl⟩

/-- A member of the shape in the second store corresponds to a property that the type offers. -/
theorem offers_of_member?_rename {name : String} {p' : Property} (ht : base.Has t)
    (h : (shapeOf (f t) base').1.member? name = some p') :
    ∃ p, Offers base maxShapeDepth t p ∧ p.name = name ∧ p' = p.rename f := by
  obtain ⟨hoffers, hname⟩ := offers_of_member? hb'.wellFormed (hc.has ht) h
  obtain ⟨p, hp, rfl⟩ := offers_back hc hb hb' hoffers ht rfl
  exact ⟨p, hp, hname, rfl⟩

/-- Under a name that is not ambiguous the shapes have corresponding data. -/
theorem member?_rename {name : String} (ht : base.Has t) (hu : Unambiguous base t name) :
    (shapeOf (f t) base').1.member? name = ((shapeOf t base).1.member? name).map (Property.rename f) := by
  have hmatch := shapeAt_matches hc hb hb' maxShapeDepth ⟨hb, .refl base⟩ ⟨hb', .refl base'⟩ ht
  have hsame : ((shapeOf t base).1.member? name).isSome = ((shapeOf (f t) base').1.member? name).isSome :=
    Shape.Matches.sameNames hmatch name
  cases hp : (shapeOf t base).1.member? name with
  | none =>
    rw [hp] at hsame
    exact Option.isNone_iff_eq_none.1 (Option.isSome_eq_false_iff.1 hsame.symm)
  | some p =>
    rw [hp] at hsame
    obtain ⟨p', hp'⟩ := Option.isSome_iff_exists.1 hsame.symm
    obtain ⟨hoffers, hname⟩ := offers_of_member? hb.wellFormed ht hp
    obtain ⟨q, hq, hname', rfl⟩ := offers_of_member?_rename hc hb hb' ht hp'
    rw [hp', hu p q hoffers hq hname hname']
    rfl

/-- Types of slots that match correspond. -/
theorem SlotsMatch.elementsCorrespond (hs : base.Grown s) (hs' : base'.Grown s')
    (h : SlotsMatch f base s s' e e') : ElementsCorrespond f base base' s s' e e' := by
  have hof {u : TypeId} (hu : base.Has u) : SlotsMatch f base s s' u (f u) :=
    .of_has hc hb hb' hs.extends_ hs'.extends_ hu
  by_cases he : base.Has e
  · obtain rfl := h.right_unique hs'.normal (hof he)
    exact .stored he
  · have he' : ¬ base'.Has e' := by
      intro hhas
      obtain ⟨u, hu, rfl⟩ := hc.bijective.surjOn hhas
      exact he (h.left_unique hc.bijective.injOn hs.normal (hof hu) ▸ hu)
    have hold' : ∀ u ∈ s'.joined [e'], base'.Has u := by
      intro u hu
      obtain ⟨v, hv, rfl⟩ := List.mem_map.1 ((h.joined u).1 hu)
      exact hc.has (h.old v hv)
    exact .joined he he' (hs.normal.get?_new hb.wellFormed h.old he)
      (hs'.normal.get?_new hb'.wellFormed hold' he') h.old h.joined

end Independence

/-- Shapes of corresponding types are of one kind, the types of their slots correspond, and so do their
members, except for the data of a name for which several properties may count. -/
theorem Constructed.shapeOf_corresponds {f : TypeId → TypeId} {s s' : TypeStore} (hs : Constructed s)
    (hs' : Constructed s') (hc : s.Corresponds f s') {t : TypeId} (ht : s.Has t) :
    (shapeOf t s).1.Matches
      (ElementsCorrespond f s s' (shapeOf t s).2 (shapeOf (f t) s').2) (MembersCorrespond f s t)
      (shapeOf (f t) s').1 := by
  have hb := hs.normal
  have hb' := hs'.normal
  have hgrown := shapeAt_grown maxShapeDepth hb ht
  have hgrown' := shapeAt_grown maxShapeDepth hb' (hc.has ht)
  have hmatch := shapeAt_matches hc hb hb' maxShapeDepth ⟨hb, .refl s⟩ ⟨hb', .refl s'⟩ ht
  refine Shape.Matches.imp hmatch (fun e e' _ h => ?_) fun hnames =>
    ⟨hnames, fun name p' h => ?_, fun name hu => ?_⟩
  · exact h.elementsCorrespond hc hb hb' hgrown hgrown'
  · exact offers_of_member?_rename hc hb hb' ht h
  · exact member?_rename hc hb hb' ht hu

/-- `{ foo(): number } & { foo: () => number } & number[] & string[]`, stored last. The two objects and
the two arrays are stored in this or in the other order. -/
def mergedStore (asWritten : Bool) : TypeStore :=
  let foo (isMethod : Bool) : TypeData := .object [{ name := "foo", type := ⟨7⟩, isMethod }]
  let s := (intern (.function [] .number) initial).2
  let s := (intern (foo asWritten) s).2
  let s := (intern (foo !asWritten) s).2
  let s := (intern (.array (if asWritten then .number else .string)) s).2
  let s := (intern (.array (if asWritten then .string else .number)) s).2
  (intersectionOf [⟨8⟩, ⟨9⟩, ⟨10⟩, ⟨11⟩] s).2

theorem mergedStore_constructed (asWritten : Bool) : Constructed (mergedStore asWritten) := by
  have hfunction : Constructed (intern (.function [] .number) initial).2 :=
    .stored .initial (by decide) rfl
  cases asWritten with
  | false =>
    refine .intersection (.stored (.stored (.stored (.stored hfunction ?_ rfl) ?_ rfl) ?_ rfl) ?_ rfl) ?_
    all_goals decide +kernel
  | true =>
    refine .intersection (.stored (.stored (.stored (.stored hfunction ?_ rfl) ?_ rfl) ?_ rfl) ?_ rfl) ?_
    all_goals decide +kernel

/-- Exchanges the two objects, and the two arrays. -/
def exchange (t : TypeId) : TypeId :=
  ⟨[0, 1, 2, 3, 4, 5, 6, 7, 9, 8, 11, 10, 12].getD t.index t.index⟩

theorem mergedStore_eq (asWritten : Bool) : mergedStore asWritten = ⟨initial.types ++
    #[.function [] .number, .object [{ name := "foo", type := ⟨7⟩, isMethod := asWritten }],
      .object [{ name := "foo", type := ⟨7⟩, isMethod := !asWritten }],
      .array (if asWritten then .number else .string), .array (if asWritten then .string else .number),
      .intersection [⟨8⟩, ⟨9⟩, ⟨10⟩, ⟨11⟩]]⟩ := by
  cases asWritten <;> exact congrArg TypeStore.mk (by decide +kernel)

theorem mergedStore_corresponds : (mergedStore true).Corresponds exchange (mergedStore false) := by
  have hexchange : ∀ i : Fin 13, (exchange ⟨i⟩).index < 13 ∧ exchange (exchange ⟨i⟩) = ⟨i⟩ := by decide
  have hlt {b : Bool} {t : TypeId} : (mergedStore b).Has t ↔ t.index < 13 := by
    rw [mergedStore_eq]
    rfl
  have hmaps (b b' : Bool) :
      Set.MapsTo exchange {t | (mergedStore b).Has t} {t | (mergedStore b').Has t} := fun t ht =>
    hlt.2 (hexchange ⟨t.index, hlt.1 ht⟩).1
  have hinv (b b' : Bool) :
      Set.InvOn exchange exchange {t | (mergedStore b).Has t} {t | (mergedStore b').Has t} :=
    ⟨fun t ht => (hexchange ⟨t.index, hlt.1 ht⟩).2, fun t ht => (hexchange ⟨t.index, hlt.1 ht⟩).2⟩
  refine ⟨(hinv true false).bijOn (hmaps true false) (hmaps false true), ?_⟩
  rw [mergedStore_eq, mergedStore_eq]
  rintro ⟨i⟩ d hd
  have hi : i < 13 := has_of_get? hd
  interval_cases i <;> cases hd
  iterate 7 exact ⟨_, rfl, .intrinsic _⟩
  · exact ⟨_, rfl, .function [] .number⟩
  · exact ⟨_, rfl, .object _⟩
  · exact ⟨_, rfl, .object _⟩
  · exact ⟨_, rfl, .array .number⟩
  · exact ⟨_, rfl, .array .string⟩
  · exact ⟨_, rfl, .intersection fun u => List.Perm.mem_iff (by decide)⟩

/-- The members in either order; the types of the slots are joined anew. -/
theorem shapeOf_corresponds_of_merged :
    Constructed (mergedStore true) ∧ Constructed (mergedStore false) ∧
      (mergedStore true).Corresponds exchange (mergedStore false) ∧ (mergedStore true).Has ⟨12⟩ ∧
      (shapeOf ⟨12⟩ (mergedStore true)).1.Matches
        (ElementsCorrespond exchange (mergedStore true) (mergedStore false)
          (shapeOf ⟨12⟩ (mergedStore true)).2 (shapeOf (exchange ⟨12⟩) (mergedStore false)).2)
        (MembersCorrespond exchange (mergedStore true) ⟨12⟩)
        (shapeOf (exchange ⟨12⟩) (mergedStore false)).1 := by
  have hs := mergedStore_constructed true
  have hs' := mergedStore_constructed false
  have ht : (mergedStore true).Has ⟨12⟩ := by decide +kernel
  exact ⟨hs, hs', mergedStore_corresponds, ht, hs.shapeOf_corresponds hs' mergedStore_corresponds ht⟩

/-- Which of the two objects was stored first decides whether `foo` is a method. -/
theorem member?_exchange_ne :
    Constructed (mergedStore true) ∧ Constructed (mergedStore false) ∧
      (mergedStore true).Corresponds exchange (mergedStore false) ∧ (mergedStore true).Has ⟨12⟩ ∧
      (shapeOf (exchange ⟨12⟩) (mergedStore false)).1.member? "foo" ≠
        ((shapeOf ⟨12⟩ (mergedStore true)).1.member? "foo").map (Property.rename exchange) :=
  ⟨mergedStore_constructed true, mergedStore_constructed false, mergedStore_corresponds,
    by decide +kernel, by decide +kernel⟩

end ScriptToLua
