import Mathlib
import ScriptToLua.Proofs.Types.Expression
import ScriptToLua.Proofs.Types.Primitive
import ScriptToLua.Proofs.Types.Renaming

/-!
Stores that have grown out of one store, each in its own way. New unions may have other ids in the one
than in the other, but what is asked about expressions has the same answers in both, up to these ids:
`shapeOf_inStep`, `expressionType_inStep`.
-/

namespace ScriptToLua

open Source (Arena Node NodeId)
open TypeStore

theorem TypeData.renamed_id (d : TypeData) : d.Renamed id d := by
  have hproperties (properties : List Property) : properties.map (Property.rename id) = properties :=
    List.map_id properties
  cases d with
  | intrinsic kind => exact .intrinsic kind
  | stringLiteral value => exact .stringLiteral value
  | numberLiteral text => exact .numberLiteral text
  | array element => exact .array element
  | tuple elements => simpa only [List.map_id] using Renamed.tuple (f := id) elements
  | union members => exact .union fun u => by rw [List.map_id]
  | intersection members => exact .intersection fun u => by rw [List.map_id]
  | object properties => simpa only [hproperties] using Renamed.object (f := id) properties
  | interface name bases properties =>
    simpa only [hproperties, List.map_id] using Renamed.interface (f := id) name bases properties
  | parameter name constraint =>
    simpa only [Option.map_id, id] using Renamed.parameter (f := id) name constraint
  | function parameters result =>
    simpa only [List.map_id, id] using Renamed.function (f := id) parameters result

theorem TypeStore.corresponds_self (s : TypeStore) : s.Corresponds id s :=
  ⟨Set.bijOn_id _, fun _ d h => ⟨d, h, d.renamed_id⟩⟩

/-- The types, one of each store, join to the same types of the store that both have grown out of. -/
abbrev Counterparts (base s s' : TypeStore) : TypeId → TypeId → Prop := SlotsMatch id base s s'

/-- The shapes have the same members, and the types of their slots are counterparts. -/
abbrev SameShape (base s s' : TypeStore) : Shape → Shape → Prop :=
  Shape.Matches (Counterparts base s s') fun members members' =>
    members = members' ∧ HasMembers base members

section Counterparts

variable {base s s' : TypeStore} {t t' : TypeId}

theorem Counterparts.mono {r r' : TypeStore} (h : Counterparts base s s' t t') (hr : s.Grown r)
    (hr' : s'.Grown r') : Counterparts base r r' t t' := SlotsMatch.mono h hr.extends_ hr'.extends_

variable (hb : base.Normal) (hs : base.Grown s)
  (hs' : base.Grown s')

include hb hs hs'

/-- What is stored from the start is its own counterpart. -/
theorem Counterparts.of_has (ht : base.Has t) : Counterparts base s s' t t :=
  SlotsMatch.of_has base.corresponds_self hb hb hs.extends_ hs'.extends_ ht

omit hb hs hs' in
theorem Counterparts.joined_eq (h : Counterparts base s s' t t') : s'.joined [t'] = s.joined [t] :=
  joined_ext fun u => by rw [h.joined, List.map_id]

omit hs' in
/-- A new type that joins to old ones is a union of them. -/
theorem get?_of_joined (ht : ¬ base.Has t) (hold : ∀ u ∈ s.joined [t], base.Has u) :
    s.get? t = some (.union (s.joined [t])) := by
  by_cases hunion : ∃ members, s.get? t = some (.union members)
  · obtain ⟨members, hd⟩ := hunion
    rw [hs.normal.joined_union hd, hd]
  · have hne : t ≠ .never := fun h => ht (h ▸ hb.wellFormed.has_intrinsic rfl)
    have hj := joined_other (fun members h => hunion ⟨members, h⟩) hne
    exact absurd (hold t (hj.symm ▸ List.mem_singleton_self t)) ht

/-- Counterparts are one old type, or new unions with the same old members. -/
theorem Counterparts.cases (h : Counterparts base s s' t t') :
    (base.Has t ∧ t = t') ∨
      ∃ members, (∀ m ∈ members, base.Has m) ∧ (¬ base.Has t ∧ s.get? t = some (.union members)) ∧
        (¬ base.Has t' ∧ s'.get? t' = some (.union members)) := by
  by_cases ht : base.Has t
  · exact .inl ⟨ht, (h.right_unique hs'.normal (Counterparts.of_has hb hs hs' ht)).symm⟩
  · have ht' : ¬ base.Has t' := fun ht' =>
      ht (h.left_unique (Set.injOn_id _) hs.normal (Counterparts.of_has hb hs hs' ht') ▸ ht')
    have hold' : ∀ u ∈ s'.joined [t'], base.Has u := h.joined_eq ▸ h.old
    have hd' := get?_of_joined hb hs' ht' hold'
    rw [h.joined_eq] at hd'
    exact .inr ⟨s.joined [t], h.old, ⟨ht, get?_of_joined hb hs ht h.old⟩, ht', hd'⟩

omit hs' in
/-- A new union of old types is made of what its members were made of from the start. -/
theorem madeOf_of_union {p : TypeData → Bool} {members : List TypeId} (ht : ¬ base.Has t)
    (hd : s.get? t = some (.union members)) (hm : ∀ m ∈ members, base.Has m) :
    madeOf p s t = (members.allM (madeOfAt p base (base.size + 1))).getD false := by
  have hsize : base.size < s.size := Nat.lt_of_le_of_lt (Nat.not_lt.1 ht) (has_of_get? hd)
  have hmember : ∀ m ∈ members, madeOfAt p s s.size m = madeOfAt p base (base.size + 1) m := by
    intro m hmem
    rw [madeOfAt_extends hb.wellFormed hs.extends_ (hm m hmem), madeOfAt_eq_of_size_lt hsize]
  rw [madeOf, madeOfAt, hd, ← allM_congr hmember]
  cases members with
  | nil => exact absurd (hs.normal.union t [] hd).several (by decide)
  | cons m members => rfl

theorem Counterparts.madeOf_eq {p : TypeData → Bool} (h : Counterparts base s s' t t') :
    madeOf p s t = madeOf p s' t' := by
  rcases h.cases hb hs hs' with ⟨ht, rfl⟩ | ⟨members, hm, ⟨ht, hd⟩, ht', hd'⟩
  · rw [madeOf_extends hb.wellFormed hs.extends_ ht, madeOf_extends hb.wellFormed hs'.extends_ ht]
  · rw [madeOf_of_union hb hs ht hd hm, madeOf_of_union hb hs' ht' hd' hm]

theorem Counterparts.isStringLike_eq (h : Counterparts base s s' t t') :
    s.isStringLike t = s'.isStringLike t' := h.madeOf_eq hb hs hs'

theorem Counterparts.isNumberLike_eq (h : Counterparts base s s' t t') :
    s.isNumberLike t = s'.isNumberLike t' := h.madeOf_eq hb hs hs'

/-- Only an old type itself is its counterpart. -/
theorem Counterparts.eq_iff {u : TypeId} (hu : base.Has u) (h : Counterparts base s s' t t') :
    t = u ↔ t' = u := by
  rcases h.cases hb hs hs' with ⟨-, rfl⟩ | ⟨_, -, ⟨ht, -⟩, ht', -⟩
  · exact Iff.rfl
  · exact iff_of_false (fun h => ht (h ▸ hu)) fun h => ht' (h ▸ hu)

end Counterparts

section Shapes

variable {base s s' : TypeStore} {t t' : TypeId} {shape shape' : Shape}

theorem SameShape.of_matches
    (h : shape.Matches (Counterparts base s s') SameNames shape')
    (ho : shape.outline = shape'.outline) (hm : HasMembers base shape.members) :
    SameShape base s s' shape shape' := by
  have hmembers : shape.members = shape'.members := by
    rw [← shape.outline_members, ho, shape'.outline_members]
  cases h with
  | array h => exact .array h
  | record => exact .record ⟨hmembers, hm⟩
  | hybrid h => exact .hybrid h ⟨hmembers, hm⟩
  | other => exact .other

theorem SameShape.outline_eq (h : SameShape base s s' shape shape') :
    shape.outline = shape'.outline := by
  cases h with
  | array => rfl
  | record hm => exact congrArg Shape.record hm.1
  | hybrid _ hm => exact congrArg (Shape.hybrid .unknown) hm.1
  | other => rfl

theorem SameShape.hasMembers (h : SameShape base s s' shape shape') :
    HasMembers base shape.members := by
  cases h with
  | record hm => exact hm.2
  | hybrid _ hm => exact hm.2
  | _ => exact .empty

theorem SameShape.element (h : SameShape base s s' shape shape') {d : TypeId}
    (hd : Counterparts base s s' d d) :
    Counterparts base s s' (shape.element?.getD d) (shape'.element?.getD d) := by
  cases h with
  | array he => exact he
  | hybrid he => exact he
  | _ => exact hd

variable (hb : base.Normal) (hs : base.Grown s) (hs' : base.Grown s')

include hb hs

theorem shapeAt_hasMembers_base (n : Nat) (ht : base.Has t) :
    HasMembers base (shapeAt n t s).1.members := by
  rw [← Shape.outline_members, shapeAt_outline n hb.wellFormed hs.normal.wellFormed hs.extends_ ht,
    Shape.outline_members]
  exact shapeAt_hasMembers n hb.wellFormed ht

theorem mapM_shapeAt_outline_base (n : Nat) {ts : List TypeId} (ht : ∀ t ∈ ts, base.Has t) :
    (ts.mapM (shapeAt n) s).1.map Shape.outline = ts.map fun t => (shapeAt n t base).1.outline :=
  mapM_outline (fun _ _ hr he hu => ⟨shapeAt_grows n hr (he.has hu),
    shapeAt_outline n hb.wellFormed hr he hu⟩) hs.normal.wellFormed hs.extends_ ht

theorem mapM_shapeAt_hasMembers (n : Nat) {ts : List TypeId} (ht : ∀ t ∈ ts, base.Has t) :
    ∀ shape ∈ (ts.mapM (shapeAt n) s).1, HasMembers base shape.members := by
  intro shape hshape
  have hmem : shape.outline ∈ ts.map fun t => (shapeAt n t base).1.outline :=
    mapM_shapeAt_outline_base hb hs n ht ▸ List.mem_map_of_mem hshape
  obtain ⟨t, hmem, heq⟩ := List.mem_map.1 hmem
  rw [← shape.outline_members, ← heq, Shape.outline_members]
  exact shapeAt_hasMembers n hb.wellFormed (ht t hmem)

include hs'

theorem shapeAt_counterparts (n : Nat) (h : Counterparts base s s' t t') :
    SameShape base (shapeAt n t s).2 (shapeAt n t' s').2 (shapeAt n t s).1 (shapeAt n t' s').1 := by
  rcases h.cases hb hs hs' with ⟨ht, rfl⟩ | ⟨members, hm, ⟨-, hd⟩, -, hd'⟩
  · have houtline : (shapeAt n t s).1.outline = (shapeAt n t s').1.outline := by
      rw [shapeAt_outline n hb.wellFormed hs.normal.wellFormed hs.extends_ ht,
        shapeAt_outline n hb.wellFormed hs'.normal.wellFormed hs'.extends_ ht]
    exact .of_matches (shapeAt_matches base.corresponds_self hb hb n hs hs' ht) houtline
      (shapeAt_hasMembers_base hb hs n ht)
  · cases n with
    | zero => exact .other
    | succ n =>
      obtain ⟨hend, hend', hne, hpaired⟩ := mapM_matches base.corresponds_self
        (fun hr hr' ht => shapeAt_matches base.corresponds_self hb hb n hr hr' ht) hs hs' hm
        fun u => by rw [List.map_id]
      have hseveral : 0 < members.length :=
        Nat.lt_of_lt_of_le Nat.zero_lt_two (hs.normal.union t members hd).several
      have houtlines := (mapM_shapeAt_outline_base hb hs n hm).trans
        (mapM_shapeAt_outline_base hb hs' n hm).symm
      rw [shapeAt_of_get? n hd, shapeAt_of_get? n hd']
      exact .of_matches
        (unionShape_matches base.corresponds_self hb hb hend hend' hpaired
          (hne (List.ne_nil_of_length_pos hseveral)))
        (unionShape_outline houtlines _ _) (unionShape_hasMembers (mapM_shapeAt_hasMembers hb hs n hm) _)

end Shapes

/-- Both computations add to their stores, and their results are related. -/
def InStep {α α' : Type} (s s' : TypeStore) (P : TypeStore → TypeStore → α → α' → Prop)
    (act : TypeM α) (act' : TypeM α') : Prop :=
  s.Grown (act s).2 ∧ s'.Grown (act' s').2 ∧ P (act s).2 (act' s').2 (act s).1 (act' s').1

section InStep

variable {α α' β β' : Type} {s s' : TypeStore} {P : TypeStore → TypeStore → α → α' → Prop}
  {Q : TypeStore → TypeStore → β → β' → Prop}

theorem InStep.pure {a : α} {a' : α'} (hs : s.Normal) (hs' : s'.Normal) (h : P s s' a a') :
    InStep s s' P (Pure.pure a) (Pure.pure a') := ⟨⟨hs, .refl s⟩, ⟨hs', .refl s'⟩, h⟩

theorem InStep.bind {act : TypeM α} {act' : TypeM α'} {next : α → TypeM β} {next' : α' → TypeM β'}
    (h : InStep s s' P act act')
    (hn : ∀ a a' r r', s.Grown r → s'.Grown r' → P r r' a a' → InStep r r' Q (next a) (next' a')) :
    InStep s s' Q (act >>= next) (act' >>= next') := by
  obtain ⟨hr, hr', hp⟩ := h
  obtain ⟨ht, ht', hq⟩ := hn _ _ _ _ hr hr' hp
  exact ⟨hr.trans ht, hr'.trans ht', hq⟩

end InStep

section Typing

open Typing

variable {base s s' : TypeStore} {t t' : TypeId} (hb : base.Normal) (hs : base.Grown s)
  (hs' : base.Grown s')

include hb hs hs'

theorem shapeOf_inStep (h : Counterparts base s s' t t') :
    InStep s s' (SameShape base) (shapeOf t) (shapeOf t') :=
  ⟨shapeAt_grown maxShapeDepth hs.normal h.has, shapeAt_grown maxShapeDepth hs'.normal h.has',
    shapeAt_counterparts hb hs hs' maxShapeDepth h⟩

theorem unionOf_inStep {u u' : TypeId} (ht : Counterparts base s s' t t')
    (hu : Counterparts base s s' u u') :
    InStep s s' (Counterparts base) (unionOf [t, u]) (unionOf [t', u']) := by
  have hpaired : Paired (Counterparts base s s') [t, u] [t', u'] := by
    constructor <;> simp [ht, hu]
  obtain ⟨hhas, hhas'⟩ := SlotsMatch.all_has hpaired
  have hgrown {r : TypeStore} {ts : List TypeId} (hr : r.Normal) (hts : ∀ t ∈ ts, r.Has t) :
      r.Grown (unionOf ts r).2 :=
    ⟨(hr.joined_unionOf hts).1, (unionOf_grows hr.wellFormed hts).2.1⟩
  exact ⟨hgrown hs.normal hhas, hgrown hs'.normal hhas',
    SlotsMatch.unionOf base.corresponds_self hb hb hs.normal hs'.normal hpaired⟩

theorem Counterparts.sumType_eq {u u' : TypeId} (ht : Counterparts base s s' t t')
    (hu : Counterparts base s s' u u') : sumType s t u = sumType s' t' u' := by
  have hunknown : base.Has .unknown := hb.wellFormed.has_intrinsic rfl
  simp only [sumType, ht.isStringLike_eq hb hs hs', hu.isStringLike_eq hb hs hs',
    ht.eq_iff hb hs hs' hunknown, hu.eq_iff hb hs hs' hunknown]

theorem sumType_counterparts (t u : TypeId) :
    Counterparts base s s' (sumType s t u) (sumType s t u) := by
  unfold sumType
  split
  · exact .of_has hb hs hs' (hb.wellFormed.has_intrinsic rfl)
  · split <;> exact .of_has hb hs hs' (hb.wellFormed.has_intrinsic rfl)

theorem resultType_counterparts (h : Counterparts base s s' t t') :
    Counterparts base s s' (resultType s t) (resultType s' t') := by
  have hunknown : Counterparts base s s' .unknown .unknown :=
    .of_has hb hs hs' (hb.wellFormed.has_intrinsic rfl)
  rcases h.cases hb hs hs' with ⟨ht, rfl⟩ | ⟨members, -, ⟨-, hd⟩, -, hd'⟩
  · have hresult := resultType_has hb.wellFormed t
    have heq {r : TypeStore} (hr : base.Grown r) : resultType r t = resultType base t := by
      rw [resultType, resultType, hr.extends_.get? ht]
    rw [heq hs, heq hs']
    exact .of_has hb hs hs' hresult
  · rw [resultType, resultType, hd, hd']
    exact hunknown

theorem propertyType_counterparts {shape shape' : Shape} (h : SameShape base s s' shape shape')
    (name : String) :
    Counterparts base s s' (propertyType shape name) (propertyType shape' name) := by
  have heq : propertyType shape name = propertyType shape' name := by
    rw [propertyType, propertyType, Shape.member?_of_outline h.outline_eq,
      Shape.isArrayLike_of_outline h.outline_eq]
  exact heq ▸ .of_has hb hs hs' (propertyType_has hb.wellFormed h.hasMembers name)

theorem elementType_counterparts {shape shape' : Shape} (h : SameShape base s s' shape shape')
    (key : Option Node) :
    Counterparts base s s' (elementType shape key) (elementType shape' key) := by
  have helement := h.element (.of_has hb hs hs' (hb.wellFormed.has_intrinsic (t := .unknown) rfl))
  unfold elementType
  split
  · next name =>
    rw [← Shape.member?_of_outline h.outline_eq]
    cases hm : shape.member? name with
    | some p => exact .of_has hb hs hs' (h.hasMembers.get? hm)
    | none => exact helement
  · exact helement

section Nodes

variable {a : Arena} {f : TypeFacts} (hf : f.Stored a base) {typeOf : NodeId → TypeM TypeId}
  (h : ∀ id r r', base.Grown r → base.Grown r' →
    InStep r r' (Counterparts base) (typeOf id) (typeOf id))

include h

theorem binaryType_inStep (left : NodeId) (op : Source.BinaryOp) (right : NodeId) :
    InStep s s' (Counterparts base) (binaryType typeOf left op right)
      (binaryType typeOf left op right) := by
  have hintrinsic {t : TypeId} (ht : t.isIntrinsic) :
      InStep s s' (Counterparts base) (pure t) (pure t) :=
    .pure hs.normal hs'.normal (.of_has hb hs hs' (hb.wellFormed.has_intrinsic ht))
  have hpair {next : TypeId → TypeId → TypeM TypeId}
      (hn : ∀ l l' r r' q q', base.Grown q → base.Grown q' → Counterparts base q q' l l' →
        Counterparts base q q' r r' →
        InStep q q' (Counterparts base) (next l r) (next l' r')) :
      InStep s s' (Counterparts base) (typeOf left >>= fun l => typeOf right >>= next l)
        (typeOf left >>= fun l => typeOf right >>= next l) := by
    refine (h left s s' hs hs').bind fun l l' q q' hq hq' hl => ?_
    refine (h right q q' (hs.trans hq) (hs'.trans hq')).bind fun r r' o o' ho ho' hr => ?_
    exact hn l l' r r' o o' (hs.trans (hq.trans ho)) (hs'.trans (hq'.trans ho'))
      (hl.mono ho ho') hr
  cases op with
  | add =>
    refine hpair fun l l' r r' q q' hq hq' hl hr => ⟨⟨hq.normal, .refl q⟩, ⟨hq'.normal, .refl q'⟩, ?_⟩
    change Counterparts base q q' (sumType q l r) (sumType q' l' r')
    exact hl.sumType_eq hb hq hq' hr ▸ sumType_counterparts hb hq hq' l r
  | and | or => exact hpair fun l l' r r' q q' hq hq' hl hr => unionOf_inStep hb hq hq' hl hr
  | _ => exact hintrinsic rfl

include hf

theorem nodeType_inStep {id : NodeId} {n : Node} (hn : a.get? id = some n) :
    InStep s s' (Counterparts base) (nodeType a f typeOf n) (nodeType a f typeOf n) := by
  have hold {t : TypeId} (ht : base.Has t) : InStep s s' (Counterparts base) (pure t) (pure t) :=
    .pure hs.normal hs'.normal (.of_has hb hs hs' ht)
  have hintrinsic {t : TypeId} (ht : t.isIntrinsic) := hold (hb.wellFormed.has_intrinsic ht)
  -- Accesses look into the shape of their receiver.
  have hshape (receiver : NodeId) {next : Shape → TypeId}
      (hnext : ∀ shape shape' q q', base.Grown q → base.Grown q' →
        SameShape base q q' shape shape' → Counterparts base q q' (next shape) (next shape')) :
      InStep s s' (Counterparts base) (do return next (← shapeOf (← typeOf receiver)))
        (do return next (← shapeOf (← typeOf receiver))) := by
    refine (h receiver s s' hs hs').bind fun t t' q q' hq hq' ht => ?_
    have hbq := hs.trans hq
    have hbq' := hs'.trans hq'
    refine (shapeOf_inStep hb hbq hbq' ht).bind fun shape shape' o o' ho ho' hshape => ?_
    exact .pure ho.normal ho'.normal
      (hnext shape shape' o o' (hbq.trans ho) (hbq'.trans ho') hshape)
  cases n with
  | identifier x => exact hold (hf.declaredType hb.wellFormed x)
  | asserted e t => exact hold (hf.asserted id e t hn)
  | parenthesized inner => exact h inner s s' hs hs'
  | assign target op value => exact h value s s' hs hs'
  | binary left op right => exact binaryType_inStep hb hs hs' h left op right
  | unary op operand => cases op <;> exact hintrinsic rfl
  | call callee arguments =>
    refine (h callee s s' hs hs').bind fun t t' q q' hq hq' ht => ?_
    exact ⟨⟨hq.normal, .refl q⟩, ⟨hq'.normal, .refl q'⟩,
      resultType_counterparts hb (hs.trans hq) (hs'.trans hq') ht⟩
  | property receiver name =>
    exact hshape receiver fun _ _ _ _ hq hq' hm => propertyType_counterparts hb hq hq' hm name
  | element receiver key =>
    exact hshape receiver fun _ _ _ _ hq hq' hm => elementType_counterparts hb hq hq' hm _
  | _ => exact hintrinsic rfl

omit h

theorem typeAt_inStep (room : Nat) (id : NodeId) :
    InStep s s' (Counterparts base) (typeAt a f room id) (typeAt a f room id) := by
  have hold {s s' : TypeStore} (hs : base.Grown s) (hs' : base.Grown s') {t : TypeId}
      (ht : base.Has t) : InStep s s' (Counterparts base) (pure t) (pure t) :=
    .pure hs.normal hs'.normal (.of_has hb hs hs' ht)
  have hunknown : base.Has .unknown := hb.wellFormed.has_intrinsic rfl
  induction room generalizing s s' id with
  | zero =>
    refine hold hs hs' ?_
    cases hid : f.nodes.get? id with
    | none => exact hunknown
    | some t => exact hf.nodes.get? hid
  | succ room ih =>
    unfold typeAt
    cases hid : f.nodes.get? id with
    | some t => exact hold hs hs' (hf.nodes.get? hid)
    | none =>
      cases hn : a.get? id with
      | none => exact hold hs hs' hunknown
      | some n => exact nodeType_inStep hb hs hs' hf (fun id r r' hr hr' => ih hr hr' id) hn

/-- The types of one expression in the one and the other store are counterparts. -/
theorem expressionType_inStep (id : NodeId) :
    InStep s s' (Counterparts base) (f.expressionType a id) (f.expressionType a id) :=
  typeAt_inStep hb hs hs' hf maxNesting id

end Nodes

end Typing

end ScriptToLua
