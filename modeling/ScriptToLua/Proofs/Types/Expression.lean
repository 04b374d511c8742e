import Mathlib
import ScriptToLua.Typing
import ScriptToLua.Proofs.OrderedMap
import ScriptToLua.Proofs.Types.Stability

/-!
Where the recorded types are stored, so is the type of every expression: `expressionType_grows`.
-/

namespace ScriptToLua

open Source (Arena Node NodeId)
open TypeStore

/-- The types of the members are stored. -/
def HasMembers (s : TypeStore) (members : Members) : Prop := members.AllValues fun p => s.Has p.type

section Members

variable {s : TypeStore} {t : TypeId}

theorem declared_hasMembers {properties : List Property} (h : ∀ p ∈ properties, s.Has p.type) :
    HasMembers s (declared properties) := by
  refine OrderedMap.AllValues.insertAll .empty fun e he => ?_
  obtain ⟨p, hp, rfl⟩ := List.mem_map.1 he
  exact h p hp

theorem arrayWith_members (e : TypeId) (members : Members) :
    (Shape.arrayWith e members).members = members := by
  unfold Shape.arrayWith
  split
  · next h =>
    obtain ⟨entries, hnodup⟩ := members
    obtain rfl : entries = [] := List.isEmpty_iff.1 h
    rfl
  · rfl

variable {shapes : List Shape} (h : ∀ shape ∈ shapes, HasMembers s shape.members)

include h

theorem inherited_hasMembers : HasMembers s (inherited shapes) := by
  have hfold (l : List Shape) (hl : ∀ shape ∈ l, HasMembers s shape.members) (start : Members)
      (hstart : HasMembers s start) : HasMembers s
        (l.foldl (fun members shape => members.insertAll shape.members.entries) start) := by
    induction l generalizing start with
    | nil => exact hstart
    | cons shape l ih =>
      exact ih (fun shape' hm => hl shape' (List.mem_cons_of_mem shape hm)) _
        (hstart.insertAll (hl shape List.mem_cons_self))
  exact hfold shapes h .empty .empty

theorem common_hasMembers : HasMembers s (common shapes) := by
  cases shapes with
  | nil => exact .empty
  | cons first rest => exact (h first List.mem_cons_self).filter _

theorem unionShape_hasMembers (s' : TypeStore) :
    HasMembers s (unionShape shapes s').1.members := by
  unfold unionShape
  split
  · exact (arrayWith_members _ _).symm ▸ common_hasMembers h
  · split
    · exact common_hasMembers h
    · exact .empty

theorem intersectionShape_hasMembers (s' : TypeStore) :
    HasMembers s (intersectionShape shapes s').1.members := by
  unfold intersectionShape
  cases shapes.filterMap Shape.element? with
  | nil =>
    change HasMembers s (if shapes.any Shape.isRecord then Shape.record (inherited shapes)
      else Shape.other).members
    split
    · exact inherited_hasMembers h
    · exact .empty
  | cons e es =>
    change HasMembers s (Shape.arrayWith _ (inherited shapes)).members
    rw [arrayWith_members]
    exact inherited_hasMembers h

theorem interfaceShape_hasMembers {properties : List Property}
    (hp : ∀ p ∈ properties, s.Has p.type) (s' : TypeStore) :
    HasMembers s (interfaceShape shapes properties s').1.members := by
  have hm : HasMembers s ((inherited shapes).insertAll (declared properties).entries) :=
    (inherited_hasMembers h).insertAll (declared_hasMembers hp)
  unfold interfaceShape
  cases shapes.filterMap Shape.element? with
  | nil => exact hm
  | cons e es =>
    change HasMembers s (Shape.arrayWith _ _).members
    rw [arrayWith_members]
    exact hm

end Members

/-- What a shape names has a stored type. -/
theorem shapeAt_hasMembers (room : Nat) {s : TypeStore} {t : TypeId} (hs : s.WellFormed)
    (ht : s.Has t) : HasMembers s (shapeAt room t s).1.members := by
  induction room generalizing t with
  | zero => exact .empty
  | succ room ih =>
    have hmap {ts : List TypeId} (hts : ∀ u ∈ ts, s.Has u) :
        ∀ shape ∈ (ts.mapM (shapeAt room) s).1, HasMembers s shape.members := by
      intro shape hm
      have houtlines := mapM_outline (fun s' u hs' he hu =>
        ⟨shapeAt_grows room hs' (he.has hu), shapeAt_outline room hs hs' he hu⟩) hs (.refl s) hts
      have hmem : shape.outline ∈ ts.map fun u => (shapeAt room u s).1.outline :=
        houtlines ▸ List.mem_map_of_mem hm
      obtain ⟨u, hu, heq⟩ := List.mem_map.1 hmem
      rw [← shape.outline_members, ← heq, Shape.outline_members]
      exact ih (hts u hu)
    cases hd : s.get? t with
    | none =>
      rw [shapeAt_of_none _ hd]
      exact .empty
    | some d =>
      have hm := hs.closed t d hd
      rw [shapeAt_of_get? room hd]
      cases d with
      | tuple elements => cases elements <;> exact .empty
      | object properties => exact declared_hasMembers fun p hp => hm _ (List.mem_map_of_mem hp)
      | union members => exact unionShape_hasMembers (hmap hm) _
      | intersection members => exact intersectionShape_hasMembers (hmap hm) _
      | interface name bases properties =>
        exact interfaceShape_hasMembers (hmap fun u hu => hm u (List.mem_append_left _ hu))
          (fun p hp => hm _ (List.mem_append_right _ (List.mem_map_of_mem hp))) _
      | parameter name constraint =>
        cases constraint with
        | none => exact .empty
        | some constraint => exact ih (hm constraint List.mem_cons_self)
      | _ => exact .empty

/-- All types that are recorded about an arena, or stand in it, are stored. -/
structure TypeFacts.Stored (a : Arena) (f : TypeFacts) (s : TypeStore) : Prop where
  nodes : f.nodes.AllValues s.Has
  names : f.names.AllValues s.Has
  asserted : ∀ id e t, a.get? id = some (.asserted e t) → s.Has t

/-- The type that an assertion names. -/
def Source.Node.assertedType? : Node → Option TypeId
  | .asserted _ t => some t
  | _ => none

theorem TypeFacts.Stored.of_entries {a : Arena} {f : TypeFacts} {s : TypeStore}
    (hnodes : ∀ e ∈ f.nodes.entries, s.Has e.2) (hnames : ∀ e ∈ f.names.entries, s.Has e.2)
    (ha : ∀ e ∈ a.entries.toList, ∀ t ∈ e.1.assertedType?, s.Has t) : f.Stored a s where
  nodes := hnodes
  names := hnames
  asserted id e t h := by
    obtain ⟨entry, hm, hentry⟩ := Option.map_eq_some_iff.1 h
    refine ha entry (Array.mem_toList_iff.2 (Array.mem_of_getElem? hm)) t ?_
    rw [hentry]
    rfl

theorem TypeFacts.Stored.extends_ {a : Arena} {f : TypeFacts} {s s' : TypeStore}
    (h : f.Stored a s) (he : s.Extends s') : f.Stored a s' where
  nodes e hm := he.has (h.nodes e hm)
  names e hm := he.has (h.names e hm)
  asserted id e t hid := he.has (h.asserted id e t hid)

section Typing

open Typing

variable {a : Arena} {f : TypeFacts} {s : TypeStore}

theorem TypeFacts.Stored.declaredType (h : f.Stored a s) (hs : s.WellFormed) (x : String) :
    s.Has (f.declaredType x) := by
  unfold TypeFacts.declaredType
  cases hx : f.names.get? x with
  | none => exact hs.has_intrinsic rfl
  | some t => exact h.names.get? hx

theorem propertyType_has (hs : s.WellFormed) {shape : Shape} (h : HasMembers s shape.members)
    (name : String) : s.Has (propertyType shape name) := by
  unfold propertyType
  cases hm : shape.member? name with
  | some p => exact h.get? hm
  | none =>
    dsimp only
    split <;> exact hs.has_intrinsic rfl

theorem elementType_has (hs : s.WellFormed) {shape : Shape} (hm : HasMembers s shape.members)
    (he : HasElement s shape) (key : Option Node) : s.Has (elementType shape key) := by
  unfold elementType
  dsimp only
  split
  · next p hp =>
    split at hp
    · exact hm.get? hp
    · cases hp
  · cases hshape : shape.element? with
    | none => exact hs.has_intrinsic rfl
    | some e => exact he e hshape

theorem resultType_has (hs : s.WellFormed) (t : TypeId) : s.Has (resultType s t) := by
  unfold resultType
  split
  · next parameters result hd => exact hs.closed t _ hd result List.mem_cons_self
  · exact hs.has_intrinsic rfl

/-- The shape of a stored type has stored parts. -/
theorem shapeOf_parts {t : TypeId} (hs : s.WellFormed) (ht : s.Has t) :
    Grows s (fun s' shape => HasMembers s' shape.members ∧ HasElement s' shape) (shapeOf t) := by
  obtain ⟨hw, he, helement⟩ := shapeOf_grows hs ht
  exact ⟨hw, he, fun e hm => he.has (shapeAt_hasMembers maxShapeDepth hs ht e hm), helement⟩

theorem binaryType_grows {typeOf : NodeId → TypeM TypeId} (hs : s.WellFormed)
    (h : ∀ s' id, s'.WellFormed → s.Extends s' → Grows s' Has (typeOf id)) (left : NodeId)
    (op : Source.BinaryOp) (right : NodeId) : Grows s Has (binaryType typeOf left op right) := by
  have hunion : Grows s Has (do
      let l ← typeOf left
      let r ← typeOf right
      unionOf [l, r]) := by
    apply (h s left hs (.refl s)).bind
    intro l s₁ hs₁ he₁ hl
    apply (h s₁ right hs₁ he₁).bind
    intro r s₂ hs₂ he₂ hr
    apply unionOf_grows hs₂
    intro t ht
    rcases List.mem_pair.1 ht with rfl | rfl
    · exact he₂.has hl
    · exact hr
  cases op with
  | add =>
    apply (h s left hs (.refl s)).bind
    intro l s₁ hs₁ he₁ hl
    apply (h s₁ right hs₁ he₁).bind
    intro r s₂ hs₂ he₂ hr
    refine ⟨hs₂, .refl s₂, ?_⟩
    change s₂.Has (sumType s₂ l r)
    unfold sumType
    split
    · exact hs₂.has_intrinsic rfl
    · split <;> exact hs₂.has_intrinsic rfl
  | and => exact hunion
  | or => exact hunion
  | sub | mul | div | mod => exact .pure hs (hs.has_intrinsic rfl)
  | lt | le | gt | ge | eq | ne => exact .pure hs (hs.has_intrinsic rfl)

theorem nodeType_grows {typeOf : NodeId → TypeM TypeId} (hs : s.WellFormed) (hf : f.Stored a s)
    (h : ∀ s' id, s'.WellFormed → s.Extends s' → Grows s' Has (typeOf id)) {id : NodeId} {n : Node}
    (hn : a.get? id = some n) : Grows s Has (nodeType a f typeOf n) := by
  have hintrinsic {t : TypeId} (ht : t.isIntrinsic) : Grows s Has (pure t) :=
    .pure hs (hs.has_intrinsic ht)
  cases n with
  | identifier x => exact .pure hs (hf.declaredType hs x)
  | asserted e t => exact .pure hs (hf.asserted id e t hn)
  | parenthesized inner => exact h s inner hs (.refl s)
  | assign target op value => exact h s value hs (.refl s)
  | binary left op right => exact binaryType_grows hs h left op right
  | unary op operand => cases op <;> exact hintrinsic rfl
  | call callee arguments =>
    apply (h s callee hs (.refl s)).bind
    intro t s₁ hs₁ he₁ ht
    exact ⟨hs₁, .refl s₁, resultType_has hs₁ t⟩
  | property receiver name =>
    apply (h s receiver hs (.refl s)).bind
    intro t s₁ hs₁ he₁ ht
    apply (shapeOf_parts hs₁ ht).bind
    intro shape s₂ hs₂ he₂ hshape
    exact .pure hs₂ (propertyType_has hs₂ hshape.1 name)
  | element receiver key =>
    apply (h s receiver hs (.refl s)).bind
    intro t s₁ hs₁ he₁ ht
    apply (shapeOf_parts hs₁ ht).bind
    intro shape s₂ hs₂ he₂ hshape
    exact .pure hs₂ (elementType_has hs₂ hshape.1 hshape.2 _)
  | _ => exact hintrinsic rfl

theorem typeAt_grows (room : Nat) (hs : s.WellFormed) (hf : f.Stored a s) (id : NodeId) :
    Grows s Has (typeAt a f room id) := by
  induction room generalizing s id with
  | zero =>
    apply Grows.pure hs
    cases hid : f.nodes.get? id with
    | none => exact hs.has_intrinsic rfl
    | some t => exact hf.nodes.get? hid
  | succ room ih =>
    unfold typeAt
    cases hid : f.nodes.get? id with
    | some t => exact .pure hs (hf.nodes.get? hid)
    | none =>
      dsimp only
      cases hn : a.get? id with
      | none => exact .pure hs (hs.has_intrinsic rfl)
      | some n => exact nodeType_grows hs hf (fun s' id hs' he => ih hs' (hf.extends_ he) id) hn

/-- Working out the type of an expression stores what is new about it, and the type itself. -/
theorem expressionType_grows (hs : s.WellFormed) (hf : f.Stored a s) (id : NodeId) :
    Grows s Has (f.expressionType a id) := typeAt_grows maxNesting hs hf id

end Typing

end ScriptToLua
