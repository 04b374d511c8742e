import Mathlib
import ScriptToLua.Types.Primitive
import ScriptToLua.Types.Shape

/-!
Type stores only grow. What is stored keeps its id, and a type keeps its shape except for the type of
its slots, which may be stored anew: `shapeOf_outline`.
-/

namespace ScriptToLua

/-- The types that type data mentions. -/
def TypeData.mentions : TypeData → List TypeId
  | intrinsic _ | stringLiteral _ | numberLiteral _ => []
  | array element => [element]
  | tuple ts | union ts | intersection ts => ts
  | object properties => properties.map Property.type
  | interface _ bases properties => bases ++ properties.map Property.type
  | parameter _ constraint => constraint.toList
  | function parameters result => result :: parameters

namespace TypeStore

/-- The id was handed out. -/
def Has (s : TypeStore) (t : TypeId) : Prop := t.index < s.size

instance (s : TypeStore) (t : TypeId) : Decidable (s.Has t) :=
  inferInstanceAs (Decidable (t.index < s.size))

/-- The second store has all types of the first under their ids. -/
def Extends (s s' : TypeStore) : Prop := ∃ added, s'.types = s.types ++ added

/-- The store begins with the intrinsic types and mentions only ids that were handed out. -/
structure WellFormed (s : TypeStore) : Prop where
  intrinsics : initial.Extends s
  closed : ∀ t d, s.get? t = some d → ∀ u ∈ d.mentions, s.Has u

variable {s s' s'' : TypeStore} {t : TypeId} {d : TypeData}

theorem Extends.refl (s : TypeStore) : s.Extends s := ⟨#[], (Array.append_empty).symm⟩

theorem Extends.trans (h : s.Extends s') (h' : s'.Extends s'') : s.Extends s'' := by
  obtain ⟨a, ha⟩ := h
  obtain ⟨b, hb⟩ := h'
  exact ⟨a ++ b, by rw [hb, ha, Array.append_assoc]⟩

theorem Extends.has (h : s.Extends s') (ht : s.Has t) : s'.Has t := by
  obtain ⟨a, ha⟩ := h
  unfold Has size at *
  rw [ha, Array.size_append]
  omega

theorem Extends.get? (h : s.Extends s') (ht : s.Has t) : s'.get? t = s.get? t := by
  obtain ⟨a, ha⟩ := h
  rw [TypeStore.get?, ha, Array.getElem?_append_left ht, TypeStore.get?]

theorem has_of_get? (h : s.get? t = some d) : s.Has t := by
  obtain ⟨hlt, -⟩ := Array.getElem?_eq_some_iff.1 h
  exact hlt

/-- The store with one more type. -/
def push (s : TypeStore) (d : TypeData) : TypeStore := ⟨s.types.push d⟩

theorem get?_push (s : TypeStore) (d : TypeData) (t : TypeId) :
    (s.push d).get? t = if t = ⟨s.size⟩ then some d else s.get? t := by
  obtain ⟨i⟩ := t
  simp only [TypeStore.get?, push, Array.getElem?_push, size, TypeId.mk.injEq]

theorem extends_push (s : TypeStore) (d : TypeData) : s.Extends (s.push d) :=
  ⟨#[d], Array.push_eq_append⟩

theorem get?_of_idOf? (h : s.idOf? d = some t) : s.get? t = some d := by
  obtain ⟨i, hi, rfl⟩ := Option.map_eq_some_iff.1 h
  obtain ⟨hlt, hd, -⟩ := Array.findIdx?_eq_some_iff_getElem.1 hi
  exact (Array.getElem?_eq_getElem hlt).trans (congrArg some (of_decide_eq_true hd))

theorem get?_ne_of_idOf? (h : s.idOf? d = none) (t : TypeId) : s.get? t ≠ some d := by
  intro ht
  have hnone : s.types.findIdx? (fun d' => d' = d) = none := Option.map_eq_none_iff.1 h
  exact of_decide_eq_false
    (Array.findIdx?_eq_none_iff.1 hnone d (Array.mem_of_getElem? ht)) rfl

/-- Interning finds the data or adds it. -/
theorem intern_cases (d : TypeData) (s : TypeStore) :
    (∃ t, s.get? t = some d ∧ intern d s = (t, s)) ∨
      (∀ t, s.get? t ≠ some d) ∧ intern d s = (⟨s.size⟩, s.push d) := by
  cases h : s.idOf? d with
  | some t => exact .inl ⟨t, get?_of_idOf? h, by rw [intern, h]⟩
  | none => exact .inr ⟨get?_ne_of_idOf? h, by rw [intern, h]; rfl⟩

theorem WellFormed.has_intrinsic (h : s.WellFormed) (ht : t.isIntrinsic) : s.Has t :=
  h.intrinsics.has (of_decide_eq_true ht : t.index < Intrinsic.all.length)

theorem wellFormed_of_mentions (hi : initial.Extends s)
    (h : ∀ d ∈ s.types.toList, ∀ u ∈ d.mentions, s.Has u) : s.WellFormed where
  intrinsics := hi
  closed _ d hd := h d (Array.mem_toList_iff.2 (Array.mem_of_getElem? hd))

theorem initial_wellFormed : initial.WellFormed := wellFormed_of_mentions (.refl _) (by decide)

end TypeStore

open TypeStore

/-- The shape of a type from its data, where `shape` works out the shapes of the types in it. -/
def TypeData.shapeFrom (shape : TypeId → TypeM Shape) : TypeData → TypeM Shape
  | array element => return .array element
  | tuple [] => return .array .unknown
  | tuple elements => return .array (← unionOf elements)
  | object properties => return .record (declared properties)
  | union members => do unionShape (← members.mapM shape)
  | intersection members => do intersectionShape (← members.mapM shape)
  | interface _ bases properties => do interfaceShape (← bases.mapM shape) properties
  | parameter _ (some constraint) => shape constraint
  | _ => return .other

theorem shapeAt_of_get? {s : TypeStore} {t : TypeId} {d : TypeData} (room : Nat)
    (h : s.get? t = some d) : shapeAt (room + 1) t s = d.shapeFrom (shapeAt room) s := by
  simp only [shapeAt, bind, StateT.bind, get, getThe, MonadStateOf.get, StateT.get, pure]
  rw [h]
  cases d with
  | tuple elements => cases elements <;> rfl
  | parameter name constraint => cases constraint <;> rfl
  | _ => rfl

theorem shapeAt_of_none {s : TypeStore} {t : TypeId} (room : Nat) (h : s.get? t = none) :
    shapeAt room t s = (.other, s) := by
  cases room with
  | zero => rfl
  | succ room =>
    simp only [shapeAt, bind, StateT.bind, get, getThe, MonadStateOf.get, StateT.get, pure]
    rw [h]
    rfl

/-- The computation keeps the store well-formed, only adds to it, and has a result with `P`. -/
def Grows {α : Type} (s : TypeStore) (P : TypeStore → α → Prop) (act : TypeM α) : Prop :=
  (act s).2.WellFormed ∧ s.Extends (act s).2 ∧ P (act s).2 (act s).1

section Grows

variable {α β : Type} {s : TypeStore} {P : TypeStore → α → Prop} {Q : TypeStore → β → Prop}

theorem Grows.pure {a : α} (hs : s.WellFormed) (h : P s a) : Grows s P (Pure.pure a) :=
  ⟨hs, .refl s, h⟩

theorem Grows.congr {act act' : TypeM α} (h : act s = act' s) (hg : Grows s P act') :
    Grows s P act := by
  unfold Grows
  rwa [h]

theorem Grows.bind {act : TypeM α} {next : α → TypeM β} (h : Grows s P act)
    (hn : ∀ a s', s'.WellFormed → s.Extends s' → P s' a → Grows s' Q (next a)) :
    Grows s Q (act >>= next) := by
  obtain ⟨hw, he, hp⟩ := h
  obtain ⟨hw', he', hq⟩ := hn _ _ hw he hp
  exact ⟨hw', he.trans he', hq⟩

theorem get?_intern (d : TypeData) (s : TypeStore) :
    (intern d s).2.get? (intern d s).1 = some d := by
  rcases intern_cases d s with ⟨t, ht, h⟩ | ⟨-, h⟩
  · rw [h]
    exact ht
  · rw [h]
    exact (get?_push s d _).trans (if_pos rfl)

theorem intern_grows {d : TypeData} (hs : s.WellFormed) (hd : ∀ u ∈ d.mentions, s.Has u) :
    Grows s Has (intern d) := by
  unfold Grows
  rcases intern_cases d s with ⟨t, ht, h⟩ | ⟨-, h⟩
  · rw [h]
    exact ⟨hs, .refl s, has_of_get? ht⟩
  · rw [h]
    have he : s.Extends (s.push d) := extends_push s d
    refine ⟨⟨hs.intrinsics.trans he, ?_⟩, he, ?_⟩
    · intro t d' ht u hu
      apply he.has
      rw [get?_push] at ht
      split at ht
      · exact hd u (Option.some.inj ht ▸ hu)
      · exact hs.closed t d' ht u hu
    · simp [Has, TypeStore.size, push]

theorem mem_insertId {t u : TypeId} {ts : List TypeId} (h : u ∈ insertId t ts) : u = t ∨ u ∈ ts := by
  induction ts with
  | nil => exact .inl (List.mem_singleton.1 h)
  | cons v ts ih =>
    unfold insertId at h
    split at h
    · exact List.mem_cons.1 h
    · split at h
      · exact .inr h
      · rcases List.mem_cons.1 h with rfl | h
        · exact .inr List.mem_cons_self
        · exact (ih h).imp_right (List.mem_cons_of_mem v)

theorem mem_sortIds {u : TypeId} {ts : List TypeId} (h : u ∈ sortIds ts) : u ∈ ts := by
  induction ts with
  | nil => exact h
  | cons t ts ih =>
    rcases mem_insertId h with rfl | h
    · exact List.mem_cons_self
    · exact List.mem_cons_of_mem t (ih h)

theorem unionMembers_has (hs : s.WellFormed) {ts : List TypeId} (h : ∀ t ∈ ts, s.Has t) :
    ∀ u ∈ s.unionMembers ts, s.Has u := by
  intro u hu
  obtain ⟨t, ht, hu⟩ := List.mem_flatMap.1 hu
  split at hu
  · next members hm => exact hs.closed t _ hm u hu
  · rw [List.mem_singleton.1 hu]
    exact h t ht

theorem unionOf_grows (hs : s.WellFormed) {ts : List TypeId} (h : ∀ t ∈ ts, s.Has t) :
    Grows s Has (unionOf ts) := by
  have hu := unionMembers_has hs h
  have hm : ∀ u ∈ sortIds ((s.unionMembers ts).filter (· ≠ .never)), s.Has u := fun u hu' =>
    hu u (List.mem_filter.1 (mem_sortIds hu')).1
  have hany : s.Has .any := hs.has_intrinsic rfl
  have hunknown : s.Has .unknown := hs.has_intrinsic rfl
  have hnever : s.Has .never := hs.has_intrinsic rfl
  have hget : Grows s (fun s' a => a = s ∧ s' = s) (get : TypeM TypeStore) :=
    ⟨hs, .refl s, rfl, rfl⟩
  unfold unionOf
  apply hget.bind
  rintro a s' hs' - ⟨rfl, rfl⟩
  dsimp only
  split
  · exact .pure hs' hany
  · split
    · exact .pure hs' hunknown
    · split
      · exact .pure hs' hnever
      · next t ht => exact .pure hs' (hm t (ht ▸ List.mem_cons_self))
      · exact intern_grows hs' hm

/-- The ids that a shape mentions as the type of its slots were handed out. -/
def HasElement (s : TypeStore) (shape : Shape) : Prop := ∀ e, shape.element? = some e → s.Has e

theorem arrayWith_hasElement {e : TypeId} (h : s.Has e) (members : Members) :
    HasElement s (.arrayWith e members) := by
  intro e' he
  unfold Shape.arrayWith at he
  split at he <;> exact Option.some.inj he ▸ h

theorem joinElements_grows (hs : s.WellFormed) {ts : List TypeId} (h : ∀ t ∈ ts, s.Has t) :
    Grows s Has (joinElements ts) := by
  unfold joinElements
  split
  · exact .pure hs (hs.has_intrinsic rfl)
  · exact .pure hs (h _ List.mem_cons_self)
  · exact unionOf_grows hs h

theorem elements_has {shapes : List Shape} (h : ∀ shape ∈ shapes, HasElement s shape) :
    ∀ t ∈ shapes.filterMap Shape.element?, s.Has t := by
  intro t ht
  obtain ⟨shape, hm, he⟩ := List.mem_filterMap.1 ht
  exact h shape hm t he

theorem unionShape_grows (hs : s.WellFormed) {shapes : List Shape}
    (h : ∀ shape ∈ shapes, HasElement s shape) : Grows s HasElement (unionShape shapes) := by
  unfold unionShape
  split
  · apply (joinElements_grows hs (elements_has h)).bind
    intro e s' hs' _ he
    exact .pure hs' (arrayWith_hasElement he _)
  · split
    · exact .pure hs nofun
    · exact .pure hs nofun

theorem intersectionShape_grows (hs : s.WellFormed) {shapes : List Shape}
    (h : ∀ shape ∈ shapes, HasElement s shape) : Grows s HasElement (intersectionShape shapes) := by
  unfold intersectionShape
  split
  · apply Grows.pure hs
    split <;> nofun
  · apply (joinElements_grows hs (elements_has h)).bind
    intro e s' hs' _ he
    exact .pure hs' (arrayWith_hasElement he _)

theorem interfaceShape_grows (hs : s.WellFormed) {bases : List Shape}
    (h : ∀ shape ∈ bases, HasElement s shape) (properties : List Property) :
    Grows s HasElement (interfaceShape bases properties) := by
  unfold interfaceShape
  dsimp only
  split
  · exact .pure hs nofun
  · apply (joinElements_grows hs (elements_has h)).bind
    intro e s' hs' _ he
    exact .pure hs' (arrayWith_hasElement he _)

theorem mapM_grows {f : TypeId → TypeM Shape}
    (hf : ∀ s t, s.WellFormed → s.Has t → Grows s HasElement (f t)) (hs : s.WellFormed)
    {ts : List TypeId} (ht : ∀ t ∈ ts, s.Has t) :
    Grows s (fun s shapes => ∀ shape ∈ shapes, HasElement s shape) (ts.mapM f) := by
  induction ts generalizing s with
  | nil => exact .pure hs nofun
  | cons t ts ih =>
    rw [List.mapM_cons]
    apply (hf s t hs (ht t List.mem_cons_self)).bind
    intro shape s₁ hs₁ he₁ h₁
    apply (ih hs₁ fun u hu => he₁.has (ht u (List.mem_cons_of_mem t hu))).bind
    intro shapes s₂ hs₂ he₂ h₂
    apply Grows.pure hs₂
    intro shape' hm
    rcases List.mem_cons.1 hm with rfl | hm
    · exact fun e he => he₂.has (h₁ e he)
    · exact h₂ shape' hm

theorem shapeAt_grows (room : Nat) {t : TypeId} (hs : s.WellFormed) (ht : s.Has t) :
    Grows s HasElement (shapeAt room t) := by
  induction room generalizing s t with
  | zero => exact .pure hs nofun
  | succ room ih =>
    have hmap {ts : List TypeId} (hts : ∀ u ∈ ts, s.Has u) :=
      mapM_grows (fun s t hs ht => ih hs ht) hs hts
    cases hd : s.get? t with
    | none => exact .congr (shapeAt_of_none _ hd) (.pure hs nofun)
    | some d =>
      have hm := hs.closed t d hd
      apply Grows.congr (shapeAt_of_get? room hd)
      cases d with
      | array element =>
        apply Grows.pure hs
        intro e he
        exact Option.some.inj he ▸ hm element List.mem_cons_self
      | tuple elements =>
        cases elements with
        | nil => exact .pure hs fun e he => Option.some.inj he ▸ hs.has_intrinsic rfl
        | cons first rest =>
          apply (unionOf_grows hs hm).bind
          intro e s' hs' _ he
          exact .pure hs' fun e' he' => Option.some.inj he' ▸ he
      | union members =>
        apply (hmap hm).bind
        intro shapes s' hs' _ h
        exact unionShape_grows hs' h
      | intersection members =>
        apply (hmap hm).bind
        intro shapes s' hs' _ h
        exact intersectionShape_grows hs' h
      | interface name bases properties =>
        apply (hmap fun u hu => hm u (List.mem_append_left _ hu)).bind
        intro shapes s' hs' _ h
        exact interfaceShape_grows hs' h properties
      | parameter name constraint =>
        cases constraint with
        | none => exact .pure hs nofun
        | some constraint => exact ih hs (hm constraint List.mem_cons_self)
      | _ => exact .pure hs nofun

end Grows

namespace Shape

/-- The shape without the type of its slots. -/
def outline : Shape → Shape
  | array _ => array .unknown
  | hybrid _ members => hybrid .unknown members
  | shape => shape

theorem outline_isArrayLike (shape : Shape) : shape.outline.isArrayLike = shape.isArrayLike := by
  cases shape <;> rfl

theorem outline_isRecord (shape : Shape) : shape.outline.isRecord = shape.isRecord := by
  cases shape <;> rfl

theorem outline_members (shape : Shape) : shape.outline.members = shape.members := by
  cases shape <;> rfl

theorem arrayWith_outline (e : TypeId) (members : Members) :
    (arrayWith e members).outline = arrayWith .unknown members := by
  unfold arrayWith
  split <;> rfl

/-- Shapes with one outline have the same members. -/
theorem member?_of_outline {shape shape' : Shape} (h : shape.outline = shape'.outline)
    (name : String) : shape.member? name = shape'.member? name := by
  rw [member?, member?, ← shape.outline_members, h, outline_members]

theorem isArrayLike_of_outline {shape shape' : Shape} (h : shape.outline = shape'.outline) :
    shape.isArrayLike = shape'.isArrayLike := by
  rw [← shape.outline_isArrayLike, h, outline_isArrayLike]

end Shape

section Outline

variable {shapes shapes' : List Shape}

theorem inherited_outline (shapes : List Shape) : inherited (shapes.map Shape.outline) = inherited shapes := by
  unfold inherited
  rw [List.foldl_map]
  simp only [Shape.outline_members]

theorem common_outline (shapes : List Shape) : common (shapes.map Shape.outline) = common shapes := by
  cases shapes with
  | nil => rfl
  | cons first rest =>
    simp only [List.map_cons, common, Shape.outline_members, List.all_map]
    congr 1
    funext name
    congr 1
    funext shape
    simp only [Function.comp, Shape.member?, Shape.outline_members]

theorem common_eq (h : shapes.map Shape.outline = shapes'.map Shape.outline) :
    common shapes = common shapes' := by
  rw [← common_outline shapes, h, common_outline]

theorem all_outline {p : Shape → Bool} (hp : ∀ shape, p shape.outline = p shape)
    (h : shapes.map Shape.outline = shapes'.map Shape.outline) : shapes.all p = shapes'.all p := by
  have ha (shapes : List Shape) : (shapes.map Shape.outline).all p = shapes.all p := by
    rw [List.all_map]
    congr 1
    exact funext hp
  rw [← ha shapes, h, ha]

theorem elements_isEmpty (shapes : List Shape) :
    shapes.filterMap Shape.element? = [] ↔ shapes.all (fun shape => !shape.isArrayLike) := by
  rw [List.filterMap_eq_nil_iff, List.all_eq_true]
  simp only [Shape.isArrayLike, Bool.not_eq_true', Option.isSome_eq_false_iff, Option.isNone_iff_eq_none]

theorem unionShape_outline (h : shapes.map Shape.outline = shapes'.map Shape.outline)
    (s s' : TypeStore) : (unionShape shapes s).1.outline = (unionShape shapes' s').1.outline := by
  have ha := all_outline Shape.outline_isArrayLike h
  have hr := all_outline Shape.outline_isRecord h
  unfold unionShape
  rw [ha, hr, common_eq h]
  split
  · exact (Shape.arrayWith_outline _ _).trans (Shape.arrayWith_outline _ _).symm
  · split <;> rfl

theorem elements_outline (h : shapes.map Shape.outline = shapes'.map Shape.outline) :
    shapes.filterMap Shape.element? = [] ↔ shapes'.filterMap Shape.element? = [] := by
  rw [elements_isEmpty, elements_isEmpty, all_outline _ h]
  intro shape
  rw [Shape.outline_isArrayLike]

theorem inherited_eq (h : shapes.map Shape.outline = shapes'.map Shape.outline) :
    inherited shapes = inherited shapes' := by
  rw [← inherited_outline shapes, h, inherited_outline]

/-- What has slots has its outline decided by its members. -/
theorem slots_outline {elements elements' : List TypeId} (he : elements = [] ↔ elements' = [])
    {none none' : TypeM Shape} {members : Members} (s s' : TypeStore)
    (hn : (none s).1.outline = (none' s').1.outline) :
    ((match elements with
      | [] => none
      | elements => do
        let element ← joinElements elements
        return .arrayWith element members) s).1.outline =
    ((match elements' with
      | [] => none'
      | elements => do
        let element ← joinElements elements
        return .arrayWith element members) s').1.outline := by
  cases elements with
  | nil =>
    rw [he.1 rfl]
    exact hn
  | cons e es =>
    cases elements' with
    | nil => exact absurd (he.2 rfl) nofun
    | cons e' es' => exact (Shape.arrayWith_outline _ _).trans (Shape.arrayWith_outline _ _).symm

theorem intersectionShape_outline (h : shapes.map Shape.outline = shapes'.map Shape.outline)
    (s s' : TypeStore) :
    (intersectionShape shapes s).1.outline = (intersectionShape shapes' s').1.outline := by
  have hr : shapes.any Shape.isRecord = shapes'.any Shape.isRecord := by
    rw [List.any_eq_not_all_not, List.any_eq_not_all_not, all_outline _ h]
    intro shape
    rw [Shape.outline_isRecord]
  unfold intersectionShape
  rw [inherited_eq h, hr]
  exact slots_outline (elements_outline h) s s' rfl

theorem interfaceShape_outline (h : shapes.map Shape.outline = shapes'.map Shape.outline)
    (properties : List Property) (s s' : TypeStore) :
    (interfaceShape shapes properties s).1.outline =
      (interfaceShape shapes' properties s').1.outline := by
  unfold interfaceShape
  rw [inherited_eq h]
  exact slots_outline (elements_outline h) s s' rfl

theorem mapM_outline {f : TypeId → TypeM Shape} {base : TypeStore}
    (hf : ∀ s t, s.WellFormed → base.Extends s → base.Has t →
      Grows s HasElement (f t) ∧ (f t s).1.outline = (f t base).1.outline)
    {s : TypeStore} (hs : s.WellFormed) (hb : base.Extends s) {ts : List TypeId}
    (ht : ∀ t ∈ ts, base.Has t) :
    (ts.mapM f s).1.map Shape.outline = ts.map fun t => (f t base).1.outline := by
  induction ts generalizing s with
  | nil => rfl
  | cons t ts ih =>
    obtain ⟨⟨hs₁, he₁, -⟩, ho⟩ := hf s t hs hb (ht t List.mem_cons_self)
    have hrest := ih hs₁ (hb.trans he₁) fun u hu => ht u (List.mem_cons_of_mem t hu)
    rw [List.mapM_cons]
    change (f t s).1.outline :: (ts.mapM f (f t s).2).1.map Shape.outline = _
    rw [ho, hrest, List.map_cons]

theorem shapeAt_outline (room : Nat) {base s : TypeStore} {t : TypeId} (hw : base.WellFormed)
    (hs : s.WellFormed) (hb : base.Extends s) (ht : base.Has t) :
    (shapeAt room t s).1.outline = (shapeAt room t base).1.outline := by
  induction room generalizing s t with
  | zero => rfl
  | succ room ih =>
    have hmap {ts : List TypeId} (hts : ∀ u ∈ ts, base.Has u) :
        (ts.mapM (shapeAt room) s).1.map Shape.outline =
          (ts.mapM (shapeAt room) base).1.map Shape.outline := by
      have hf : ∀ s t, s.WellFormed → base.Extends s → base.Has t →
          Grows s HasElement (shapeAt room t) ∧
            (shapeAt room t s).1.outline = (shapeAt room t base).1.outline :=
        fun s t hs hb ht => ⟨shapeAt_grows room hs (hb.has ht), ih hs hb ht⟩
      rw [mapM_outline hf hs hb hts, mapM_outline hf hw (.refl base) hts]
    have hget := hb.get? ht
    cases hd : base.get? t with
    | none => rw [shapeAt_of_none _ hd, shapeAt_of_none _ (hget.trans hd)]
    | some d =>
      have hm := hw.closed t d hd
      rw [shapeAt_of_get? room hd, shapeAt_of_get? room (hget.trans hd)]
      cases d with
      | tuple elements => cases elements <;> rfl
      | union members => exact unionShape_outline (hmap hm) _ _
      | intersection members => exact intersectionShape_outline (hmap hm) _ _
      | interface name bases properties =>
        exact interfaceShape_outline (hmap fun u hu => hm u (List.mem_append_left _ hu)) _ _ _
      | parameter name constraint =>
        cases constraint with
        | none => rfl
        | some constraint => exact ih hs hb (hm constraint List.mem_cons_self)
      | _ => rfl

/-- A type keeps the outline of its shape while the store grows. -/
theorem shapeOf_outline {base s : TypeStore} {t : TypeId} (hw : base.WellFormed)
    (hs : s.WellFormed) (hb : base.Extends s) (ht : base.Has t) :
    (shapeOf t s).1.outline = (shapeOf t base).1.outline :=
  shapeAt_outline maxShapeDepth hw hs hb ht

theorem shapeOf_grows {s : TypeStore} {t : TypeId} (hs : s.WellFormed) (ht : s.Has t) :
    Grows s HasElement (shapeOf t) := shapeAt_grows maxShapeDepth hs ht

/-- No value of a numeric leaf type is a string. -/
theorem isStringLike_of_isNumber {s : TypeStore} {t : TypeId}
    (h : (s.get? t).any TypeData.isNumber) : s.isStringLike t = false := by
  unfold TypeStore.isStringLike madeOf madeOfAt
  cases hd : s.get? t with
  | none => rfl
  | some d =>
    rw [hd, Option.any_some] at h
    cases d with
    | intrinsic kind => cases kind <;> first | rfl | cases h
    | numberLiteral text => rfl
    | _ => cases h

end Outline

end ScriptToLua
