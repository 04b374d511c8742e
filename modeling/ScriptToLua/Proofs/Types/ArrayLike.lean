import Mathlib
import ScriptToLua.Proofs.Types.Stability

/-!
Which types index like arrays. The shape of a type is array-like just where that can be derived in as
many levels as a shape takes into account, `shapeOf_isArrayLike`; types may contain themselves.
-/

namespace ScriptToLua

open TypeStore

/-- It can be derived in at most `n` levels that the type indexes like an array. -/
inductive ArrayLikeWithin (s : TypeStore) : (n : Nat) → TypeId → Prop
  | array {n : Nat} {t element : TypeId} (h : s.get? t = some (.array element)) :
    ArrayLikeWithin s (n + 1) t
  | tuple {n : Nat} {t : TypeId} {elements : List TypeId} (h : s.get? t = some (.tuple elements)) :
    ArrayLikeWithin s (n + 1) t
  | union {n : Nat} {t : TypeId} {members : List TypeId} (h : s.get? t = some (.union members))
    (hm : ∀ m ∈ members, ArrayLikeWithin s n m) : ArrayLikeWithin s (n + 1) t
  | intersection {n : Nat} {t m : TypeId} {members : List TypeId}
    (h : s.get? t = some (.intersection members)) (hm : m ∈ members)
    (ha : ArrayLikeWithin s n m) : ArrayLikeWithin s (n + 1) t
  | interface {n : Nat} {t b : TypeId} {name : String} {bases : List TypeId}
    {properties : List Property} (h : s.get? t = some (.interface name bases properties))
    (hb : b ∈ bases) (ha : ArrayLikeWithin s n b) : ArrayLikeWithin s (n + 1) t
  | parameter {n : Nat} {t c : TypeId} {name : String}
    (h : s.get? t = some (.parameter name (some c))) (ha : ArrayLikeWithin s n c) :
    ArrayLikeWithin s (n + 1) t

section Rules

variable {s : TypeStore} {n : Nat} {t : TypeId} {d : TypeData}

/-- What the rule for a type asks of the types that it is made of. -/
def TypeData.AsksOf (p : TypeId → Prop) : TypeData → Prop
  | array _ | tuple _ => True
  | union members => ∀ m ∈ members, p m
  | intersection members => ∃ m ∈ members, p m
  | interface _ bases _ => ∃ b ∈ bases, p b
  | parameter _ (some c) => p c
  | _ => False

/-- A derivation ends in the rule for its type. -/
theorem ArrayLikeWithin.rule (h : ArrayLikeWithin s (n + 1) t) (hd : s.get? t = some d) :
    d.AsksOf (ArrayLikeWithin s n) := by
  cases h with
  | array h =>
    cases hd.symm.trans h
    trivial
  | tuple h =>
    cases hd.symm.trans h
    trivial
  | union h hm =>
    cases hd.symm.trans h
    exact hm
  | intersection h hm ha =>
    cases hd.symm.trans h
    exact ⟨_, hm, ha⟩
  | interface h hb ha =>
    cases hd.symm.trans h
    exact ⟨_, hb, ha⟩
  | parameter h ha =>
    cases hd.symm.trans h
    exact ha

theorem ArrayLikeWithin.get?_isSome (h : ArrayLikeWithin s n t) : ∃ d, s.get? t = some d := by
  cases h with
  | array h => exact ⟨_, h⟩
  | tuple h => exact ⟨_, h⟩
  | union h _ => exact ⟨_, h⟩
  | intersection h _ _ => exact ⟨_, h⟩
  | interface h _ _ => exact ⟨_, h⟩
  | parameter h _ => exact ⟨_, h⟩

end Rules

section Shapes

variable {s : TypeStore} {shapes : List Shape}

theorem arrayWith_isArrayLike (e : TypeId) (members : Members) :
    (Shape.arrayWith e members).isArrayLike := by
  unfold Shape.arrayWith
  split <;> rfl

theorem unionShape_isArrayLike (s : TypeStore) :
    (unionShape shapes s).1.isArrayLike = shapes.all Shape.isArrayLike := by
  unfold unionShape
  cases h : shapes.all Shape.isArrayLike with
  | true => exact arrayWith_isArrayLike _ _
  | false =>
    rw [if_neg Bool.false_ne_true]
    split <;> rfl

/-- What has slots where any of the shapes has some. -/
theorem slots_isArrayLike {none : TypeM Shape} {members : Members} (s : TypeStore)
    (hn : (none s).1.isArrayLike = false) :
    ((match shapes.filterMap Shape.element? with
      | [] => none
      | elements => do
        let element ← joinElements elements
        return .arrayWith element members) s).1.isArrayLike = shapes.any Shape.isArrayLike := by
  have hempty := elements_isEmpty shapes
  rw [List.any_eq_not_all_not]
  cases h : shapes.filterMap Shape.element? with
  | nil => rw [hempty.1 h, hn, Bool.not_true]
  | cons e es =>
    have hall : (shapes.all fun shape => !shape.isArrayLike) = false := by
      rw [Bool.eq_false_iff]
      intro hall
      rw [hempty.2 hall] at h
      cases h
    rw [hall]
    exact arrayWith_isArrayLike _ _

theorem intersectionShape_isArrayLike (s : TypeStore) :
    (intersectionShape shapes s).1.isArrayLike = shapes.any Shape.isArrayLike := by
  apply slots_isArrayLike
  change (if shapes.any Shape.isRecord then Shape.record _ else Shape.other).isArrayLike = false
  split <;> rfl

theorem interfaceShape_isArrayLike (properties : List Property) (s : TypeStore) :
    (interfaceShape shapes properties s).1.isArrayLike = shapes.any Shape.isArrayLike :=
  slots_isArrayLike s rfl

/-- The shapes of several types are, apart from their elements, those of each type by itself. -/
theorem mapM_shapeAt_outline (n : Nat) (hs : s.WellFormed) {ts : List TypeId}
    (ht : ∀ t ∈ ts, s.Has t) :
    (ts.mapM (shapeAt n) s).1.map Shape.outline = ts.map fun t => (shapeAt n t s).1.outline :=
  mapM_outline (fun _ _ hs' he ht => ⟨shapeAt_grows n hs' (he.has ht), shapeAt_outline n hs hs' he ht⟩)
    hs (.refl s) ht

variable (n : Nat) (hs : s.WellFormed) {ts : List TypeId} (ht : ∀ t ∈ ts, s.Has t)

include hs ht

theorem mapM_shapeAt_all {p : Shape → Bool} (hp : ∀ shape, p shape.outline = p shape) :
    (ts.mapM (shapeAt n) s).1.all p = ts.all fun t => p (shapeAt n t s).1 := by
  have hmap := congrArg (fun shapes => shapes.all p) (mapM_shapeAt_outline n hs ht)
  simpa only [List.all_map, Function.comp_def, hp] using hmap

theorem mapM_shapeAt_any {p : Shape → Bool} (hp : ∀ shape, p shape.outline = p shape) :
    (ts.mapM (shapeAt n) s).1.any p = ts.any fun t => p (shapeAt n t s).1 := by
  have hmap := congrArg (fun shapes => shapes.any p) (mapM_shapeAt_outline n hs ht)
  simpa only [List.any_map, Function.comp_def, hp] using hmap

end Shapes

theorem shapeAt_isArrayLike {s : TypeStore} (hs : s.WellFormed) (n : Nat) (t : TypeId) :
    (shapeAt n t s).1.isArrayLike ↔ ArrayLikeWithin s n t := by
  induction n generalizing t with
  | zero => exact iff_of_false Bool.false_ne_true fun h => by cases h
  | succ n ih =>
    have hall {ts : List TypeId} (hts : ∀ u ∈ ts, s.Has u) :
        (ts.mapM (shapeAt n) s).1.all Shape.isArrayLike ↔ ∀ u ∈ ts, ArrayLikeWithin s n u := by
      rw [mapM_shapeAt_all n hs hts Shape.outline_isArrayLike, List.all_eq_true]
      exact forall₂_congr fun u _ => ih u
    have hany {ts : List TypeId} (hts : ∀ u ∈ ts, s.Has u) :
        (ts.mapM (shapeAt n) s).1.any Shape.isArrayLike ↔ ∃ u ∈ ts, ArrayLikeWithin s n u := by
      rw [mapM_shapeAt_any n hs hts Shape.outline_isArrayLike, List.any_eq_true]
      exact exists_congr fun u => and_congr_right fun _ => ih u
    cases hd : s.get? t with
    | none =>
      rw [shapeAt_of_none _ hd]
      refine iff_of_false Bool.false_ne_true fun h => ?_
      obtain ⟨d, hsome⟩ := h.get?_isSome
      cases hd.symm.trans hsome
    | some d =>
      have hm := hs.closed t d hd
      rw [shapeAt_of_get? n hd]
      cases d with
      | array element => exact ⟨fun _ => .array hd, fun _ => rfl⟩
      | tuple elements => exact ⟨fun _ => .tuple hd, fun _ => by cases elements <;> rfl⟩
      | union members =>
        refine (unionShape_isArrayLike _ ▸ hall hm).trans ⟨fun h => .union hd h, fun h => h.rule hd⟩
      | intersection members =>
        refine (intersectionShape_isArrayLike _ ▸ hany hm).trans ⟨?_, fun h => h.rule hd⟩
        rintro ⟨m, hmem, h⟩
        exact .intersection hd hmem h
      | interface name bases properties =>
        have hbases : ∀ b ∈ bases, s.Has b := fun b hb => hm b (List.mem_append_left _ hb)
        refine (interfaceShape_isArrayLike properties _ ▸ hany hbases).trans ⟨?_, fun h => h.rule hd⟩
        rintro ⟨b, hb, h⟩
        exact .interface hd hb h
      | parameter name constraint =>
        cases constraint with
        | none => exact iff_of_false Bool.false_ne_true fun h => h.rule hd
        | some c => exact (ih c).trans ⟨fun h => .parameter hd h, fun h => h.rule hd⟩
      | _ => exact iff_of_false Bool.false_ne_true fun h => h.rule hd

/-- A type is classified as array-like just where that can be derived in 64 levels: arrays and tuples
are array-like, a union whose members all are, an intersection that has a member that is, an
interface that has a base that is, and a parameter whose constraint is. -/
theorem shapeOf_isArrayLike {s : TypeStore} (hs : s.WellFormed) (t : TypeId) :
    (shapeOf t s).1.isArrayLike ↔ ArrayLikeWithin s 64 t :=
  shapeAt_isArrayLike hs maxShapeDepth t

/-- `interface Loop extends Loop, Array<number>` and the type parameter `T extends T`. -/
def loopStore : TypeStore :=
  ⟨TypeStore.initial.types ++
    #[.array .number, .interface "Loop" [⟨8⟩, ⟨7⟩] [], .parameter "T" (some ⟨9⟩)]⟩

theorem loopStore_wellFormed : loopStore.WellFormed :=
  wellFormed_of_mentions ⟨_, rfl⟩ (by decide)

/-- Of the types that contain themselves one is array-like in many ways and the other in none. -/
theorem shapeOf_isArrayLike_of_loop :
    loopStore.WellFormed ∧ ((shapeOf ⟨8⟩ loopStore).1.isArrayLike ↔ ArrayLikeWithin loopStore 64 ⟨8⟩) ∧
      ((shapeOf ⟨9⟩ loopStore).1.isArrayLike ↔ ArrayLikeWithin loopStore 64 ⟨9⟩) :=
  ⟨loopStore_wellFormed, shapeOf_isArrayLike loopStore_wellFormed ⟨8⟩,
    shapeOf_isArrayLike loopStore_wellFormed ⟨9⟩⟩

end ScriptToLua
