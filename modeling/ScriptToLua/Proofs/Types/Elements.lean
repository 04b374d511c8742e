import Mathlib
import ScriptToLua.Proofs.Types.ArrayLike
import ScriptToLua.Proofs.Types.Join

/-!
The type of the slots of an array-like type. In a store that was made by the constructors of types it
is the union of all element types that contribute to it, however they are nested:
`shapeOf_element_isUnion`. So indexing never narrows.
-/

namespace ScriptToLua

open TypeStore

/-- Unions and intersections, which have constructors of their own. -/
def TypeData.isGroup : TypeData → Bool
  | union _ | intersection _ => true
  | _ => false

/-- The store was made by constructors of types, each applied to types that were handed out. -/
inductive Constructed : TypeStore → Prop
  | initial : Constructed .initial
  | stored {s : TypeStore} {d : TypeData} (hs : Constructed s) (hd : ∀ u ∈ d.mentions, s.Has u)
    (hg : d.isGroup = false) : Constructed (intern d s).2
  | union {s : TypeStore} {ts : List TypeId} (hs : Constructed s) (ht : ∀ t ∈ ts, s.Has t) :
    Constructed (unionOf ts s).2
  | intersection {s : TypeStore} {ts : List TypeId} (hs : Constructed s) (ht : ∀ t ∈ ts, s.Has t) :
    Constructed (intersectionOf ts s).2

theorem initial_normal : TypeStore.initial.Normal where
  wellFormed := initial_wellFormed
  distinct := by
    have hall : ∀ i j : Fin initial.types.size,
        initial.types[i] = initial.types[j] → i = j := by decide
    rintro ⟨i⟩ ⟨j⟩ d hi hj
    obtain ⟨hi', hi⟩ := Array.getElem?_eq_some_iff.1 hi
    obtain ⟨hj', hj⟩ := Array.getElem?_eq_some_iff.1 hj
    have heq := hall ⟨i, hi'⟩ ⟨j, hj'⟩ (hi.trans hj.symm)
    exact congrArg TypeId.mk (Fin.mk.inj heq)
  union := by
    intro t members h
    have hall : ∀ d ∈ initial.types.toList, d.isGroup = false := by decide
    cases hall _ (Array.mem_toList_iff.2 (Array.mem_of_getElem? h))

theorem TypeStore.Normal.normal_intersectionOf {s : TypeStore} (hs : s.Normal) {ts : List TypeId}
    (ht : ∀ t ∈ ts, s.Has t) : (intersectionOf ts s).2.Normal := by
  have hmembers : ∀ u ∈ sortIds (s.intersectionMembers ts), s.Has u := by
    intro u hu
    obtain ⟨t, htm, hu⟩ := List.mem_flatMap.1 (mem_sortIds_iff.1 hu)
    split at hu
    · next members hd => exact hs.wellFormed.closed t _ hd u hu
    · exact List.mem_singleton.1 hu ▸ ht t htm
  unfold intersectionOf
  simp only [bind, StateT.bind, get, getThe, MonadStateOf.get, StateT.get, pure]
  split
  · exact hs
  · generalize sortIds (s.intersectionMembers ts) = members at hmembers
    cases members with
    | nil => exact hs
    | cons t rest =>
      cases rest with
      | nil => exact hs
      | cons u rest =>
        exact hs.normal_intern (d := .intersection _) hmembers fun _ h => by cases h

/-- The constructors keep every type in its normal form. -/
theorem Constructed.normal {s : TypeStore} (h : Constructed s) : s.Normal := by
  induction h with
  | initial => exact initial_normal
  | stored _ hd hg ih =>
    refine ih.normal_intern hd ?_
    rintro members rfl
    cases hg
  | union _ ht ih => exact (ih.joined_unionOf ht).1
  | intersection _ ht ih => exact ih.normal_intersectionOf ht

/-- The types whose shapes the shape of a type is made of. -/
def TypeData.parts : TypeData → List TypeId
  | union members | intersection members => members
  | interface _ bases _ => bases
  | parameter _ constraint => constraint.toList
  | _ => []

theorem TypeStore.WellFormed.parts_has {s : TypeStore} {t : TypeId} {d : TypeData} (hs : s.WellFormed)
    (hd : s.get? t = some d) : ∀ u ∈ d.parts, s.Has u := by
  intro u hu
  apply hs.closed t d hd u
  cases d with
  | union members => exact hu
  | intersection members => exact hu
  | interface name bases properties => exact List.mem_append_left _ hu
  | parameter name constraint => exact hu
  | _ => cases hu

/-- Types are nested in the type at most `n` levels deep, the type itself counted. -/
def TypeStore.nestsWithin (s : TypeStore) : (n : Nat) → TypeId → Bool
  | 0, _ => false
  | n + 1, t => (((s.get? t).map TypeData.parts).getD []).all (s.nestsWithin n)

/-- The second type is an element type that contributes to the slots of the first. -/
inductive Contributes (s : TypeStore) : TypeId → TypeId → Prop
  | array {t e : TypeId} (h : s.get? t = some (.array e)) : Contributes s t e
  | emptyTuple {t : TypeId} (h : s.get? t = some (.tuple [])) : Contributes s t .unknown
  | tuple {t e : TypeId} {elements : List TypeId} (h : s.get? t = some (.tuple elements))
    (he : e ∈ elements) : Contributes s t e
  | union {t m e : TypeId} {members : List TypeId} (h : s.get? t = some (.union members))
    (hm : m ∈ members) (he : Contributes s m e) : Contributes s t e
  | intersection {t m e : TypeId} {members : List TypeId} {n : Nat}
    (h : s.get? t = some (.intersection members)) (hm : m ∈ members)
    (ha : ArrayLikeWithin s n m) (he : Contributes s m e) : Contributes s t e
  | interface {t b e : TypeId} {name : String} {bases : List TypeId} {properties : List Property}
    {n : Nat} (h : s.get? t = some (.interface name bases properties)) (hb : b ∈ bases)
    (ha : ArrayLikeWithin s n b) (he : Contributes s b e) : Contributes s t e
  | parameter {t c e : TypeId} {name : String} (h : s.get? t = some (.parameter name (some c)))
    (he : Contributes s c e) : Contributes s t e

section Nesting

variable {s : TypeStore} {n k : Nat} {t : TypeId} {d : TypeData}

theorem nestsWithin_parts (h : s.nestsWithin (n + 1) t) (hd : s.get? t = some d) :
    ∀ u ∈ d.parts, s.nestsWithin n u := by
  rw [nestsWithin, hd] at h
  exact List.all_eq_true.1 h

/-- No derivation goes deeper than types are nested. -/
theorem ArrayLikeWithin.of_nestsWithin (h : ArrayLikeWithin s k t) (hn : s.nestsWithin n t) :
    ArrayLikeWithin s n t := by
  induction n generalizing k t with
  | zero => cases hn
  | succ n ih =>
    cases h with
    | array h => exact .array h
    | tuple h => exact .tuple h
    | union h hm => exact .union h fun m hmem => ih (hm m hmem) (nestsWithin_parts hn h m hmem)
    | intersection h hm ha => exact .intersection h hm (ih ha (nestsWithin_parts hn h _ hm))
    | interface h hb ha => exact .interface h hb (ih ha (nestsWithin_parts hn h _ hb))
    | parameter h ha =>
      exact .parameter h (ih ha (nestsWithin_parts hn h _ List.mem_cons_self))

end Nesting

/-- The list has just the element types that contribute to the slots of a type. -/
def IsLeaves (s : TypeStore) (t : TypeId) (l : List TypeId) : Prop := ∀ e, e ∈ l ↔ Contributes s t e

theorem Contributes.has {s : TypeStore} (hs : s.WellFormed) {t e : TypeId}
    (h : Contributes s t e) : s.Has e := by
  induction h with
  | array h => exact hs.closed _ _ h _ List.mem_cons_self
  | emptyTuple h => exact hs.has_intrinsic rfl
  | tuple h he => exact hs.closed _ _ h _ he
  | union _ _ _ ih => exact ih
  | intersection _ _ _ _ ih => exact ih
  | interface _ _ _ _ ih => exact ih
  | parameter _ _ ih => exact ih

/-- The element types that the rule for a type takes from it. -/
def TypeData.Gives (s : TypeStore) (e : TypeId) : TypeData → Prop
  | array element => e = element
  | tuple [] => e = .unknown
  | tuple elements => e ∈ elements
  | union members => ∃ m ∈ members, Contributes s m e
  | intersection members => ∃ m ∈ members, (∃ n, ArrayLikeWithin s n m) ∧ Contributes s m e
  | interface _ bases _ => ∃ b ∈ bases, (∃ n, ArrayLikeWithin s n b) ∧ Contributes s b e
  | parameter _ (some c) => Contributes s c e
  | _ => False

theorem contributes_iff {s : TypeStore} {t e : TypeId} {d : TypeData} (hd : s.get? t = some d) :
    Contributes s t e ↔ d.Gives s e := by
  constructor
  · intro h
    cases h with
    | array h =>
      cases hd.symm.trans h
      rfl
    | emptyTuple h =>
      cases hd.symm.trans h
      rfl
    | @tuple _ _ elements h he =>
      cases hd.symm.trans h
      cases elements with
      | nil => cases he
      | cons u us => exact he
    | union h hm he =>
      cases hd.symm.trans h
      exact ⟨_, hm, he⟩
    | intersection h hm ha he =>
      cases hd.symm.trans h
      exact ⟨_, hm, ⟨_, ha⟩, he⟩
    | interface h hb ha he =>
      cases hd.symm.trans h
      exact ⟨_, hb, ⟨_, ha⟩, he⟩
    | parameter h he =>
      cases hd.symm.trans h
      exact he
  · intro h
    cases d with
    | array element => exact (h : e = element) ▸ .array hd
    | tuple elements =>
      cases elements with
      | nil => exact (h : e = .unknown) ▸ .emptyTuple hd
      | cons u us => exact .tuple hd h
    | union members =>
      obtain ⟨m, hm, he⟩ := h
      exact .union hd hm he
    | intersection members =>
      obtain ⟨m, hm, ⟨n, ha⟩, he⟩ := h
      exact .intersection hd hm ha he
    | interface name bases properties =>
      obtain ⟨b, hb, ⟨n, ha⟩, he⟩ := h
      exact .interface hd hb ha he
    | parameter name constraint =>
      cases constraint with
      | none => exact h.elim
      | some c => exact .parameter hd h
    | _ => exact h.elim

section Joins

variable {base s : TypeStore} {n : Nat} {t : TypeId} {ts es : List TypeId}

/-- Several element types become one that joins to the same. -/
theorem joinElements_joined (hs : s.Normal) (he : ∀ e ∈ es, s.Has e) (hne : es ≠ []) :
    (joinElements es s).2.Normal ∧
      (joinElements es s).2.joined [(joinElements es s).1] = (joinElements es s).2.joined es := by
  match es with
  | [] => exact absurd rfl hne
  | [e] => exact ⟨hs, rfl⟩
  | e :: e' :: rest =>
    obtain ⟨hnormal, hjoined⟩ := hs.joined_unionOf he
    obtain ⟨-, hextends, -⟩ := unionOf_grows hs.wellFormed he
    exact ⟨hnormal, hjoined.trans (hextends.joined he).symm⟩

/-- Working out the shape keeps the store normal, and slots have the join of the element types that
contribute to `t` in the first store. -/
def Joins (base s : TypeStore) (t : TypeId) (act : TypeM Shape) : Prop :=
  (act s).2.Normal ∧ ∀ e, (act s).1.element? = some e →
    ∃ l, IsLeaves base t l ∧ (act s).2.joined [e] = (act s).2.joined l

theorem Joins.of_element?_none {act : TypeM Shape} (hn : (act s).2.Normal)
    (h : (act s).1.element? = none) : Joins base s t act :=
  ⟨hn, fun e he => by cases h.symm.trans he⟩

theorem element?_arrayWith (e : TypeId) (members : Members) :
    (Shape.arrayWith e members).element? = some e := by
  unfold Shape.arrayWith
  split <;> rfl

/-- Slots of several shapes have the join of what contributes to each. -/
theorem Joins.of_slots (hb : base.Normal) (hs : s.Normal) (hbs : base.Extends s) {l : List TypeId}
    (hl : IsLeaves base t l) (he : ∀ e ∈ es, s.Has e) (hne : es ≠ [])
    (hj : s.joined es = s.joined l) (members : Members) :
    Joins base s t (do
      let element ← joinElements es
      return .arrayWith element members) := by
  obtain ⟨hnormal, hjoined⟩ := joinElements_joined hs he hne
  obtain ⟨-, hextends, -⟩ := joinElements_grows hs.wellFormed he
  refine ⟨hnormal, fun e h => ⟨l, hl, ?_⟩⟩
  obtain rfl := Option.some.inj ((element?_arrayWith _ members).symm.trans h)
  have hhas : ∀ u ∈ l, s.Has u := fun u hu => hbs.has (((hl u).1 hu).has hb.wellFormed)
  exact hjoined.trans ((hextends.joined he).trans (hj.trans (hextends.joined hhas).symm))

/-- What has been worked out about the shapes of several types. -/
structure PartsJoin (base : TypeStore) (n : Nat) (ts : List TypeId) (shapes : List Shape)
    (s : TypeStore) : Prop where
  normal : s.Normal
  extends_ : base.Extends s
  has : ∀ e ∈ shapes.filterMap Shape.element?, s.Has e
  like : List.Forall₂ (fun t shape => shape.isArrayLike ↔ ArrayLikeWithin base n t) ts shapes
  leaves : ∃ l, (∀ e, e ∈ l ↔ ∃ t ∈ ts, ArrayLikeWithin base n t ∧ Contributes base t e) ∧
    s.joined (shapes.filterMap Shape.element?) = s.joined l

section Parts

variable {shape : Shape} {shapes : List Shape} (h : PartsJoin base n ts shapes s)

include h

theorem PartsJoin.skip (hn : ¬ ArrayLikeWithin base n t) (he : shape.element? = none) :
    PartsJoin base n (t :: ts) (shape :: shapes) s := by
  obtain ⟨l, hl, hj⟩ := h.leaves
  have hes : (shape :: shapes).filterMap Shape.element? = shapes.filterMap Shape.element? :=
    List.filterMap_cons_none he
  have hlike : shape.isArrayLike ↔ ArrayLikeWithin base n t := by
    rw [Shape.isArrayLike, he]
    exact iff_of_false Bool.false_ne_true hn
  refine ⟨h.normal, h.extends_, hes ▸ h.has, .cons hlike h.like, l, fun e => ?_, hes ▸ hj⟩
  · rw [hl, List.exists_mem_cons_iff]
    exact (or_iff_right fun hc => hn hc.1).symm

theorem PartsJoin.cons (ha : ArrayLikeWithin base n t) {e : TypeId} (he : shape.element? = some e)
    (hhas : s.Has e) {l : List TypeId} (hl : IsLeaves base t l) (hj : s.joined [e] = s.joined l) :
    PartsJoin base n (t :: ts) (shape :: shapes) s := by
  obtain ⟨l', hl', hj'⟩ := h.leaves
  have hes : (shape :: shapes).filterMap Shape.element? = e :: shapes.filterMap Shape.element? :=
    List.filterMap_cons_some he
  have hlike : shape.isArrayLike ↔ ArrayLikeWithin base n t := by
    rw [Shape.isArrayLike, he]
    exact iff_of_true rfl ha
  refine ⟨h.normal, h.extends_, ?_, .cons hlike h.like, l ++ l', fun u => ?_, ?_⟩
  · rw [hes]
    exact List.forall_mem_cons.2 ⟨hhas, h.has⟩
  · rw [List.mem_append, hl u, hl' u, List.exists_mem_cons_iff]
    exact or_congr_left (and_iff_right ha).symm
  · rw [hes]
    exact joined_append hj hj'

omit h in
theorem all_isArrayLike_iff
    (h : List.Forall₂ (fun t shape => shape.isArrayLike ↔ ArrayLikeWithin base n t) ts shapes) :
    shapes.all Shape.isArrayLike ↔ ∀ t ∈ ts, ArrayLikeWithin base n t := by
  induction h with
  | nil => simp
  | cons ha _ ih => rw [List.all_cons, Bool.and_eq_true, ih, ha, List.forall_mem_cons]

omit h in
theorem elements_eq_nil_iff
    (h : List.Forall₂ (fun t shape => shape.isArrayLike ↔ ArrayLikeWithin base n t) ts shapes) :
    shapes.filterMap Shape.element? = [] ↔ ∀ t ∈ ts, ¬ ArrayLikeWithin base n t := by
  rw [elements_isEmpty]
  induction h with
  | nil => simp
  | cons ha _ ih =>
    rw [List.all_cons, Bool.and_eq_true, ih, List.forall_mem_cons, ← ha, Bool.not_eq_true',
      Bool.not_eq_true]

/-- Of types that are all array-like the slots hold what contributes to any of them. -/
theorem PartsJoin.unionShape (hb : base.Normal) (hts : ts ≠ [])
    (ht : base.get? t = some (.union ts)) : Joins base s t (unionShape shapes) := by
  obtain ⟨l, hl, hj⟩ := h.leaves
  unfold ScriptToLua.unionShape
  split
  · next hall =>
    have hlike := (all_isArrayLike_iff h.like).1 hall
    refine .of_slots hb h.normal h.extends_ (l := l) (fun e => ?_) h.has (fun hnil => ?_) hj _
    · rw [hl, contributes_iff ht]
      exact exists_congr fun m => and_congr_right fun hm => and_iff_right (hlike m hm)
    · obtain ⟨m, hm⟩ := List.exists_mem_of_ne_nil ts hts
      exact (elements_eq_nil_iff h.like).1 hnil m hm (hlike m hm)
  · split <;> exact .of_element?_none h.normal rfl

/-- Where only some types need be array-like the slots hold what contributes to those. -/
theorem PartsJoin.slots (hb : base.Normal) (hn : ∀ u ∈ ts, base.nestsWithin n u)
    (ht : ∀ e, Contributes base t e ↔
      ∃ u ∈ ts, (∃ k, ArrayLikeWithin base k u) ∧ Contributes base u e)
    {none : TypeM Shape} {members : Members} (hnone : Joins base s t none) :
    Joins base s t
      (match shapes.filterMap Shape.element? with
      | [] => none
      | elements => do
        let element ← joinElements elements
        return .arrayWith element members) := by
  obtain ⟨l, hl, hj⟩ := h.leaves
  have hhas := h.has
  have hleaves : IsLeaves base t l := by
    intro e
    rw [hl, ht]
    refine exists_congr fun u => and_congr_right fun hu => and_congr_left fun _ => ?_
    exact ⟨fun ha => ⟨n, ha⟩, fun ⟨k, ha⟩ => ha.of_nestsWithin (hn u hu)⟩
  cases hes : shapes.filterMap Shape.element? with
  | nil => exact hnone
  | cons e es =>
    rw [hes] at hj hhas
    exact .of_slots hb h.normal h.extends_ hleaves hhas (List.cons_ne_nil e es) hj members

end Parts

theorem mapM_partsJoin (hb : base.Normal)
    (h : ∀ s t, s.Normal → base.Extends s → t ∈ ts → Joins base s t (shapeAt n t))
    (ht : ∀ t ∈ ts, base.Has t) (hs : s.Normal) (hbs : base.Extends s) :
    PartsJoin base n ts (ts.mapM (shapeAt n) s).1 (ts.mapM (shapeAt n) s).2 := by
  induction ts generalizing s with
  | nil => exact ⟨hs, hbs, nofun, .nil, [], by simp, rfl⟩
  | cons t ts ih =>
    have htb := ht t List.mem_cons_self
    obtain ⟨hw, he, helement⟩ := shapeAt_grows n hs.wellFormed (hbs.has htb)
    obtain ⟨hnormal, hjoins⟩ := h s t hs hbs List.mem_cons_self
    have hlike : (shapeAt n t s).1.isArrayLike ↔ ArrayLikeWithin base n t := by
      rw [← shapeAt_isArrayLike hb.wellFormed n t, Shape.isArrayLike_of_outline
        (shapeAt_outline n hb.wellFormed hs.wellFormed hbs htb)]
    have hrest := ih (fun s t hs hbs hm => h s t hs hbs (List.mem_cons_of_mem _ hm))
      (fun t hm => ht t (List.mem_cons_of_mem _ hm)) hnormal (hbs.trans he)
    obtain ⟨-, he', -⟩ := mapM_grows (fun s t hs ht => shapeAt_grows n hs ht) hw
      fun u hu => (hbs.trans he).has (ht u (List.mem_cons_of_mem _ hu))
    have hrun : (t :: ts).mapM (shapeAt n) s =
        ((shapeAt n t s).1 :: (ts.mapM (shapeAt n) (shapeAt n t s).2).1,
          (ts.mapM (shapeAt n) (shapeAt n t s).2).2) := by
      rw [List.mapM_cons]
      rfl
    rw [hrun]
    cases hel : (shapeAt n t s).1.element? with
    | none =>
      refine hrest.skip (fun ha => ?_) hel
      rw [← hlike, Shape.isArrayLike, hel] at ha
      cases ha
    | some e =>
      obtain ⟨l, hl, hj⟩ := hjoins e hel
      have hhas : (shapeAt n t s).2.Has e := helement e hel
      have hleaves : ∀ u ∈ l, (shapeAt n t s).2.Has u := fun u hu =>
        (hbs.trans he).has (((hl u).1 hu).has hb.wellFormed)
      refine hrest.cons (hlike.1 ?_) hel (he'.has hhas) hl ?_
      · rw [Shape.isArrayLike, hel]
        rfl
      · rw [he'.joined (List.forall_mem_singleton.2 hhas), he'.joined hleaves, hj]

theorem shapeAt_joins (hb : base.Normal) (hs : s.Normal) (hbs : base.Extends s) (ht : base.Has t)
    (hn : base.nestsWithin n t) : Joins base s t (shapeAt n t) := by
  induction n generalizing s t with
  | zero => cases hn
  | succ n ih =>
    have hparts {d : TypeData} (hd : base.get? t = some d) (hm : ∀ u ∈ d.parts, base.Has u) :
        PartsJoin base n d.parts (d.parts.mapM (shapeAt n) s).1 (d.parts.mapM (shapeAt n) s).2 :=
      mapM_partsJoin hb (fun s u hs hbs hu => ih hs hbs (hm u hu) (nestsWithin_parts hn hd u hu)) hm
        hs hbs
    have hget := hbs.get? ht
    unfold Joins
    cases hd : base.get? t with
    | none =>
      rw [shapeAt_of_none _ (hget.trans hd)]
      exact Joins.of_element?_none hs rfl
    | some d =>
      have hm := hb.wellFormed.closed t d hd
      rw [shapeAt_of_get? n (hget.trans hd)]
      cases d with
      | array element =>
        refine ⟨hs, fun e he => ⟨[element], fun u => ?_, ?_⟩⟩
        · rw [contributes_iff hd]
          exact List.mem_singleton
        · rw [← Option.some.inj (he : some element = some e)]
      | tuple elements =>
        cases elements with
        | nil =>
          refine ⟨hs, fun e he => ⟨[.unknown], fun u => ?_, ?_⟩⟩
          · rw [contributes_iff hd]
            exact List.mem_singleton
          · rw [← Option.some.inj (he : some TypeId.unknown = some e)]
        | cons u us =>
          have hstored : ∀ v ∈ u :: us, s.Has v := fun v hv => hbs.has (hm v hv)
          obtain ⟨hnormal, hjoined⟩ := hs.joined_unionOf hstored
          obtain ⟨-, hextends, -⟩ := unionOf_grows hs.wellFormed hstored
          refine ⟨hnormal, fun e he => ⟨u :: us, fun v => (contributes_iff hd).symm, ?_⟩⟩
          rw [← Option.some.inj (he : some (unionOf (u :: us) s).1 = some e)]
          exact hjoined.trans (hextends.joined hstored).symm
      | union members =>
        have hseveral : 0 < members.length :=
          Nat.lt_of_lt_of_le Nat.zero_lt_two (hb.union t members hd).several
        exact (hparts hd hm).unionShape hb (List.ne_nil_of_length_pos hseveral) hd
      | intersection members =>
        have hp := hparts hd hm
        refine hp.slots hb (nestsWithin_parts hn hd) (fun e => contributes_iff hd) ?_
        refine .of_element?_none hp.normal ?_
        change (if _ then Shape.record _ else Shape.other).element? = none
        split <;> rfl
      | interface name bases properties =>
        have hp := hparts hd fun u hu => hm u (List.mem_append_left _ hu)
        exact hp.slots hb (nestsWithin_parts hn hd) (fun e => contributes_iff hd)
          (.of_element?_none hp.normal rfl)
      | parameter name constraint =>
        cases constraint with
        | none => exact Joins.of_element?_none hs rfl
        | some c =>
          have hc : c ∈ (TypeData.parameter name (some c)).parts := List.mem_cons_self
          obtain ⟨hnormal, hjoins⟩ :=
            ih hs hbs (hm c List.mem_cons_self) (nestsWithin_parts hn hd c hc)
          refine ⟨hnormal, fun e he => ?_⟩
          obtain ⟨l, hl, hj⟩ := hjoins e he
          exact ⟨l, fun u => (hl u).trans (contributes_iff hd).symm, hj⟩
      | _ => exact Joins.of_element?_none hs rfl

end Joins

/-- An array-like type has slots, and their type is the union of all element types that contribute to
it, in whatever order and however often they are listed. The union is stored by then. -/
theorem shapeOf_element_isUnion {s : TypeStore} (hs : Constructed s) {t : TypeId}
    (hn : s.nestsWithin 64 t) (ha : (shapeOf t s).1.isArrayLike) :
    (∃ l, IsLeaves s t l) ∧ ∃ e, (shapeOf t s).1.element? = some e ∧
      ∀ l, IsLeaves s t l → unionOf l (shapeOf t s).2 = (e, (shapeOf t s).2) := by
  have hnormal := hs.normal
  have hlike : ArrayLikeWithin s maxShapeDepth t :=
    (shapeAt_isArrayLike hnormal.wellFormed maxShapeDepth t).1 ha
  obtain ⟨d, hd⟩ := hlike.get?_isSome
  obtain ⟨hafter, hjoins⟩ := shapeAt_joins hnormal hnormal (.refl s) (has_of_get? hd) hn
  obtain ⟨e, he⟩ := Option.isSome_iff_exists.1 ha
  obtain ⟨l, hl, hj⟩ := hjoins e he
  refine ⟨⟨l, hl⟩, e, he, fun l' hl' => hafter.unionOf_eq (hj.trans ?_)⟩
  exact joined_congr fun u => (hl u).trans (hl' u).symm

/-- The parameter `T extends string[] & (number[] | [number, boolean])` comes last. -/
def nestedStore : TypeStore :=
  let s := (intern (.array .number) .initial).2
  let s := (intern (.array .string) s).2
  let s := (intern (.tuple [.number, .boolean]) s).2
  let s := (unionOf [⟨7⟩, ⟨9⟩] s).2
  let s := (intersectionOf [⟨8⟩, ⟨10⟩] s).2
  (intern (.parameter "T" (some ⟨11⟩)) s).2

theorem nestedStore_constructed : Constructed nestedStore := by
  have harrays : Constructed
      (intern (.array .string) (intern (.array .number) .initial).2).2 :=
    .stored (.stored .initial (by decide) rfl) (by decide +kernel) rfl
  have htuple := harrays.stored (d := .tuple [.number, .boolean]) (by decide +kernel) rfl
  have hunion : Constructed (unionOf [⟨7⟩, ⟨9⟩] _).2 := htuple.union (by decide +kernel)
  have hgroups : Constructed (intersectionOf [⟨8⟩, ⟨10⟩] _).2 :=
    hunion.intersection (by decide +kernel)
  exact hgroups.stored (d := .parameter "T" (some ⟨11⟩)) (by decide +kernel) rfl

/-- Joins at three levels, one of them under a parameter. -/
theorem shapeOf_element_isUnion_of_nested :
    Constructed nestedStore ∧ nestedStore.nestsWithin 64 ⟨12⟩ ∧
      (shapeOf ⟨12⟩ nestedStore).1.isArrayLike ∧ (∃ l, IsLeaves nestedStore ⟨12⟩ l) ∧
      ∃ e, (shapeOf ⟨12⟩ nestedStore).1.element? = some e ∧
        ∀ l, IsLeaves nestedStore ⟨12⟩ l →
          unionOf l (shapeOf ⟨12⟩ nestedStore).2 = (e, (shapeOf ⟨12⟩ nestedStore).2) := by
  have hn : nestedStore.nestsWithin 64 ⟨12⟩ := by decide +kernel
  have ha : (shapeOf ⟨12⟩ nestedStore).1.isArrayLike := by decide +kernel
  exact ⟨nestedStore_constructed, hn, ha, shapeOf_element_isUnion nestedStore_constructed hn ha⟩

end ScriptToLua
