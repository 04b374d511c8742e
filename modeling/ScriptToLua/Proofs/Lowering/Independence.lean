import Mathlib
import ScriptToLua.Lowering.Expression
import ScriptToLua.Proofs.Types.Branches
import ScriptToLua.Proofs.Types.Nesting

/-!
An expression becomes the same code whatever types have been stored before it, as long as they are those
that typing and lowering store, and whatever room for nesting is left over: `expressionAt_coincide`.
-/

namespace ScriptToLua

open Source (Arena Node NodeId)

section Closure

variable {a : Arena} {P : NodeId → Prop} {levels : Nat} {id c : NodeId}

theorem nestsWithin_succ (h : a.nestsWithin levels id) : a.nestsWithin (levels + 1) id := by
  induction levels generalizing id with
  | zero => cases h
  | succ levels ih =>
    exact List.all_eq_true.2 fun c hc => ih (List.all_eq_true.1 h c hc)

/-- What is below an expression is nested no more deeply. -/
theorem nestsWithin_of_mem_children (h : a.nestsWithin levels id) (hc : c ∈ a.children id) :
    a.nestsWithin levels c := by
  obtain ⟨levels, rfl⟩ := exists_of_nestsWithin h
  exact nestsWithin_succ (List.all_eq_true.1 h c hc)

variable (hP : ∀ {id c : NodeId}, P id → c ∈ a.children id → P c)

include hP

theorem strip_closed (h : P id) : P (a.strip id) := by
  have hlayers (layers : Nat) (id : NodeId) (h : P id) : P (a.stripLayers layers id) := by
    induction layers generalizing id with
    | zero => exact h
    | succ layers ih =>
      rw [Arena.stripLayers]
      split
      · next inner hp =>
        exact ih inner (hP h (Arena.children_of_peel? hp ▸ List.mem_singleton_self inner))
      · exact h
  exact hlayers a.size id h

theorem underParens_closed (layers : Nat) (h : P id) : P (Lowering.underParens a layers id) := by
  induction layers generalizing id with
  | zero => exact h
  | succ layers ih =>
    rw [Lowering.underParens]
    split
    · next inner hn =>
      exact ih (hP h (Arena.children_of_get? hn ▸ List.mem_singleton_self inner))
    · exact h

end Closure

namespace Lowering

open Lua (Code Field)
open TypeStore

/-- In states whose stores have grown out of the two, both computations add to the stores, and their
results are related. -/
def Coincide {α α' : Type} (ctx : Context) (s s' : TypeStore)
    (R : TypeStore → TypeStore → α → α' → Prop) (act : LowerM α) (act' : LowerM α') : Prop :=
  ∀ st st' : State, s.Grown st.store → s'.Grown st'.store →
    st.store.Grown (act ctx st).2.store ∧ st'.store.Grown (act' ctx st').2.store ∧
      R (act ctx st).2.store (act' ctx st').2.store (act ctx st).1 (act' ctx st').1

/-- The results are equal. -/
abbrev Same {α : Type} : TypeStore → TypeStore → α → α → Prop := fun _ _ a a' => a = a'

namespace Coincide

variable {ctx : Context} {s s' : TypeStore} {α α' β β' γ : Type}
  {R : TypeStore → TypeStore → α → α' → Prop} {Q : TypeStore → TypeStore → β → β' → Prop}

theorem pure {a : α} {a' : α'} (h : ∀ r r', s.Grown r → s'.Grown r' → R r r' a a') :
    Coincide ctx s s' R (Pure.pure a) (Pure.pure a') :=
  fun st st' hr hr' => ⟨⟨hr.normal, .refl st.store⟩, ⟨hr'.normal, .refl st'.store⟩, h _ _ hr hr'⟩

theorem refl {a : α} : Coincide ctx s s' Same (Pure.pure a) (Pure.pure a) := .pure fun _ _ _ _ => rfl

theorem bind {act : LowerM α} {act' : LowerM α'} {next : α → LowerM β} {next' : α' → LowerM β'}
    (h : Coincide ctx s s' R act act')
    (hn : ∀ a a' r r', s.Grown r → s'.Grown r' → R r r' a a' →
      Coincide ctx r r' Q (next a) (next' a')) :
    Coincide ctx s s' Q (act >>= next) (act' >>= next') := by
  intro st st' hr hr'
  obtain ⟨hq, hq', ha⟩ := h st st' hr hr'
  obtain ⟨ho, ho', hb⟩ := hn _ _ _ _ (hr.trans hq) (hr'.trans hq') ha _ _
    ⟨hq.normal, .refl _⟩ ⟨hq'.normal, .refl _⟩
  exact ⟨hq.trans ho, hq'.trans ho', hb⟩

/-- What comes after computations with equal results. -/
theorem bind_same {act act' : LowerM γ} {next : γ → LowerM β} {next' : γ → LowerM β'}
    (h : Coincide ctx s s' Same act act')
    (hn : ∀ c r r', s.Grown r → s'.Grown r' → Coincide ctx r r' Q (next c) (next' c)) :
    Coincide ctx s s' Q (act >>= next) (act' >>= next') :=
  h.bind fun c _ r r' hr hr' hc => hc ▸ hn c r r' hr hr'

theorem mono {r r' : TypeStore} {act : LowerM α} {act' : LowerM α'}
    (h : Coincide ctx s s' R act act') (hr : s.Grown r) (hr' : s'.Grown r') :
    Coincide ctx r r' R act act' :=
  fun st st' hq hq' => h st st' (hr.trans hq) (hr'.trans hq')

/-- What runs like one of the computations can stand in its place. -/
theorem congr_right {act : LowerM α} {act' act'' : LowerM α'} (h : Coincide ctx s s' R act act'')
    (heq : ∀ st, act' ctx st = act'' ctx st) : Coincide ctx s s' R act act' := by
  intro st st' hr hr'
  rw [heq st']
  exact h st st' hr hr'

theorem withTypes {act : TypeM α} {act' : TypeM α'}
    (h : ∀ r r', s.Grown r → s'.Grown r' → InStep r r' R act act') :
    Coincide ctx s s' R (withTypes act) (withTypes act') :=
  fun st st' hr hr' => h st.store st'.store hr hr'

theorem askTypes {ask : TypeStore → α} {ask' : TypeStore → α'}
    (h : ∀ r r', s.Grown r → s'.Grown r' → R r r' (ask r) (ask' r')) :
    Coincide ctx s s' R (askTypes ask) (askTypes ask') :=
  fun st st' hr hr' => ⟨⟨hr.normal, .refl st.store⟩, ⟨hr'.normal, .refl st'.store⟩, h _ _ hr hr'⟩

/-- What comes after a look at the context. -/
theorem bind_read {next : Context → LowerM β} {next' : Context → LowerM β'}
    (h : Coincide ctx s s' Q (next ctx) (next' ctx)) :
    Coincide ctx s s' Q (read >>= next) (read >>= next') := h

theorem bind_read_left {next : Context → LowerM β} {act' : LowerM β'}
    (h : Coincide ctx s s' Q (next ctx) act') : Coincide ctx s s' Q (read >>= next) act' := h

/-- What comes after a look at a node. -/
theorem bind_node? {id : NodeId} {next : Option Node → LowerM β} {next' : Option Node → LowerM β'}
    (h : Coincide ctx s s' Q (next (ctx.arena.get? id)) (next' (ctx.arena.get? id))) :
    Coincide ctx s s' Q (node? id >>= next) (node? id >>= next') := h

theorem report (id id' : NodeId) (p p' : Problem) :
    Coincide ctx s s' Same (report id p) (report id' p') :=
  fun st st' hr hr' => ⟨⟨hr.normal, .refl st.store⟩, ⟨hr'.normal, .refl st'.store⟩, rfl⟩

theorem mapM {f f' : γ → LowerM α} {l : List γ}
    (h : ∀ c ∈ l, Coincide ctx s s' Same (f c) (f' c)) :
    Coincide ctx s s' Same (l.mapM f) (l.mapM f') := by
  induction l generalizing s s' with
  | nil => exact .refl
  | cons c l ih =>
    rw [List.mapM_cons, List.mapM_cons]
    refine (h c List.mem_cons_self).bind_same fun a r r' hr hr' => ?_
    refine (ih fun d hd => (h d (List.mem_cons_of_mem c hd)).mono hr hr').bind_same fun as _ _ _ _ => ?_
    exact .refl

end Coincide

/-- The keys are one key of the source, whose types in the two stores are counterparts. -/
inductive SameKey (base s s' : TypeStore) : AccessKey → AccessKey → Prop
  | named (name : String) : SameKey base s s' (.named name) (.named name)
  | element (index : Code) {t t' : TypeId} (h : Counterparts base s s' t t') :
    SameKey base s s' (.element index t) (.element index t')

theorem SameKey.mono {base s s' r r' : TypeStore} {k k' : AccessKey} (h : SameKey base s s' k k')
    (hr : s.Grown r) (hr' : s'.Grown r') : SameKey base r r' k k' := by
  cases h with
  | named name => exact .named name
  | element index ht => exact .element index (ht.mono hr hr')

/-- The accesses are one access of the source. -/
structure SameAccess (base s s' : TypeStore) (a a' : Access) : Prop where
  receiver : a.receiver = a'.receiver
  key : SameKey base s s' a.key a'.key
  shape : a.shape.outline = a'.shape.outline

namespace SameAccess

variable {base s s' r r' : TypeStore} {a a' : Access}

theorem mono (h : SameAccess base s s' a a') (hr : s.Grown r) (hr' : s'.Grown r') :
    SameAccess base r r' a a' where
  receiver := h.receiver
  shape := h.shape
  key := h.key.mono hr hr'

theorem plain_eq (h : SameAccess base s s' a a') : a.plain = a'.plain := by
  obtain ⟨e, key, shape⟩ := a
  obtain ⟨e', key', shape'⟩ := a'
  obtain ⟨rfl, hk, -⟩ := h
  cases hk <;> rfl

theorem member?_eq (h : SameAccess base s s' a a') : a.member? = a'.member? := by
  obtain ⟨e, key, shape⟩ := a
  obtain ⟨e', key', shape'⟩ := a'
  obtain ⟨rfl, hk, hs⟩ := h
  cases hk with
  | named name => exact Shape.member?_of_outline hs name
  | element index ht =>
    cases index with
    | string name => exact Shape.member?_of_outline hs name
    | _ => rfl

variable (hb : base.Normal) (hs : base.Grown s) (hs' : base.Grown s') (fold : Bool)

include hb hs hs'

theorem landing?_eq (h : SameAccess base s s' a a') : a.landing? s fold = a'.landing? s' fold := by
  obtain ⟨e, key, shape⟩ := a
  obtain ⟨e', key', shape'⟩ := a'
  obtain ⟨rfl, hk, hshape⟩ := h
  cases hk with
  | named name =>
    simp only [Access.landing?, Access.landNamed, Shape.isArrayLike_of_outline hshape,
      Shape.member?_of_outline hshape]
  | element index ht =>
    have htype := ht.isStringLike_eq hb hs hs'
    cases index with
    | string name =>
      simp only [Access.landing?, Access.landString, Shape.isArrayLike_of_outline hshape,
        Shape.member?_of_outline hshape]
    | _ =>
      simp only [Access.landing?, Access.landComputed, Shape.isArrayLike_of_outline hshape, htype]

theorem read_eq (h : SameAccess base s s' a a') : a.read s fold = a'.read s' fold := by
  rw [Access.read, Access.read, Access.read?, Access.read?, h.landing?_eq hb hs hs' fold, h.plain_eq,
    h.receiver]

theorem place_eq (h : SameAccess base s s' a a') : a.place s fold = a'.place s' fold := by
  rw [Access.place, Access.place, Access.place?, Access.place?, h.landing?_eq hb hs hs' fold, h.plain_eq]

theorem isLength_eq (h : SameAccess base s s' a a') : a.isLength s fold = a'.isLength s' fold := by
  rw [Access.isLength, Access.isLength, h.landing?_eq hb hs hs' fold]

end SameAccess

section Expressions

variable {ctx : Context} {base s s' : TypeStore} (hb : base.Normal)
  (hf : ctx.facts.Stored ctx.arena base) (hs : base.Grown s) (hs' : base.Grown s')

include hb hf hs hs' in
theorem typeOf_coincide (id : NodeId) :
    Coincide ctx s s' (Counterparts base) (typeOf id) (typeOf id) :=
  .bind_read (.withTypes fun _ _ hr hr' =>
    expressionType_inStep hb (hs.trans hr) (hs'.trans hr') hf id)

include hb hs hs'

theorem shapeOf_coincide {t t' : TypeId} (ht : Counterparts base s s' t t') :
    Coincide ctx s s' (SameShape base) (withTypes (shapeOf t)) (withTypes (shapeOf t')) :=
  .withTypes fun _ _ hr hr' => shapeOf_inStep hb (hs.trans hr) (hs'.trans hr')
    (ht.mono hr hr')

theorem isStringLike_coincide {t t' : TypeId} (ht : Counterparts base s s' t t') :
    Coincide ctx s s' Same (askTypes fun s => s.isStringLike t)
      (askTypes fun s => s.isStringLike t') :=
  .askTypes fun _ _ hr hr' => (ht.mono hr hr').isStringLike_eq hb (hs.trans hr)
    (hs'.trans hr')

theorem isNumberLike_coincide {t t' : TypeId} (ht : Counterparts base s s' t t') :
    Coincide ctx s s' Same (askTypes fun s => s.isNumberLike t)
      (askTypes fun s => s.isNumberLike t') :=
  .askTypes fun _ _ hr hr' => (ht.mono hr hr').isNumberLike_eq hb (hs.trans hr)
    (hs'.trans hr')

theorem ofType_coincide {t t' : TypeId} (ht : Counterparts base s s' t t') (e : Code)
    {k k' : AccessKey} (hk : SameKey base s s' k k') :
    Coincide ctx s s' (SameAccess base) (withTypes (Access.ofType e k t))
      (withTypes (Access.ofType e k' t')) := by
  have haccess (shape shape' : Shape) (r r' : TypeStore) (hr : s.Grown r) (hr' : s'.Grown r')
      (h : SameShape base r r' shape shape') :
      Coincide ctx r r' (SameAccess base) (pure ⟨e, k, shape⟩) (pure ⟨e, k', shape'⟩) :=
    have hsame : SameAccess base s s' ⟨e, k, shape⟩ ⟨e, k', shape'⟩ := ⟨rfl, hk, h.outline_eq⟩
    .pure fun _ _ hq hq' => hsame.mono (hr.trans hq) (hr'.trans hq')
  exact (shapeOf_coincide hb hs hs' ht).bind haccess

theorem readAccess_coincide {a a' : Access} (h : SameAccess base s s' a a') :
    Coincide ctx s s' Same (readAccess a) (readAccess a') :=
  .bind_read (.askTypes fun _ _ hr hr' =>
    (h.mono hr hr').read_eq hb (hs.trans hr) (hs'.trans hr') ctx.fold)

variable {P : NodeId → Prop} {lower lower' : Lowerer}
  (hl : ∀ id, P id → Coincide ctx base base Same (lower id) (lower' id))

include hf hl

theorem namedAccess_coincide {receiver : NodeId} (hp : P receiver) (name : String) :
    Coincide ctx s s' (SameAccess base) (namedAccess lower receiver name)
      (namedAccess lower' receiver name) := by
  refine (typeOf_coincide hb hf hs hs' receiver).bind fun t t' r r' hr hr' ht => ?_
  refine ((hl receiver hp).mono (hs.trans hr) (hs'.trans hr')).bind_same fun e q q' hq hq' => ?_
  exact ofType_coincide hb (hs.trans (hr.trans hq)) (hs'.trans (hr'.trans hq'))
    (ht.mono hq hq') e (.named name)

theorem elementAccess_coincide {receiver key : NodeId} (hp : P receiver) (hpk : P key) :
    Coincide ctx s s' (SameAccess base) (elementAccess lower receiver key)
      (elementAccess lower' receiver key) := by
  refine (typeOf_coincide hb hf hs hs' receiver).bind fun t t' r r' hr hr' ht => ?_
  have hbr := hs.trans hr
  have hbr' := hs'.trans hr'
  refine ((hl receiver hp).mono hbr hbr').bind_same fun e q q' hq hq' => ?_
  have hbq := hbr.trans hq
  have hbq' := hbr'.trans hq'
  refine (typeOf_coincide hb hf hbq hbq' key).bind fun u u' o o' ho ho' hu => ?_
  have hbo := hbq.trans ho
  have hbo' := hbq'.trans ho'
  refine ((hl key hpk).mono hbo hbo').bind_same fun k n n' hn hn' => ?_
  refine ofType_coincide hb (hbo.trans hn) (hbo'.trans hn') ?_ e ?_
  · exact ht.mono (hq.trans (ho.trans hn)) (hq'.trans (ho'.trans hn'))
  · exact .element k (hu.mono hn hn')

variable (hP : ∀ {id c : NodeId}, P id → c ∈ ctx.arena.children id → P c)

include hP in
theorem accessAt?_coincide {id : NodeId} (hp : P id) :
    Coincide ctx s s' (fun r r' => Option.Rel (SameAccess base r r')) (accessAt? lower id)
      (accessAt? lower' id) := by
  refine .bind_node? ?_
  split
  · next receiver name hn =>
    have hreceiver : P receiver := hP hp (Arena.children_of_get? hn ▸ List.mem_cons_self)
    exact (namedAccess_coincide hb hf hs hs' hl hreceiver name).bind fun a a' r r' _ _ ha =>
      .pure fun _ _ hq hq' => .some (ha.mono hq hq')
  · next receiver key hn =>
    have hreceiver : P receiver := hP hp (Arena.children_of_get? hn ▸ List.mem_cons_self)
    have hkey : P key := hP hp (Arena.children_of_get? hn ▸ List.mem_cons_of_mem _ List.mem_cons_self)
    exact (elementAccess_coincide hb hf hs hs' hl hreceiver hkey).bind fun a a' r r' _ _ ha =>
      .pure fun _ _ hq hq' => .some (ha.mono hq hq')
  · exact .pure fun _ _ _ _ => .none

theorem hybridProperty_coincide {p : Source.Key × NodeId}
    (hp : ∀ c ∈ p.1.node?.toList ++ [p.2], P c) :
    Coincide ctx s s' Same (hybridProperty lower p) (hybridProperty lower' p) := by
  obtain ⟨key, value⟩ := p
  have hvalue := hl value (hp value (List.mem_append_right _ (List.mem_singleton_self value)))
  cases key with
  | number text => exact (hvalue.mono hs hs').bind_same fun v _ _ _ _ => .refl
  | string x => exact (hvalue.mono hs hs').bind_same fun v _ _ _ _ => .refl
  | name x => exact (hvalue.mono hs hs').bind_same fun v _ _ _ _ => .refl
  | computed key =>
    have hkey := hl key (hp key (List.mem_append_left _ (List.mem_singleton_self key)))
    refine (typeOf_coincide hb hf hs hs' key).bind fun t t' r r' hr hr' ht => ?_
    have hbr := hs.trans hr
    have hbr' := hs'.trans hr'
    refine (hkey.mono hbr hbr').bind_same fun k q q' hq hq' => ?_
    have hbq := hbr.trans hq
    have hbq' := hbr'.trans hq'
    refine (hvalue.mono hbq hbq').bind_same fun v o o' ho ho' => ?_
    have htype := ht.mono (hq.trans ho) (hq'.trans ho')
    refine (isNumberLike_coincide hb (hbq.trans ho) (hbq'.trans ho') htype).bind_same
      fun number _ _ _ _ => ?_
    exact .refl

omit hb hf in
theorem recordField_coincide {p : Source.Key × NodeId}
    (hp : ∀ c ∈ p.1.node?.toList ++ [p.2], P c) :
    Coincide ctx s s' Same (recordField lower p) (recordField lower' p) := by
  obtain ⟨key, value⟩ := p
  have hvalue := hl value (hp value (List.mem_append_right _ (List.mem_singleton_self value)))
  cases key with
  | number text => exact (hvalue.mono hs hs').bind_same fun v _ _ _ _ => .refl
  | string x => exact (hvalue.mono hs hs').bind_same fun v _ _ _ _ => .refl
  | name x => exact (hvalue.mono hs hs').bind_same fun v _ _ _ _ => .refl
  | computed key =>
    have hkey := hl key (hp key (List.mem_append_left _ (List.mem_singleton_self key)))
    refine (hkey.mono hs hs').bind_same fun k r r' hr hr' => ?_
    exact (hvalue.mono (hs.trans hr) (hs'.trans hr')).bind_same fun v _ _ _ _ => .refl

theorem objectLiteral_coincide {properties : List (Source.Key × NodeId)}
    (hp : ∀ c ∈ (Node.object properties).children, P c) {t t' : TypeId}
    (ht : Counterparts base s s' t t') :
    Coincide ctx s s' Same (objectLiteral lower properties t) (objectLiteral lower' properties t') := by
  have hproperty {p : Source.Key × NodeId} (hm : p ∈ properties) :
      ∀ c ∈ p.1.node?.toList ++ [p.2], P c := fun c hc => hp c (List.mem_flatMap.2 ⟨p, hm, hc⟩)
  refine (shapeOf_coincide hb hs hs' ht).bind fun shape shape' r r' hr hr' hshape => ?_
  rw [← Shape.isArrayLike_of_outline hshape.outline_eq]
  split
  · refine .bind_read ((Coincide.mapM fun p hm => ?_).bind_same fun ps _ _ _ _ => .refl)
    exact hybridProperty_coincide hb hf (hs.trans hr) (hs'.trans hr') hl (hproperty hm)
  · refine (Coincide.mapM fun p hm => ?_).bind_same fun fs _ _ _ _ => .refl
    exact recordField_coincide (hs.trans hr) (hs'.trans hr') hl (hproperty hm)

include hP in
theorem lowerInContext_coincide {id : NodeId} (hp : P id) {t : TypeId} (ht : base.Has t) :
    Coincide ctx s s' Same (lowerInContext lower id t) (lowerInContext lower' id t) := by
  refine .bind_read ?_
  have hinner := underParens_closed hP ctx.arena.size hp
  dsimp only
  split
  · next properties hn =>
    split
    · exact (hl _ hinner).mono hs hs'
    · refine objectLiteral_coincide hb hf hs hs' hl (fun c hc => hP hinner ?_)
        (Counterparts.of_has hb hs hs' ht)
      exact Arena.children_of_get? hn ▸ hc
  · exact (hl _ hinner).mono hs hs'

omit hb hf in
theorem mapM_coincide {ids : List NodeId} (hp : ∀ id ∈ ids, P id) :
    Coincide ctx s s' Same (ids.mapM lower) (ids.mapM lower') :=
  .mapM fun id hm => (hl id (hp id hm)).mono hs hs'

omit hb hf in
theorem template_coincide (head : String) {spans : List (NodeId × String)}
    (hp : ∀ p ∈ spans, P p.1) :
    Coincide ctx s s' Same (template lower head spans) (template lower' head spans) := by
  refine (Coincide.mapM fun p hm => ?_).bind_same fun parts _ _ _ _ => .refl
  exact ((hl p.1 (hp p hm)).mono hs hs').bind_same fun c _ _ _ _ => .refl

omit hf in
theorem concatOperand_coincide {id : NodeId} (hp : P id) {t t' : TypeId}
    (ht : Counterparts base s s' t t') :
    Coincide ctx s s' Same (concatOperand lower id t) (concatOperand lower' id t') := by
  refine ((hl id hp).mono hs hs').bind_same fun e r r' hr hr' => ?_
  have hjoins : Coincide ctx r r' Same
      (askTypes fun s => s.isStringLike t || s.isNumberLike t)
      (askTypes fun s => s.isStringLike t' || s.isNumberLike t') := by
    refine .askTypes fun q q' hq hq' => ?_
    have htype := ht.mono (hr.trans hq) (hr'.trans hq')
    have hbq := hs.trans (hr.trans hq)
    have hbq' := hs'.trans (hr'.trans hq')
    rw [htype.isStringLike_eq hb hbq hbq', htype.isNumberLike_eq hb hbq hbq']
  exact hjoins.bind_same fun joins _ _ _ _ => .refl

theorem sum_coincide {left right : NodeId} (hp : P left) (hpr : P right) :
    Coincide ctx s s' Same (sum lower left right) (sum lower' left right) := by
  refine (typeOf_coincide hb hf hs hs' left).bind fun t t' r r' hr hr' ht => ?_
  have hbr := hs.trans hr
  have hbr' := hs'.trans hr'
  refine (typeOf_coincide hb hf hbr hbr' right).bind fun u u' q q' hq hq' hu => ?_
  have hbq := hbr.trans hq
  have hbq' := hbr'.trans hq'
  have htype := ht.mono hq hq'
  have htext : Coincide ctx q q' Same (askTypes fun s => s.isStringLike t || s.isStringLike u)
      (askTypes fun s => s.isStringLike t' || s.isStringLike u') := by
    refine .askTypes fun o o' ho ho' => ?_
    rw [(htype.mono ho ho').isStringLike_eq hb (hbq.trans ho) (hbq'.trans ho'),
      (hu.mono ho ho').isStringLike_eq hb (hbq.trans ho) (hbq'.trans ho')]
  refine htext.bind_same fun text o o' ho ho' => ?_
  have hbo := hbq.trans ho
  have hbo' := hbq'.trans ho'
  split
  · refine (concatOperand_coincide hb hbo hbo' hl hp
      (htype.mono ho ho')).bind_same fun l n n' hn hn' => ?_
    refine (concatOperand_coincide hb (hbo.trans hn) (hbo'.trans hn') hl hpr
      (hu.mono (ho.trans hn) (ho'.trans hn'))).bind_same fun e _ _ _ _ => ?_
    exact .refl
  · refine ((hl left hp).mono hbo hbo').bind_same fun l n n' hn hn' => ?_
    exact ((hl right hpr).mono (hbo.trans hn) (hbo'.trans hn')).bind_same fun e _ _ _ _ => .refl

theorem binary_coincide {left right : NodeId} (op : Source.BinaryOp) (hp : P left) (hpr : P right) :
    Coincide ctx s s' Same (binary lower left op right) (binary lower' left op right) := by
  unfold binary
  split
  · exact sum_coincide hb hf hs hs' hl hp hpr
  · refine ((hl left hp).mono hs hs').bind_same fun l r r' hr hr' => ?_
    exact ((hl right hpr).mono (hs.trans hr) (hs'.trans hr')).bind_same fun e _ _ _ _ => .refl

include hP in
theorem call_coincide {callee : NodeId} {arguments : List NodeId} (hp : P callee)
    (hpa : ∀ id ∈ arguments, P id) :
    Coincide ctx s s' Same (call lower callee arguments) (call lower' callee arguments) := by
  have hplain : Coincide ctx s s' Same (call.plainCall lower callee arguments)
      (call.plainCall lower' callee arguments) := by
    refine ((hl callee hp).mono hs hs').bind_same fun e r r' hr hr' => ?_
    exact (mapM_coincide (hs.trans hr) (hs'.trans hr') hl hpa).bind_same fun es _ _ _ _ => .refl
  have hinner := strip_closed hP hp
  refine .bind_read ?_
  dsimp only
  split
  · next receiver name hn =>
    have hreceiver : P receiver := hP hinner (Arena.children_of_get? hn ▸ List.mem_cons_self)
    refine (namedAccess_coincide hb hf hs hs' hl hreceiver name).bind fun a a' r r' hr hr' ha => ?_
    refine (mapM_coincide (hs.trans hr) (hs'.trans hr') hl hpa).bind_same fun es q q' hq hq' => ?_
    rw [← Shape.isArrayLike_of_outline ha.shape, ← ha.member?_eq, ← ha.receiver]
    split
    · exact (Coincide.report _ _ _ _).bind_same fun _ _ _ _ _ => .refl
    · exact .refl
  · next receiver key hn =>
    have hreceiver : P receiver := hP hinner (Arena.children_of_get? hn ▸ List.mem_cons_self)
    have hkey : P key :=
      hP hinner (Arena.children_of_get? hn ▸ List.mem_cons_of_mem _ List.mem_cons_self)
    split
    · next name _ =>
      refine (elementAccess_coincide hb hf hs hs' hl hreceiver hkey).bind
        fun a a' r r' hr hr' ha => ?_
      have hbr := hs.trans hr
      have hbr' := hs'.trans hr'
      rw [← ha.member?_eq, ← ha.receiver]
      split
      · exact (mapM_coincide hbr hbr' hl hpa).bind_same fun es _ _ _ _ => .refl
      · refine (readAccess_coincide hb hbr hbr' ha).bind_same fun e q q' hq hq' => ?_
        exact (mapM_coincide (hbr.trans hq) (hbr'.trans hq') hl hpa).bind_same
          fun es _ _ _ _ => .refl
    · exact hplain
  · exact hplain

omit hl in
theorem addsToString_coincide (target value : NodeId) :
    Coincide ctx s s' Same (addsToString target value) (addsToString target value) := by
  refine (typeOf_coincide hb hf hs hs' target).bind fun t t' r r' hr hr' ht => ?_
  have hbr := hs.trans hr
  have hbr' := hs'.trans hr'
  refine (isStringLike_coincide hb hbr hbr' ht).bind_same fun text q q' hq hq' => ?_
  split
  · exact .refl
  · refine (typeOf_coincide hb hf (hbr.trans hq) (hbr'.trans hq') value).bind
      fun u u' o o' ho ho' hu => ?_
    exact isStringLike_coincide hb (hbr.trans (hq.trans ho)) (hbr'.trans (hq'.trans ho')) hu

omit hl in
theorem compoundOp_coincide (op : Source.AssignOp) (target value : NodeId) :
    Coincide ctx s s' Same (compoundOp op target value) (compoundOp op target value) := by
  cases op with
  | add => exact (addsToString_coincide hb hf hs hs' target value).bind_same fun _ _ _ _ _ => .refl
  | _ => exact .refl

include hP in
theorem placeAt?_coincide (id id' : NodeId) {target : NodeId} (hp : P target) :
    Coincide ctx s s' Same (placeAt? lower id target) (placeAt? lower' id' target) := by
  have hinner := strip_closed hP hp
  refine .bind_read ?_
  dsimp only
  split
  · exact .refl
  · refine (accessAt?_coincide hb hf hs hs' hl hP hinner).bind fun a a' r r' hr hr' ha => ?_
    cases ha with
    | none => exact (Coincide.report _ _ _ _).bind_same fun _ _ _ _ _ => .refl
    | @some a a' ha =>
      have hlength : Coincide ctx r r' Same (askTypes fun s => a.isLength s ctx.fold)
          (askTypes fun s => a'.isLength s ctx.fold) :=
        .askTypes fun _ _ hq hq' => (ha.mono hq hq').isLength_eq hb (hs.trans (hr.trans hq))
          (hs'.trans (hr'.trans hq')) ctx.fold
      refine hlength.bind_same fun length q q' hq hq' => ?_
      split
      · exact (Coincide.report _ _ _ _).bind_same fun _ _ _ _ _ => .refl
      · refine .askTypes fun o o' ho ho' => congrArg some ?_
        exact (ha.mono (hq.trans ho) (hq'.trans ho')).place_eq hb (hs.trans (hr.trans (hq.trans ho)))
          (hs'.trans (hr'.trans (hq'.trans ho'))) ctx.fold

include hP in
theorem assignment?_coincide (id : NodeId) {target value : NodeId} (op : Source.AssignOp)
    (hp : P target) (hpv : P value) (use : Use) :
    Coincide ctx s s' Same (assignment? lower id target op value use)
      (assignment? lower' id target op value use) := by
  refine (compoundOp_coincide hb hf hs hs' op target value).bind_same fun o r r' hr hr' => ?_
  have hbr := hs.trans hr
  have hbr' := hs'.trans hr'
  refine (placeAt?_coincide hb hf hbr hbr' hl hP id id hp).bind_same fun p q q' hq hq' => ?_
  refine ((hl value hpv).mono (hbr.trans hq) (hbr'.trans hq')).bind_same fun e _ _ _ _ => ?_
  split <;> exact .refl

include hP in
theorem update?_coincide (op : Source.UpdateOp) (before : Bool) {operand : NodeId} (hp : P operand)
    (use : Use) :
    Coincide ctx s s' Same (update? lower op before operand use)
      (update? lower' op before operand use) :=
  (placeAt?_coincide hb hf hs hs' hl hP operand operand hp).bind_same fun _ _ _ _ _ => .refl

include hP in
theorem deletion?_coincide (id : NodeId) {operand : NodeId} (hp : P operand) (use : Use) :
    Coincide ctx s s' Same (deletion? lower id operand use) (deletion? lower' id operand use) := by
  refine .bind_read ?_
  refine (accessAt?_coincide hb hf hs hs' hl hP (strip_closed hP hp)).bind
    fun a a' r r' hr hr' ha => ?_
  cases ha with
  | some ha =>
    refine .askTypes fun q q' hq hq' => ?_
    rw [Access.delete, Access.delete,
      (ha.mono hq hq').place_eq hb (hs.trans (hr.trans hq)) (hs'.trans (hr'.trans hq')) ctx.fold]
  | none => exact (Coincide.report _ _ _ _).bind_same fun _ _ _ _ _ => .refl

include hP in
theorem expressionNode_coincide {id : NodeId} {n : Node} (hn : ctx.arena.get? id = some n)
    (hp : ∀ c ∈ n.children, P c) :
    Coincide ctx s s' Same (expressionNode lower id n) (expressionNode lower' id n) := by
  cases n with
  | array elements =>
    exact (mapM_coincide hs hs' hl hp).bind_same fun es _ _ _ _ => .refl
  | object properties =>
    refine (typeOf_coincide hb hf hs hs' id).bind fun t t' r r' hr hr' ht => ?_
    exact objectLiteral_coincide hb hf (hs.trans hr) (hs'.trans hr') hl hp ht
  | property receiver name =>
    refine (namedAccess_coincide hb hf hs hs' hl (hp receiver List.mem_cons_self) name).bind
      fun a a' r r' hr hr' ha => ?_
    exact readAccess_coincide hb (hs.trans hr) (hs'.trans hr') ha
  | element receiver key =>
    refine (elementAccess_coincide hb hf hs hs' hl (hp receiver List.mem_cons_self)
      (hp key (List.mem_cons_of_mem _ List.mem_cons_self))).bind fun a a' r r' hr hr' ha => ?_
    exact readAccess_coincide hb (hs.trans hr) (hs'.trans hr') ha
  | call callee arguments =>
    exact call_coincide hb hf hs hs' hl hP (hp callee List.mem_cons_self) fun id hm =>
      hp id (List.mem_cons_of_mem _ hm)
  | binary left op right =>
    exact binary_coincide hb hf hs hs' hl op (hp left List.mem_cons_self)
      (hp right (List.mem_cons_of_mem _ List.mem_cons_self))
  | assign target op value =>
    exact (assignment?_coincide hb hf hs hs' hl hP id op (hp target List.mem_cons_self)
      (hp value (List.mem_cons_of_mem _ List.mem_cons_self)) .value).bind_same fun _ _ _ _ _ => .refl
  | unary op operand =>
    exact ((hl operand (hp operand List.mem_cons_self)).mono hs hs').bind_same fun _ _ _ _ _ => .refl
  | update op before operand =>
    exact (update?_coincide hb hf hs hs' hl hP op before (hp operand List.mem_cons_self)
      .value).bind_same fun _ _ _ _ _ => .refl
  | delete operand =>
    exact (deletion?_coincide hb hf hs hs' hl hP id (hp operand List.mem_cons_self)
      .value).bind_same fun _ _ _ _ _ => .refl
  | template head spans =>
    exact template_coincide hs hs' hl head fun p hm => hp p.1 (List.mem_map_of_mem hm)
  | asserted expression t =>
    exact lowerInContext_coincide hb hf hs hs' hl hP (hp expression List.mem_cons_self)
      (hf.asserted id expression t hn)
  | parenthesized inner => exact (hl inner (hp inner List.mem_cons_self)).mono hs hs'
  | number | string | boolean | null | undefined | identifier => exact .refl
  | _ => exact (Coincide.report id id _ _).bind_same fun _ _ _ _ _ => .refl

omit hs hs' hl hP in
/-- An expression has one code, in all stores that have grown out of one and with any room that is
enough for it. -/
theorem expressionAt_coincide {levels room room' : Nat} {id : NodeId}
    (h : ctx.arena.nestsWithin levels id) (hroom : levels ≤ room) (hroom' : levels ≤ room') :
    Coincide ctx base base Same (expressionAt room id) (expressionAt room' id) := by
  have hgrown : base.Grown base := ⟨hb, .refl base⟩
  induction levels generalizing id room room' with
  | zero => cases h
  | succ levels ih =>
    obtain ⟨room, rfl⟩ : ∃ n, room = n + 1 := ⟨room - 1, by omega⟩
    obtain ⟨room', rfl⟩ : ∃ n, room' = n + 1 := ⟨room' - 1, by omega⟩
    refine .bind_node? ?_
    cases hn : ctx.arena.get? id with
    | none => exact .refl
    | some n =>
      exact expressionNode_coincide hb hf hgrown hgrown
        (fun c hc => ih hc (Nat.le_of_succ_le_succ hroom) (Nat.le_of_succ_le_succ hroom'))
        nestsWithin_of_mem_children hn fun c hc => nestsWithin_child h hn hc

end Expressions

end Lowering

end ScriptToLua
