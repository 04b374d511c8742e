import Mathlib
import ScriptToLua.Lowering.Expression
import ScriptToLua.Proofs.Lowering.Twin
import ScriptToLua.Proofs.Lua.Name
import ScriptToLua.Proofs.Types.Additions

/-!
Lowering an expression with constant slots and lowering it with computed ones reports the same, types
the same and leads to the same code up to slots, `expressionAt_agrees`.
-/

namespace ScriptToLua.Lowering

open Lua (Code Field)
open Source (Node NodeId)

/-- The context with slots worked out beforehand or left to running code. -/
def Context.folding (ctx : Context) (fold : Bool) : Context := { ctx with fold }

@[simp]
theorem Context.folding_arena (ctx : Context) (fold : Bool) :
    (ctx.folding fold).arena = ctx.arena := rfl

@[simp]
theorem Context.folding_fold (ctx : Context) (fold : Bool) : (ctx.folding fold).fold = fold := rfl

/-- With the types of `s` stored, both lowerings change the state in the same way, keep what is
stored, and give results that correspond. -/
def Agrees {α α' : Type} (ctx : Context) (s : TypeStore) (P : TypeStore → α → α' → Prop)
    (act : LowerM α) (act' : LowerM α') : Prop :=
  ∀ st : State, s.Extends st.store →
    (act' (ctx.folding false) st).2 = (act (ctx.folding true) st).2 ∧
      st.store.Extends (act (ctx.folding true) st).2.store ∧
      P (act (ctx.folding true) st).2.store (act (ctx.folding true) st).1
        (act' (ctx.folding false) st).1

section Rules

variable {ctx : Context} {s : TypeStore} {α α' β β' γ : Type} {P : TypeStore → α → α' → Prop}
  {Q : TypeStore → β → β' → Prop}

namespace Agrees

theorem pure {a : α} {a' : α'} (h : ∀ s', s.Extends s' → P s' a a') :
    Agrees ctx s P (Pure.pure a) (Pure.pure a') :=
  fun st he => ⟨rfl, .refl st.store, h st.store he⟩

theorem bind {act : LowerM α} {act' : LowerM α'} {next : α → LowerM β} {next' : α' → LowerM β'}
    (h : Agrees ctx s P act act')
    (hn : ∀ a a' s', s.Extends s' → P s' a a' → Agrees ctx s' Q (next a) (next' a')) :
    Agrees ctx s Q (act >>= next) (act' >>= next') := by
  intro st he
  obtain ⟨hst, he', hp⟩ := h st he
  obtain ⟨hst', he'', hq⟩ := hn _ _ _ (he.trans he') hp _ (.refl _)
  have hrun : (act' >>= next') (ctx.folding false) st =
      next' (act' (ctx.folding false) st).1 (ctx.folding false) (act (ctx.folding true) st).2 := by
    rw [← hst]
    rfl
  rw [hrun]
  exact ⟨hst', he'.trans he'', hq⟩

theorem mono {act : LowerM α} {act' : LowerM α'} {P' : TypeStore → α → α' → Prop}
    (h : Agrees ctx s P act act') (hp : ∀ s' a a', P s' a a' → P' s' a a') :
    Agrees ctx s P' act act' := by
  intro st he
  obtain ⟨hst, he', h⟩ := h st he
  exact ⟨hst, he', hp _ _ _ h⟩

theorem askTypes {ask : TypeStore → α} {ask' : TypeStore → α'}
    (h : ∀ s', s.Extends s' → P s' (ask s') (ask' s')) :
    Agrees ctx s P (askTypes ask) (askTypes ask') :=
  fun st he => ⟨rfl, .refl st.store, h st.store he⟩

/-- What comes after a look at the context. -/
theorem bind_read {next : Context → LowerM β} {next' : Context → LowerM β'}
    (h : Agrees ctx s Q (next (ctx.folding true)) (next' (ctx.folding false))) :
    Agrees ctx s Q (read >>= next) (read >>= next') := h

/-- What comes after a look at a node. -/
theorem bind_node? {id : NodeId} {next : Option Node → LowerM β} {next' : Option Node → LowerM β'}
    (h : Agrees ctx s Q (next (ctx.arena.get? id)) (next' (ctx.arena.get? id))) :
    Agrees ctx s Q (node? id >>= next) (node? id >>= next') := h

/-- What comes after a question to the type table. -/
theorem bind_askTypes {ask : TypeStore → γ} {next : γ → LowerM β} {next' : γ → LowerM β'}
    (h : ∀ a, Agrees ctx s Q (next a) (next' a)) :
    Agrees ctx s Q (Lowering.askTypes ask >>= next) (Lowering.askTypes ask >>= next') :=
  fun st he => h (ask st.store) st he

theorem report (id : NodeId) (p : Problem) :
    Agrees ctx s (fun _ _ _ => True) (report id p) (report id p) :=
  fun st _ => ⟨rfl, .refl st.store, trivial⟩

theorem reportDepth (id : NodeId) :
    Agrees ctx s (fun _ _ _ => True) (reportDepth id) (reportDepth id) := by
  rintro ⟨store, reported, depthReported⟩ -
  cases depthReported <;> exact ⟨rfl, .refl store, trivial⟩

theorem mapM {R : α → α' → Prop} {f : γ → LowerM α} {f' : γ → LowerM α'} {l : List γ}
    (h : ∀ c ∈ l, ∀ s', s.Extends s' → Agrees ctx s' (fun _ => R) (f c) (f' c)) :
    Agrees ctx s (fun _ => List.Forall₂ R) (l.mapM f) (l.mapM f') := by
  induction l generalizing s with
  | nil => exact .pure fun _ _ => .nil
  | cons c l ih =>
    rw [List.mapM_cons, List.mapM_cons]
    refine (h c List.mem_cons_self s (.refl s)).bind fun a a' s₁ he ha => ?_
    refine (ih fun d hd s' he' => h d (List.mem_cons_of_mem c hd) s' (he.trans he')).bind
      fun as as' s₂ _ has => ?_
    exact .pure fun _ _ => .cons ha has

end Agrees

end Rules

/-- An answer of the type table `s` to the question for the type of the expression at `id`, where
`s` has grown out of `base`. -/
def Context.Types (ctx : Context) (base : TypeStore) (id : NodeId) (s : TypeStore) (t : TypeId) :
    Prop :=
  ∃ s₀, base.Extends s₀ ∧ ctx.facts.expressionType ctx.arena id s₀ = (t, s)

/-- Code that an expression may become once the types of `base` are stored. -/
def Context.Becomes (ctx : Context) (base : TypeStore) (id : NodeId) (e : Code) : Prop :=
  ∃ room st, base.Extends st.store ∧ (expressionAt room id (ctx.folding true) st).1 = e

/-- A type that is array-like for some lookup later on. -/
def IsArrayAfter (s : TypeStore) (t : TypeId) : Prop :=
  ∃ s', s.Extends s' ∧ (shapeOf t s').1.isArrayLike

/-- The types that are expected of the object literal at `id`: its own, and those that an assertion or
a declaration around it names. -/
inductive Context.Expects (ctx : Context) (base : TypeStore) (id : NodeId) :
    TypeStore → TypeId → Prop where
  | own {s : TypeStore} {t : TypeId} (h : ctx.Types base id s t) : Expects ctx base id s t
  | asserted {outer e : NodeId} {t : TypeId} (hn : ctx.arena.get? outer = some (.asserted e t))
    (he : underParens ctx.arena ctx.arena.size e = id) : Expects ctx base id base t
  | declared {outer e : NodeId} {x : String}
    (hn : ctx.arena.get? outer = some (.variableDecl x (some e)))
    (he : underParens ctx.arena ctx.arena.size e = id) :
    Expects ctx base id base (ctx.facts.declaredType x)

/-- A numeric key of an object literal is a small integer constant or none at all. -/
def Context.KeyIsSmall (ctx : Context) (base : TypeStore) : Source.Key → Prop
  | .number text => IsSmall (.number (luaNumeral text))
  | .computed key => ∀ e, ctx.Becomes base key e → IsSmall e
  | _ => True

/-- The integer constants that stand for array indices are below `2 ^ 53`, in accesses and in object
literals that stand for arrays. -/
structure Context.SmallIndices (ctx : Context) (base : TypeStore) : Prop where
  element : ∀ {id receiver key : NodeId}, ctx.arena.get? id = some (.element receiver key) →
    ∀ {s : TypeStore} {t : TypeId}, ctx.Types base receiver s t → IsArrayAfter s t →
      ∀ {e : Code}, ctx.Becomes base key e → IsSmall e
  property : ∀ {id : NodeId} {properties : List (Source.Key × NodeId)},
    ctx.arena.get? id = some (.object properties) →
      ∀ {s : TypeStore} {t : TypeId}, ctx.Expects base id s t → IsArrayAfter s t →
        ∀ p ∈ properties, ctx.KeyIsSmall base p.1

theorem rename_ne {x : String} (hx : x ≠ indexTemp) : Lua.rename x ≠ indexTemp := by
  have hchars : indexTemp.toList.all fun c => !(c.isDigit || c.isUpper) := by decide
  have hkeys : Lua.keywords.all fun k => "____" ++ k ≠ indexTemp := by decide
  refine fun h => hx (Lua.eq_of_rename (fun c hc => ?_) (fun k hk => ?_) h)
  · simpa using List.all_eq_true.1 hchars c hc
  · simpa using List.all_eq_true.1 hkeys k hk

theorem valueOnly_twins {e e' : Code} (h : Twin e e') (use : Use) :
    Option.Rel use.Twins (valueOnly e use) (valueOnly e' use) := by
  cases use with
  | value => exact .some h
  | statement =>
    simp only [valueOnly, h.isCall]
    split
    · exact .some (.perform (h.folds .free))
    · exact .none

theorem getD_twin {o o' : Option Code} (h : Option.Rel Twin o o') {e : Code} (he : Twin e e) :
    Twin (o.getD e) (o'.getD e) := by
  cases h with
  | none => exact he
  | some h => exact h

section Expressions

variable {ctx : Context} {base s : TypeStore} (hi : ctx.SmallIndices base) {lower : Lowerer}
  (hs : base.Extends s)
  (hl : ∀ id s, base.Extends s →
    Agrees ctx s (fun _ e e' => Twin e e' ∧ ctx.Becomes base id e) (lower id) (lower id))
  (hx : ∀ {id : NodeId} {x : String}, ctx.arena.get? id = some (.identifier x) → x ≠ indexTemp)

include hs in
theorem typeOf_agrees (id : NodeId) :
    Agrees ctx s (fun s' t t' => t = t' ∧ ctx.Types base id s' t) (typeOf id) (typeOf id) :=
  fun st he => ⟨rfl, expressionType_onlyAdds ctx.arena ctx.facts id st.store, rfl, st.store,
    hs.trans he, rfl⟩

theorem shapeOf_agrees {s₀ : TypeStore} (h₀ : s₀.Extends s) (t : TypeId) :
    Agrees ctx s (fun _ shape shape' => shape = shape' ∧ (shape.isArrayLike → IsArrayAfter s₀ t))
      (withTypes (shapeOf t)) (withTypes (shapeOf t)) :=
  fun st he => ⟨rfl, shapeOf_onlyAdds t st.store, rfl, fun ha => ⟨st.store, h₀.trans he, ha⟩⟩

theorem ofType_agrees {s₀ : TypeStore} {t : TypeId} (h₀ : s₀.Extends s)
    {e e' : Code} {k k' : AccessKey} (hr : Twin e e') (hk : AccessKeyTwin k k')
    (hsmall : IsArrayAfter s₀ t → ∀ i t, k = .element i t → IsSmall i) :
    Agrees ctx s (fun _ => AccessTwin) (withTypes (Access.ofType e k t))
      (withTypes (Access.ofType e' k' t)) := by
  have haccess (shape shape' : Shape) (s' : TypeStore) (_ : s.Extends s')
      (h : shape = shape' ∧ (shape.isArrayLike → IsArrayAfter s₀ t)) :
      Agrees ctx s' (fun _ => AccessTwin) (pure ⟨e, k, shape⟩) (pure ⟨e', k', shape'⟩) :=
    .pure fun _ _ => ⟨hr, hk, h.1, fun ha => hsmall (h.2 ha)⟩
  exact (shapeOf_agrees h₀ t).bind haccess

include hs hl

theorem namedAccess_agrees (receiver : NodeId) (name : String) :
    Agrees ctx s (fun _ => AccessTwin) (namedAccess lower receiver name)
      (namedAccess lower receiver name) := by
  refine (typeOf_agrees hs receiver).bind fun t t' s₁ h₁ ht => ?_
  obtain ⟨rfl, -⟩ := ht
  refine (hl receiver s₁ (hs.trans h₁)).bind fun e e' s₂ h₂ he => ?_
  exact ofType_agrees h₂ he.1 (.named name) fun _ i t h => by cases h

include hi in
theorem elementAccess_agrees {id receiver key : NodeId}
    (hn : ctx.arena.get? id = some (.element receiver key)) :
    Agrees ctx s (fun _ => AccessTwin) (elementAccess lower receiver key)
      (elementAccess lower receiver key) := by
  refine (typeOf_agrees hs receiver).bind fun t t' s₁ h₁ ht => ?_
  obtain ⟨rfl, htype⟩ := ht
  refine (hl receiver s₁ (hs.trans h₁)).bind fun e e' s₂ h₂ he => ?_
  refine (typeOf_agrees (hs.trans (h₁.trans h₂)) key).bind fun u u' s₃ h₃ hu => ?_
  obtain ⟨rfl, -⟩ := hu
  refine (hl key s₃ (hs.trans (h₁.trans (h₂.trans h₃)))).bind fun k k' s₄ h₄ hk => ?_
  refine ofType_agrees (h₂.trans (h₃.trans h₄)) he.1 (.element hk.1 u) ?_
  intro ha i t hkey
  cases hkey
  exact hi.element hn htype ha hk.2

include hi in
theorem accessAt?_agrees (id : NodeId) :
    Agrees ctx s (fun _ => Option.Rel AccessTwin) (accessAt? lower id) (accessAt? lower id) := by
  refine .bind_node? ?_
  split
  · exact (namedAccess_agrees hs hl _ _).bind fun a a' _ _ ha => .pure fun _ _ => .some ha
  · next hn =>
    exact (elementAccess_agrees hi hs hl hn).bind fun a a' _ _ ha => .pure fun _ _ => .some ha
  · exact .pure fun _ _ => .none

omit hs hl in
theorem readAccess_agrees {a a' : Access} (h : AccessTwin a a') :
    Agrees ctx s (fun _ => Twin) (readAccess a) (readAccess a') :=
  .bind_read (.askTypes fun s' _ => h.read s')

theorem hybridProperty_agrees {p : Source.Key × NodeId} (hp : ctx.KeyIsSmall base p.1) :
    Agrees ctx s (fun _ => HybridTwin) (hybridProperty lower p) (hybridProperty lower p) := by
  obtain ⟨key, value⟩ := p
  cases key with
  | number text =>
    refine (hl value s hs).bind fun v v' _ _ hv => ?_
    exact .pure fun _ _ => .slot (.number _) hp hv.1
  | string x =>
    refine (hl value s hs).bind fun v v' _ _ hv => .pure fun _ _ => ?_
    split
    · next hx =>
      exact .slot (.number x) (fun k hk => (Lua.integerOf?_index hx hk).trans (by decide)) hv.1
    · exact .named x hv.1
  | name x => exact (hl value s hs).bind fun v v' _ _ hv => .pure fun _ _ => .named x hv.1
  | computed key =>
    refine (typeOf_agrees hs key).bind fun t t' s₁ h₁ ht => ?_
    obtain ⟨rfl, -⟩ := ht
    refine (hl key s₁ (hs.trans h₁)).bind fun k k' s₂ h₂ hk => ?_
    refine (hl value s₂ (hs.trans (h₁.trans h₂))).bind fun v v' _ _ hv => ?_
    refine .bind_askTypes fun number => .pure fun _ _ => ?_
    split
    · exact .slot hk.1 (hp k hk.2) hv.1
    · exact .keyed hk.1 hv.1

theorem recordField_agrees (p : Source.Key × NodeId) :
    Agrees ctx s (fun _ => FieldTwin) (recordField lower p) (recordField lower p) := by
  obtain ⟨key, value⟩ := p
  cases key with
  | number text =>
    refine (hl value s hs).bind fun v v' _ _ hv => ?_
    exact .pure fun _ _ pin _ _ hr => .keyed (.number _) (hv.1.folds pin) hr
  | string x | name x =>
    refine (hl value s hs).bind fun v v' _ _ hv => ?_
    exact .pure fun _ _ pin _ _ hr => .named x (hv.1.folds pin) hr
  | computed key =>
    refine (hl key s hs).bind fun k k' s₁ h₁ hk => ?_
    refine (hl value s₁ (hs.trans h₁)).bind fun v v' _ _ hv => ?_
    exact .pure fun _ _ pin _ _ hr => .keyed (hk.1.folds pin) (hv.1.folds pin) hr

theorem objectLiteral_agrees {properties : List (Source.Key × NodeId)} {s₀ : TypeStore}
    {t : TypeId} (h₀ : s₀.Extends s)
    (hp : IsArrayAfter s₀ t → ∀ p ∈ properties, ctx.KeyIsSmall base p.1) :
    Agrees ctx s (fun _ => Twin) (objectLiteral lower properties t)
      (objectLiteral lower properties t) := by
  refine (shapeOf_agrees h₀ t).bind fun shape shape' s₁ h₁ hshape => ?_
  obtain ⟨rfl, harray⟩ := hshape
  split
  · next ha =>
    refine .bind_read ((Agrees.mapM fun p hm s' he => ?_).bind fun ps ps' _ _ h =>
      .pure fun _ _ => hybridLiteral_twin h)
    exact hybridProperty_agrees (hs.trans (h₁.trans he)) hl (hp (harray ha) p hm)
  · refine (Agrees.mapM fun p _ s' he => ?_).bind fun fs fs' _ _ h =>
      .pure fun _ _ => table_twin h
    exact recordField_agrees (hs.trans (h₁.trans he)) hl p

include hi in
theorem lowerInContext_agrees (id : NodeId) {t : TypeId}
    (hc : ∀ inner, underParens ctx.arena ctx.arena.size id = inner →
      ctx.Expects base inner base t) :
    Agrees ctx s (fun _ => Twin) (lowerInContext lower id t) (lowerInContext lower id t) := by
  refine .bind_read ?_
  simp only [Context.folding_arena]
  have hinner := (hl (underParens ctx.arena ctx.arena.size id) s hs).mono fun _ _ _ h => h.1
  split
  · next hn =>
    split
    · exact hinner
    · exact objectLiteral_agrees hs hl hs fun ha => hi.property hn (hc _ rfl) ha
  · exact hinner

theorem mapM_agrees (ids : List NodeId) :
    Agrees ctx s (fun _ => List.Forall₂ Twin) (ids.mapM lower) (ids.mapM lower) :=
  .mapM fun id _ s' he => (hl id s' (hs.trans he)).mono fun _ _ _ h => h.1

theorem template_agrees (head : String) (spans : List (NodeId × String)) :
    Agrees ctx s (fun _ => Twin) (template lower head spans) (template lower head spans) := by
  refine (Agrees.mapM (R := List.Forall₂ Twin) fun p _ s' he => ?_).bind
    fun parts parts' _ _ h => .pure fun _ _ => joinTexts_twin ?_
  · exact (hl p.1 s' (hs.trans he)).bind fun c c' _ _ hc =>
      .pure fun _ _ => .cons hc.1.textOf (.cons (.string p.2) .nil)
  · refine .cons (.string head) ?_
    induction h with
    | nil => exact .nil
    | cons h _ ih => exact List.rel_append h ih

theorem concatOperand_agrees (id : NodeId) (t : TypeId) :
    Agrees ctx s (fun _ => Twin) (concatOperand lower id t) (concatOperand lower id t) := by
  refine (hl id s hs).bind fun e e' _ _ he => .bind_askTypes fun joins => .pure fun _ _ => ?_
  split
  · exact he.1
  · exact he.1.textOf

theorem sum_agrees (left right : NodeId) :
    Agrees ctx s (fun _ => Twin) (sum lower left right) (sum lower left right) := by
  refine (typeOf_agrees hs left).bind fun t t' s₁ h₁ ht => ?_
  obtain ⟨rfl, -⟩ := ht
  refine (typeOf_agrees (hs.trans h₁) right).bind fun u u' s₂ h₂ hu => ?_
  obtain ⟨rfl, -⟩ := hu
  have hs₂ := hs.trans (h₁.trans h₂)
  refine .bind_askTypes fun text => ?_
  split
  · refine (concatOperand_agrees hs₂ hl left t).bind fun l l' s₃ h₃ hleft => ?_
    refine (concatOperand_agrees (hs₂.trans h₃) hl right u).bind fun r r' _ _ hright => ?_
    exact .pure fun _ _ => hleft.binary .concat hright
  · refine (hl left s₂ hs₂).bind fun l l' s₃ h₃ hleft => ?_
    refine (hl right s₃ (hs₂.trans h₃)).bind fun r r' _ _ hright => ?_
    exact .pure fun _ _ => hleft.1.binary .add hright.1

theorem binary_agrees (left : NodeId) (op : Source.BinaryOp) (right : NodeId) :
    Agrees ctx s (fun _ => Twin) (binary lower left op right) (binary lower left op right) := by
  unfold binary
  split
  · exact sum_agrees hs hl left right
  · refine (hl left s hs).bind fun l l' s₁ h₁ hleft => ?_
    refine (hl right s₁ (hs.trans h₁)).bind fun r r' _ _ hright => ?_
    exact .pure fun _ _ => hleft.1.binary (luaBinary op) hright.1

include hi in
theorem call_agrees (callee : NodeId) (arguments : List NodeId) :
    Agrees ctx s (fun _ => Twin) (call lower callee arguments) (call lower callee arguments) := by
  have hplain : Agrees ctx s (fun _ => Twin) (call.plainCall lower callee arguments)
      (call.plainCall lower callee arguments) := by
    refine (hl callee s hs).bind fun e e' s₁ h₁ he => ?_
    exact (mapM_agrees (hs.trans h₁) hl arguments).bind fun es es' _ _ ha =>
      .pure fun _ _ => he.1.call ha
  refine .bind_read ?_
  simp only [Context.folding_arena]
  split
  · next receiver name hn =>
    refine (namedAccess_agrees hs hl receiver name).bind fun a a' s₁ h₁ ha => ?_
    refine (mapM_agrees (hs.trans h₁) hl arguments).bind fun es es' s₂ _ hes => ?_
    rw [← ha.shape, ← ha.member?]
    have hcall := callMember_twin ha.receiver name a.member? hes
    split
    · exact (Agrees.report _ _).bind fun _ _ _ _ _ => .pure fun _ _ => hcall
    · exact .pure fun _ _ => hcall
  · next receiver key hn =>
    split
    · next name hkey =>
      refine (elementAccess_agrees hi hs hl hn).bind fun a a' s₁ h₁ ha => ?_
      rw [← ha.member?]
      split
      · next m hm =>
        exact (mapM_agrees (hs.trans h₁) hl arguments).bind fun es es' _ _ hes =>
          .pure fun _ _ => callMember_twin ha.receiver name (some m) hes
      · refine (readAccess_agrees ha).bind fun e e' s₂ h₂ he => ?_
        exact (mapM_agrees (hs.trans (h₁.trans h₂)) hl arguments).bind fun es es' _ _ hes =>
          .pure fun _ _ => he.call hes
    · exact hplain
  · exact hplain

omit hl in
theorem addsToString_agrees (target value : NodeId) :
    Agrees ctx s (fun _ b b' => b = b') (addsToString target value)
      (addsToString target value) := by
  refine (typeOf_agrees hs target).bind fun t t' s₁ h₁ ht => ?_
  obtain ⟨rfl, -⟩ := ht
  refine .bind_askTypes fun text => ?_
  split
  · exact .pure fun _ _ => rfl
  · refine (typeOf_agrees (hs.trans h₁) value).bind fun u u' _ _ hu => ?_
    obtain ⟨rfl, -⟩ := hu
    exact .askTypes fun _ _ => rfl

omit hl in
theorem compoundOp_agrees (op : Source.AssignOp) (target value : NodeId) :
    Agrees ctx s (fun _ o o' => o = o') (compoundOp op target value)
      (compoundOp op target value) := by
  cases op with
  | add =>
    refine (addsToString_agrees hs target value).bind fun b b' _ _ hb => ?_
    obtain rfl := hb
    exact .pure fun _ _ => rfl
  | _ => exact .pure fun _ _ => rfl

include hi hx in
theorem placeAt?_agrees (id target : NodeId) :
    Agrees ctx s (fun _ => Option.Rel PlaceTwin) (placeAt? lower id target)
      (placeAt? lower id target) := by
  refine .bind_read ?_
  simp only [Context.folding_arena, Context.folding_fold]
  split
  · next x hn => exact .pure fun _ _ => .some (.variable (rename_ne (hx hn)))
  · refine (accessAt?_agrees hi hs hl _).bind fun a a' s₁ _ ha => ?_
    cases ha with
    | none => exact (Agrees.report _ _).bind fun _ _ _ _ _ => .pure fun _ _ => .none
    | @some a a' ha =>
      have hlength : (fun s => a.isLength s true) = fun s => a'.isLength s false :=
        funext ha.isLength
      dsimp only
      rw [hlength]
      refine .bind_askTypes fun length => ?_
      split
      · exact (Agrees.report _ _).bind fun _ _ _ _ _ => .pure fun _ _ => .none
      · exact .askTypes fun s' _ => .some (ha.place s')

include hi hx in
theorem assignment?_agrees (id target : NodeId) (op : Source.AssignOp) (value : NodeId)
    (use : Use) :
    Agrees ctx s (fun _ => Option.Rel use.Twins) (assignment? lower id target op value use)
      (assignment? lower id target op value use) := by
  refine (compoundOp_agrees hs op target value).bind fun o o' s₁ h₁ ho => ?_
  obtain rfl := ho
  refine (placeAt?_agrees hi (hs.trans h₁) hl hx id target).bind fun p p' s₂ h₂ hp => ?_
  refine (hl value s₂ (hs.trans (h₁.trans h₂))).bind fun e e' _ _ he => ?_
  cases hp with
  | some hp => exact .pure fun _ _ => .some (hp.assign o he.1 use)
  | none => exact .pure fun _ _ => valueOnly_twins he.1 use

include hi hx in
theorem update?_agrees (op : Source.UpdateOp) (before : Bool) (operand : NodeId) (use : Use) :
    Agrees ctx s (fun _ => Option.Rel use.Twins) (update? lower op before operand use)
      (update? lower op before operand use) := by
  refine (placeAt?_agrees hi hs hl hx operand operand).bind fun p p' _ _ hp => .pure fun _ _ => ?_
  cases hp with
  | none => exact .none
  | some hp => exact .some (hp.update _ _ use)

include hi in
theorem deletion?_agrees (id operand : NodeId) (use : Use) :
    Agrees ctx s (fun _ => Option.Rel use.Twins) (deletion? lower id operand use)
      (deletion? lower id operand use) := by
  refine .bind_read ?_
  simp only [Context.folding_arena, Context.folding_fold]
  refine (accessAt?_agrees hi hs hl _).bind fun a a' s₁ _ ha => ?_
  cases ha with
  | some ha => exact .askTypes fun s' _ => .some ((ha.place s').deletion use)
  | none =>
    refine (Agrees.report _ _).bind fun _ _ _ _ _ => .pure fun _ _ => ?_
    cases use with
    | statement => exact .none
    | value => exact .some (.boolean true)

include hi hx in
theorem expressionNode_agrees {id : NodeId} {n : Node} (hn : ctx.arena.get? id = some n) :
    Agrees ctx s (fun _ => Twin) (expressionNode lower id n) (expressionNode lower id n) := by
  cases n with
  | number text => exact .pure fun _ _ => .number _
  | string x => exact .pure fun _ _ => .string x
  | boolean b => exact .pure fun _ _ => .boolean b
  | null | undefined => exact .pure fun _ _ => .nil
  | identifier x => exact .pure fun _ _ => .name (rename_ne (hx hn))
  | array elements =>
    exact (mapM_agrees hs hl elements).bind fun es es' _ _ h =>
      .pure fun _ _ => arrayLiteral_twin h
  | object properties =>
    refine (typeOf_agrees hs id).bind fun t t' s₁ h₁ ht => ?_
    obtain ⟨rfl, htype⟩ := ht
    exact objectLiteral_agrees (hs.trans h₁) hl (.refl s₁) fun ha =>
      hi.property hn (.own htype) ha
  | property receiver name =>
    exact (namedAccess_agrees hs hl receiver name).bind fun a a' _ _ ha => readAccess_agrees ha
  | element receiver key =>
    exact (elementAccess_agrees hi hs hl hn).bind fun a a' _ _ ha => readAccess_agrees ha
  | call callee arguments => exact call_agrees hi hs hl callee arguments
  | binary left op right => exact binary_agrees hs hl left op right
  | assign target op value =>
    exact (assignment?_agrees hi hs hl hx id target op value .value).bind fun o o' _ _ h =>
      .pure fun _ _ => getD_twin h .nil
  | unary op operand =>
    exact (hl operand s hs).bind fun e e' _ _ he => .pure fun _ _ => he.1.unary (luaUnary op)
  | update op before operand =>
    exact (update?_agrees hi hs hl hx op before operand .value).bind fun o o' _ _ h =>
      .pure fun _ _ => getD_twin h .nil
  | delete operand =>
    exact (deletion?_agrees hi hs hl id operand .value).bind fun o o' _ _ h =>
      .pure fun _ _ => getD_twin h (.boolean true)
  | template head spans => exact template_agrees hs hl head spans
  | asserted expression t =>
    exact lowerInContext_agrees hi hs hl expression fun inner he => .asserted hn he
  | parenthesized inner => exact (hl inner s hs).mono fun _ _ _ h => h.1
  | _ => exact (Agrees.report id _).bind fun _ _ _ _ _ => .pure fun _ _ => .nil

omit hl in
include hi hx in
/-- Lowering an expression gives the code of one expression, with and without folding. -/
theorem expressionAt_agrees (room : Nat) (id : NodeId) :
    Agrees ctx s (fun _ e e' => Twin e e' ∧ ctx.Becomes base id e) (expressionAt room id)
      (expressionAt room id) := by
  have hbecomes {P : Code → Code → Prop} {room : Nat} {id : NodeId} {s : TypeStore}
      (hs : base.Extends s)
      (h : Agrees ctx s (fun _ => P) (expressionAt room id) (expressionAt room id)) :
      Agrees ctx s (fun _ e e' => P e e' ∧ ctx.Becomes base id e) (expressionAt room id)
        (expressionAt room id) := by
    intro st he
    obtain ⟨hst, he', hp⟩ := h st he
    exact ⟨hst, he', hp, room, st, hs.trans he, rfl⟩
  refine hbecomes hs ?_
  induction room generalizing id s with
  | zero => exact (Agrees.reportDepth id).bind fun _ _ _ _ _ => .pure fun _ _ => .nil
  | succ room ih =>
    refine .bind_node? ?_
    cases hn : ctx.arena.get? id with
    | none => exact .pure fun _ _ => .nil
    | some n => exact expressionNode_agrees hi hs (fun id s hs => hbecomes hs (ih hs id)) hx hn

end Expressions

end ScriptToLua.Lowering
