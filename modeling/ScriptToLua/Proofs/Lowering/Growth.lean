import Mathlib
import ScriptToLua.Lowering.Statement
import ScriptToLua.Proofs.Types.Expression

/-!
A lowering may store further types, and what was stored before keeps its id: `expressionAt_safe`.
-/

namespace ScriptToLua.Lowering

open Lua (Code)
open Source (Node NodeId)
open TypeStore

/-- Once the types of `s` are stored, the computation keeps what is stored, and its result has `P`
with what is stored then. -/
def Enlarges {α : Type} (ctx : Context) (s : TypeStore) (P : TypeStore → α → Prop)
    (act : LowerM α) : Prop :=
  ∀ st : State, s.Extends st.store → st.store.WellFormed →
    (act ctx st).2.store.WellFormed ∧ st.store.Extends (act ctx st).2.store ∧
      P (act ctx st).2.store (act ctx st).1

/-- Once the types of `s` are stored, the computation keeps what is stored. -/
def Safe {α : Type} (ctx : Context) (s : TypeStore) (act : LowerM α) : Prop :=
  Enlarges ctx s (fun _ _ => True) act

section Rules

variable {ctx : Context} {s : TypeStore} {α β : Type} {P : TypeStore → α → Prop}

theorem Enlarges.safe {act : LowerM α} (h : Enlarges ctx s P act) : Safe ctx s act := by
  intro st he hw
  obtain ⟨hw', he', -⟩ := h st he hw
  exact ⟨hw', he', trivial⟩

theorem Enlarges.pure {a : α} (h : ∀ s', s.Extends s' → P s' a) :
    Enlarges ctx s P (Pure.pure a) := fun st he hw => ⟨hw, .refl st.store, h st.store he⟩

theorem Enlarges.bind {Q : TypeStore → β → Prop} {act : LowerM α} {next : α → LowerM β}
    (h : Enlarges ctx s P act)
    (hn : ∀ a s', s.Extends s' → P s' a → Enlarges ctx s' Q (next a)) :
    Enlarges ctx s Q (act >>= next) := by
  intro st he hw
  obtain ⟨hw', he', hp⟩ := h st he hw
  obtain ⟨hw'', he'', hq⟩ := hn _ _ (he.trans he') hp (act ctx st).2 (.refl _) hw'
  exact ⟨hw'', he'.trans he'', hq⟩

theorem Enlarges.bind_safe {act : LowerM α} {next : α → LowerM β} (h : Enlarges ctx s P act)
    (hn : ∀ a s', s.Extends s' → P s' a → Safe ctx s' (next a)) : Safe ctx s (act >>= next) :=
  h.bind hn

theorem Enlarges.mono {Q : TypeStore → α → Prop} {act : LowerM α} (h : Enlarges ctx s P act)
    (hq : ∀ s' a, P s' a → Q s' a) : Enlarges ctx s Q act := by
  intro st he hw
  obtain ⟨hw', he', hp⟩ := h st he hw
  exact ⟨hw', he', hq _ _ hp⟩

theorem Enlarges.mapM {γ : Type} {P : α → Prop} {f : γ → LowerM α} {l : List γ}
    (h : ∀ c ∈ l, ∀ s', Enlarges ctx s' (fun _ => P) (f c)) :
    Enlarges ctx s (fun _ as => ∀ a ∈ as, P a) (l.mapM f) := by
  induction l generalizing s with
  | nil => exact .pure fun _ _ _ hm => absurd hm List.not_mem_nil
  | cons c l ih =>
    rw [List.mapM_cons]
    refine (h c List.mem_cons_self s).bind fun a s₁ _ ha => ?_
    refine (ih fun d hd => h d (List.mem_cons_of_mem c hd)).bind fun as s₂ _ has => ?_
    exact .pure fun _ _ => List.forall_mem_cons.2 ⟨ha, has⟩

/-- What comes after a computation. -/
theorem bind_run (act : LowerM α) (next : α → LowerM β) (st : State) :
    (act >>= next) ctx st = next (act ctx st).1 ctx (act ctx st).2 := rfl

/-- What comes after a look at a node. -/
theorem bind_node?_run (id : NodeId) (next : Option Node → LowerM α) (st : State) :
    (node? id >>= next) ctx st = next (ctx.arena.get? id) ctx st := rfl

theorem expressionAt_run {id : NodeId} {n : Node} (hn : ctx.arena.get? id = some n) (room : Nat)
    (st : State) :
    expressionAt (room + 1) id ctx st = expressionNode (expressionAt room) id n ctx st := by
  rw [expressionAt, bind_node?_run, hn]

namespace Safe

theorem mono {s' : TypeStore} (he : s.Extends s') {act : LowerM α} (h : Safe ctx s act) :
    Safe ctx s' act := fun st he' hw => h st (he.trans he') hw

theorem pure (a : α) : Safe ctx s (Pure.pure a) := fun st _ hw => ⟨hw, .refl st.store, trivial⟩

theorem bind {act : LowerM α} {next : α → LowerM β} (h : Safe ctx s act)
    (hn : ∀ a, Safe ctx s (next a)) : Safe ctx s (act >>= next) :=
  Enlarges.bind_safe h fun a _ he _ => (hn a).mono he

theorem map {act : LowerM α} (f : α → β) (h : Safe ctx s act) : Safe ctx s (f <$> act) := h

theorem read : Safe ctx s read := fun st _ hw => ⟨hw, .refl st.store, trivial⟩

/-- What comes after a look at the context. -/
theorem bind_read {next : Context → LowerM β} (h : Safe ctx s (next ctx)) :
    Safe ctx s (MonadReader.read >>= next) := h

/-- What comes after a look at a node. -/
theorem bind_node? {id : NodeId} {next : Option Node → LowerM β}
    (h : ∀ n, ctx.arena.get? id = n → Safe ctx s (next n)) : Safe ctx s (node? id >>= next) :=
  h _ rfl

theorem askTypes (ask : TypeStore → α) : Safe ctx s (askTypes ask) :=
  fun st _ hw => ⟨hw, .refl st.store, trivial⟩

theorem report (id : NodeId) (p : Problem) : Safe ctx s (report id p) :=
  fun st _ hw => ⟨hw, .refl st.store, trivial⟩

theorem reportDepth (id : NodeId) : Safe ctx s (reportDepth id) := by
  have hget : Safe ctx s (get : LowerM State) := fun st _ hw => ⟨hw, .refl st.store, trivial⟩
  refine hget.bind fun st => ?_
  split
  · exact fun st _ hw => ⟨hw, .refl st.store, trivial⟩
  · exact .pure ()

theorem mapM {γ : Type} {f : γ → LowerM α} (h : ∀ c, Safe ctx s (f c)) (l : List γ) :
    Safe ctx s (l.mapM f) := by
  induction l with
  | nil => exact .pure []
  | cons c l ih =>
    rw [List.mapM_cons]
    exact (h c).bind fun a => ih.bind fun as => .pure (a :: as)

end Safe

theorem withTypes_enlarges {act : TypeM α}
    (h : ∀ s', s.Extends s' → s'.WellFormed → Grows s' P act) : Enlarges ctx s P (withTypes act) :=
  fun st he hw => h st.store he hw

end Rules

section Functions

variable {ctx : Context} {s : TypeStore} (hf : ctx.facts.Stored ctx.arena s) {lower : Lowerer}
  (hl : ∀ id, Safe ctx s (lower id))

include hf in
theorem typeOf_enlarges (id : NodeId) : Enlarges ctx s Has (typeOf id) :=
  withTypes_enlarges fun _ he hw => expressionType_grows hw (hf.extends_ he) id

theorem shapeOf_safe {t : TypeId} (ht : s.Has t) : Safe ctx s (withTypes (shapeOf t)) :=
  (withTypes_enlarges fun _ he hw => shapeOf_grows hw (he.has ht)).safe

theorem ofType_safe {t : TypeId} (ht : s.Has t) (receiver : Code) (key : AccessKey) :
    Safe ctx s (withTypes (Access.ofType receiver key t)) := by
  have h : Safe ctx s (withTypes (shapeOf t)) := shapeOf_safe ht
  exact h

include hf hl

theorem namedAccess_safe (receiver : NodeId) (name : String) :
    Safe ctx s (namedAccess lower receiver name) := by
  refine (typeOf_enlarges hf receiver).bind_safe fun t s' he ht => ?_
  exact ((hl receiver).mono he).bind fun code => ofType_safe ht code _

theorem elementAccess_safe (receiver key : NodeId) :
    Safe ctx s (elementAccess lower receiver key) := by
  refine (typeOf_enlarges hf receiver).bind_safe fun t s' he ht => ?_
  refine ((hl receiver).mono he).bind fun code => ?_
  refine ((typeOf_enlarges hf key).safe.mono he).bind fun keyType => ?_
  exact ((hl key).mono he).bind fun keyCode => ofType_safe ht code _

theorem accessAt?_safe (id : NodeId) : Safe ctx s (accessAt? lower id) := by
  refine Safe.bind_node? fun n _ => ?_
  split
  · exact (namedAccess_safe hf hl _ _).map _
  · exact (elementAccess_safe hf hl _ _).map _
  · exact .pure none

omit hf hl in
theorem readAccess_safe (a : Access) : Safe ctx s (readAccess a) :=
  Safe.read.bind fun _ => .askTypes _

theorem hybridProperty_safe (p : Source.Key × NodeId) : Safe ctx s (hybridProperty lower p) := by
  obtain ⟨key, value⟩ := p
  cases key with
  | computed key =>
    refine (typeOf_enlarges hf key).safe.bind fun type => (hl key).bind fun k => ?_
    refine (hl value).bind fun v => (Safe.askTypes _).bind fun number => ?_
    split <;> exact .pure _
  | _ => exact (hl value).bind fun v => .pure _

omit hf in
theorem recordField_safe (p : Source.Key × NodeId) : Safe ctx s (recordField lower p) := by
  obtain ⟨key, value⟩ := p
  cases key with
  | computed key => exact (hl key).bind fun k => (hl value).bind fun v => .pure _
  | _ => exact (hl value).bind fun v => .pure _

theorem objectLiteral_safe (properties : List (Source.Key × NodeId)) {t : TypeId} (ht : s.Has t) :
    Safe ctx s (objectLiteral lower properties t) := by
  refine (shapeOf_safe ht).bind fun shape => ?_
  split
  · exact Safe.read.bind fun _ =>
      (Safe.mapM (hybridProperty_safe hf hl) properties).bind fun _ => .pure _
  · exact (Safe.mapM (recordField_safe hl) properties).bind fun _ => .pure _

theorem lowerInContext_safe (id : NodeId) {t : TypeId} (ht : s.Has t) :
    Safe ctx s (lowerInContext lower id t) := by
  refine Safe.bind_read ?_
  dsimp only
  split
  · split
    · exact hl _
    · exact objectLiteral_safe hf hl _ ht
  · exact hl _

omit hf in
theorem template_safe (head : String) (spans : List (NodeId × String)) :
    Safe ctx s (template lower head spans) := by
  refine (Safe.mapM (fun p => ?_) spans).bind fun _ => .pure _
  obtain ⟨e, text⟩ := p
  exact (hl e).bind fun _ => .pure _

omit hf in
theorem concatOperand_safe (id : NodeId) (t : TypeId) : Safe ctx s (concatOperand lower id t) := by
  refine (hl id).bind fun code => (Safe.askTypes _).bind fun joins => ?_
  split <;> exact .pure _

theorem sum_safe (left right : NodeId) : Safe ctx s (sum lower left right) := by
  refine (typeOf_enlarges hf left).safe.bind fun leftType => ?_
  refine (typeOf_enlarges hf right).safe.bind fun rightType => (Safe.askTypes _).bind fun text => ?_
  split
  · exact (concatOperand_safe hl left leftType).bind fun _ =>
      (concatOperand_safe hl right rightType).bind fun _ => .pure _
  · exact (hl left).bind fun _ => (hl right).bind fun _ => .pure _

theorem binary_safe (left : NodeId) (op : Source.BinaryOp) (right : NodeId) :
    Safe ctx s (binary lower left op right) := by
  unfold binary
  split
  · exact sum_safe hf hl left right
  · exact (hl left).bind fun _ => (hl right).bind fun _ => .pure _

theorem call_safe (callee : NodeId) (arguments : List NodeId) :
    Safe ctx s (call lower callee arguments) := by
  have hargs : Safe ctx s (arguments.mapM lower) := Safe.mapM hl arguments
  have hplain : Safe ctx s (call.plainCall lower callee arguments) :=
    (hl callee).bind fun _ => hargs.bind fun _ => .pure _
  refine Safe.bind_read ?_
  dsimp only
  split
  · refine (namedAccess_safe hf hl _ _).bind fun a => hargs.bind fun args => ?_
    split
    · exact (Safe.report _ _).bind fun _ => .pure _
    · exact .pure _
  · split
    · refine (elementAccess_safe hf hl _ _).bind fun a => ?_
      split
      · exact hargs.bind fun _ => .pure _
      · exact (readAccess_safe a).bind fun _ => hargs.bind fun _ => .pure _
    · exact hplain
  · exact hplain

omit hl in
theorem addsToString_safe (target value : NodeId) : Safe ctx s (addsToString target value) := by
  refine (typeOf_enlarges hf target).safe.bind fun targetType => (Safe.askTypes _).bind fun text => ?_
  split
  · exact .pure true
  · exact (typeOf_enlarges hf value).safe.bind fun valueType => .askTypes _

omit hl in
theorem compoundOp_safe (op : Source.AssignOp) (target value : NodeId) :
    Safe ctx s (compoundOp op target value) := by
  cases op with
  | add => exact (addsToString_safe hf target value).bind fun _ => .pure _
  | _ => exact .pure _

theorem placeAt?_safe (id target : NodeId) : Safe ctx s (placeAt? lower id target) := by
  refine Safe.bind_read ?_
  dsimp only
  split
  · exact .pure _
  · refine (accessAt?_safe hf hl _).bind fun a => ?_
    cases a with
    | none => exact (Safe.report _ _).bind fun _ => .pure none
    | some a =>
      refine (Safe.askTypes _).bind fun length => ?_
      split
      · exact (Safe.report _ _).bind fun _ => .pure none
      · exact .askTypes _

theorem assignment?_safe (id target : NodeId) (op : Source.AssignOp) (value : NodeId) (use : Use) :
    Safe ctx s (assignment? lower id target op value use) := by
  refine (compoundOp_safe hf op target value).bind fun op => ?_
  refine (placeAt?_safe hf hl id target).bind fun place => (hl value).bind fun code => ?_
  cases place <;> exact .pure _

theorem update?_safe (op : Source.UpdateOp) (before : Bool) (operand : NodeId) (use : Use) :
    Safe ctx s (update? lower op before operand use) :=
  (placeAt?_safe hf hl operand operand).bind fun _ => .pure _

theorem deletion?_safe (id operand : NodeId) (use : Use) :
    Safe ctx s (deletion? lower id operand use) := by
  refine Safe.bind_read ((accessAt?_safe hf hl _).bind fun a => ?_)
  cases a with
  | some a => exact .askTypes _
  | none => exact (Safe.report _ _).bind fun _ => .pure _

theorem expressionNode_safe {id : NodeId} {n : Node} (hn : ctx.arena.get? id = some n) :
    Safe ctx s (expressionNode lower id n) := by
  cases n with
  | array elements => exact (Safe.mapM hl elements).bind fun _ => .pure _
  | object properties =>
    refine (typeOf_enlarges hf id).bind_safe fun t s' he ht => ?_
    exact objectLiteral_safe (hf.extends_ he) (fun id' => (hl id').mono he) properties ht
  | property receiver name => exact (namedAccess_safe hf hl receiver name).bind readAccess_safe
  | element receiver key => exact (elementAccess_safe hf hl receiver key).bind readAccess_safe
  | call callee arguments => exact call_safe hf hl callee arguments
  | binary left op right => exact binary_safe hf hl left op right
  | assign target op value =>
    exact (assignment?_safe hf hl id target op value .value).bind fun _ => .pure _
  | unary op operand => exact (hl operand).bind fun _ => .pure _
  | update op before operand =>
    exact (update?_safe hf hl op before operand .value).bind fun _ => .pure _
  | delete operand => exact (deletion?_safe hf hl id operand .value).bind fun _ => .pure _
  | template head spans => exact template_safe hl head spans
  | asserted expression type =>
    exact lowerInContext_safe hf hl expression (hf.asserted id expression type hn)
  | parenthesized inner => exact hl inner
  | number _ | string _ | boolean _ | null | undefined | identifier _ => exact .pure _
  | _ => exact (Safe.report id _).bind fun _ => .pure _

omit hl in
/-- Lowering an expression keeps what is stored. -/
theorem expressionAt_safe (room : Nat) (id : NodeId) : Safe ctx s (expressionAt room id) := by
  induction room generalizing id with
  | zero => exact (Safe.reportDepth id).bind fun _ => .pure _
  | succ room ih =>
    refine Safe.bind_node? fun n hn => ?_
    cases n with
    | none => exact .pure _
    | some n => exact expressionNode_safe hf ih hn

end Functions

end ScriptToLua.Lowering
