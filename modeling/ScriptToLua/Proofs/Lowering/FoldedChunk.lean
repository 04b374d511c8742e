import Mathlib
import ScriptToLua.Compile
import ScriptToLua.Proofs.Lowering.Folding
import ScriptToLua.Proofs.Lowering.WellFormed

/-!
Folding constant indices changes nothing that can be observed: there is the same to report, and the
chunks do the same from every state of the machine, `lowerFile_folds`.
-/

namespace ScriptToLua

open Lua (Code)
open Source (Arena Node NodeId)

namespace Lowering

theorem sealReturns_foldAll {b b' : List Code} (h : Code.FoldAll .free b b') :
    Code.FoldAll .free (sealReturns b) (sealReturns b') := by
  induction b generalizing b' with
  | nil =>
    cases h
    exact .nil
  | cons c b ih =>
    cases h with
    | @cons _ _ c' _ b' h hr =>
      have hsealed : Code.Folds .free (if c.isReturn then .block [c] else c)
          (if c'.isReturn then .block [c'] else c') := by
        rw [← h.isReturn]
        split
        · exact .block (.cons h .nil)
        · exact h
      cases hr with
      | nil => exact .cons h .nil
      | cons h' hr' => exact .cons hsealed (ih (.cons h' hr'))

theorem asStatement_folds {e e' : Code} (h : Twin e e') :
    (asStatement e).Folds .free (asStatement e') := by
  unfold asStatement
  rw [← h.isCall]
  split
  · exact .perform (h.folds .free)
  · exact .locals (.inl rfl) (.cons (h.folds .free) .nil)

theorem toList_foldAll {o o' : Option Code} (h : Option.Rel Use.statement.Twins o o') :
    Code.FoldAll .free o.toList o'.toList := by
  cases h with
  | none => exact .nil
  | some h => exact .cons h .nil

section Statements

variable {ctx : Context} {base s : TypeStore} (hi : ctx.SmallIndices base) (hs : base.Extends s)
  (hx : ∀ {id : NodeId} {x : String}, ctx.arena.get? id = some (.identifier x) → x ≠ indexTemp)

include hi hs hx

theorem expression_agrees (id : NodeId) :
    Agrees ctx s (fun _ => Twin) (expression id) (expression id) :=
  (expressionAt_agrees hi hs hx maxNesting id).mono fun _ _ _ h => h.1

theorem expressionStatement_agrees (id : NodeId) :
    Agrees ctx s (fun _ => Code.FoldAll .free) (expressionStatement id)
      (expressionStatement id) := by
  have hl (id : NodeId) (s : TypeStore) (hs : base.Extends s) :=
    expressionAt_agrees hi hs hx maxNesting id
  refine .bind_read ?_
  simp only [Context.folding_arena]
  split
  · exact .pure fun _ _ => .nil
  · exact (assignment?_agrees hi hs hl hx _ _ _ _ .statement).bind fun _ _ _ _ h =>
      .pure fun _ _ => toList_foldAll h
  · exact (update?_agrees hi hs hl hx _ _ _ .statement).bind fun _ _ _ _ h =>
      .pure fun _ _ => toList_foldAll h
  · exact (deletion?_agrees hi hs hl _ _ .statement).bind fun _ _ _ _ h =>
      .pure fun _ _ => toList_foldAll h
  · exact (expression_agrees hi hs hx _).bind fun _ _ _ _ h =>
      .pure fun _ _ => .cons (asStatement_folds h) .nil

theorem initialValue_agrees {id initializer : NodeId} {x : String}
    (hn : ctx.arena.get? id = some (.variableDecl x (some initializer))) :
    Agrees ctx s (fun _ => Twin) (initialValue x initializer) (initialValue x initializer) :=
  .bind_read (lowerInContext_agrees hi hs
    (fun id _ hs => expressionAt_agrees hi hs hx maxNesting id) initializer
    fun _ he => .declared hn he)

omit hi hx in
theorem statements_agrees {lower : NodeId → LowerM (List Code)}
    (hl : ∀ id s, base.Extends s →
      Agrees ctx s (fun _ => Code.FoldAll .free) (lower id) (lower id)) (ids : List NodeId) :
    Agrees ctx s (fun _ => Code.FoldAll .free) (statements lower ids) (statements lower ids) := by
  refine (Agrees.mapM fun id _ s' he => hl id s' (hs.trans he)).bind fun bs bs' _ _ h =>
    .pure fun _ _ => sealReturns_foldAll ?_
  induction h with
  | nil => exact .nil
  | cons h _ ih => exact h.append ih

theorem statementNode_agrees {lower : NodeId → LowerM (List Code)}
    (hl : ∀ id s, base.Extends s →
      Agrees ctx s (fun _ => Code.FoldAll .free) (lower id) (lower id)) {id : NodeId} {n : Node}
    (hn : ctx.arena.get? id = some n) :
    Agrees ctx s (fun _ => Code.FoldAll .free) (statementNode lower id n)
      (statementNode lower id n) := by
  cases n with
  | variableDecl x initializer =>
    cases initializer with
    | none => exact .pure fun _ _ => .cons (.locals (.inl rfl) .nil) .nil
    | some initializer =>
      exact (initialValue_agrees hi hs hx hn).bind fun _ _ _ _ h => .pure fun _ _ =>
        .cons (.locals (.inl rfl) (.cons (h.folds .free) .nil)) .nil
  | functionDecl x parameters body =>
    exact (statements_agrees hs hl body).bind fun _ _ _ _ h => .pure fun _ _ =>
      .cons (.localFunction (.inl rfl) h.block) .nil
  | block ids =>
    exact (statements_agrees hs hl ids).bind fun _ _ _ _ h => .pure fun _ _ =>
      .cons (.block h.block) .nil
  | expressionStatement e => exact expressionStatement_agrees hi hs hx e
  | returns value =>
    cases value with
    | none => exact .pure fun _ _ => .cons (.returns .nil) .nil
    | some value =>
      exact (expression_agrees hi hs hx value).bind fun _ _ _ _ h => .pure fun _ _ =>
        .cons (.returns (.cons (h.folds .free) .nil)) .nil
  | file name ids => exact statements_agrees hs hl ids
  | ambientDecl _ => exact .pure fun _ _ => .nil
  | _ => exact (Agrees.report id _).bind fun _ _ _ _ _ => .pure fun _ _ => .nil

/-- Lowering a statement gives the same statements up to slots, with and without folding. -/
theorem statementAt_agrees (room : Nat) (id : NodeId) :
    Agrees ctx s (fun _ => Code.FoldAll .free) (statementAt room id) (statementAt room id) := by
  induction room generalizing id s with
  | zero => exact .pure fun _ _ => .nil
  | succ room ih =>
    refine .bind_node? ?_
    cases hn : ctx.arena.get? id with
    | none => exact .pure fun _ _ => .nil
    | some n => exact statementNode_agrees hi hs hx (fun id s hs => ih hs id) hn

end Statements

section Constants

variable {ctx : Context} {base : TypeStore} {lower : Lowerer}

theorem IsSmall.of_none {e : Code} (h : e.integer? = none) : IsSmall e := fun k hk => by
  rw [h] at hk
  cases hk

theorem Access.read_isSmall (a : Access) (s : TypeStore) (fold : Bool) : IsSmall (a.read s fold) := by
  have hcode (p : Place) : IsSmall p.code := by cases p <;> exact .of_none rfl
  rcases a.read_cases s fold with ⟨-, hplace⟩ | ⟨-, -, hlength⟩
  · rw [hplace]
    exact hcode _
  · rw [hlength]
    exact .of_none rfl

theorem readAccess_isSmall (a : Access) : Gives ctx IsSmall (readAccess a) :=
  Gives.any.bind fun _ _ => .askTypes fun s => a.read_isSmall s _

theorem callMember_isSmall (receiver : Code) (name : String) (m : Option Property)
    (args : List Code) : IsSmall (callMember receiver name m args) := by
  rcases callMember_cases receiver name m args with h | ⟨-, h⟩ | ⟨-, h⟩ | h
  all_goals
    rw [h]
    exact .of_none rfl

theorem call_isSmall (callee : NodeId) (arguments : List NodeId) :
    Gives ctx IsSmall (call lower callee arguments) := by
  have hplain : Gives ctx IsSmall (call.plainCall lower callee arguments) :=
    Gives.any.bind fun _ _ => Gives.any.bind fun _ _ => .pure (.of_none rfl)
  refine Gives.any.bind fun c _ => ?_
  dsimp only
  split
  · refine Gives.any.bind fun a _ => Gives.any.bind fun args _ => ?_
    split
    · exact Gives.any.bind fun _ _ => .pure (callMember_isSmall _ _ _ _)
    · exact .pure (callMember_isSmall _ _ _ _)
  · split
    · refine Gives.any.bind fun a _ => ?_
      split
      · exact Gives.any.bind fun _ _ => .pure (callMember_isSmall _ _ _ _)
      · exact Gives.any.bind fun _ _ => Gives.any.bind fun _ _ => .pure (.of_none rfl)
    · exact hplain
  · exact hplain

theorem objectLiteral_isSmall (properties : List (Source.Key × NodeId)) (t : TypeId) :
    Gives ctx IsSmall (objectLiteral lower properties t) := by
  refine Gives.any.bind fun shape _ => ?_
  split
  · exact Gives.any.bind fun _ _ => Gives.any.bind fun _ _ => .pure (.of_none rfl)
  · exact Gives.any.bind fun _ _ => .pure (.of_none rfl)

theorem binary_isSmall (left : NodeId) (op : Source.BinaryOp) (right : NodeId) :
    Gives ctx IsSmall (binary lower left op right) := by
  unfold binary sum
  split
  · refine Gives.any.bind fun _ _ => Gives.any.bind fun _ _ => Gives.any.bind fun text _ => ?_
    split <;> exact Gives.any.bind fun _ _ => Gives.any.bind fun _ _ => .pure (.of_none rfl)
  · exact Gives.any.bind fun _ _ => Gives.any.bind fun _ _ => .pure (.of_none rfl)

theorem joinTexts_isSmall {es : List Code} (h : ∀ e ∈ es, IsSmall e) : IsSmall (joinTexts es) := by
  unfold joinTexts
  cases hes : es.filter fun c => !isEmptyText c with
  | nil => exact .of_none rfl
  | cons e rest =>
    cases rest with
    | nil => exact h e (List.mem_filter.1 (hes ▸ List.mem_cons_self)).1
    | cons _ _ => exact .of_none rfl

theorem template_isSmall (head : String) (spans : List (NodeId × String)) :
    Gives ctx IsSmall (template lower head spans) := by
  refine (Gives.mapM (P := fun es => ∀ e ∈ es, IsSmall e) fun p _ => Gives.any.bind fun e _ =>
    .pure ?_).bind fun parts h => .pure (joinTexts_isSmall ?_)
  · exact List.forall_mem_cons.2 ⟨.of_none rfl, List.forall_mem_singleton.2 (.of_none rfl)⟩
  · refine List.forall_mem_cons.2 ⟨.of_none rfl, fun e he => ?_⟩
    obtain ⟨es, hes, he⟩ := List.mem_flatten.1 he
    exact h es hes e he

theorem update_isSmall (op : Source.UpdateOp) (before : Bool) (operand : NodeId) :
    Gives ctx (fun o => IsSmall (o.getD .nil)) (update? lower op before operand .value) := by
  refine Gives.any.bind fun place _ => .pure ?_
  cases place with
  | none => exact .of_none rfl
  | some p => cases before <;> exact .of_none rfl

theorem deletion_isSmall (id operand : NodeId) :
    Gives ctx (fun o => IsSmall (o.getD vacuousDeletion)) (deletion? lower id operand .value) := by
  refine Gives.any.bind fun c _ => Gives.any.bind fun a _ => ?_
  cases a with
  | none => exact Gives.any.bind fun _ _ => .pure (.of_none rfl)
  | some a => exact .askTypes fun s => .of_none rfl

variable (hl : ∀ id, Gives ctx IsSmall (lower id))

include hl

theorem lowerInContext_isSmall (id : NodeId) (t : TypeId) :
    Gives ctx IsSmall (lowerInContext lower id t) := by
  refine Gives.any.bind fun c _ => ?_
  dsimp only
  split
  · split
    · exact hl _
    · exact objectLiteral_isSmall _ t
  · exact hl _

theorem assignment_isSmall (id target : NodeId) (op : Source.AssignOp) (value : NodeId) :
    Gives ctx (fun o => IsSmall (o.getD .nil)) (assignment? lower id target op value .value) := by
  refine Gives.any.bind fun op _ => Gives.any.bind fun place _ => (hl value).bind fun e he => ?_
  cases place with
  | none => exact .pure he
  | some p => exact .pure (.of_none rfl)

theorem expressionNode_isSmall {id : NodeId} {n : Node} (hn : ctx.arena.get? id = some n)
    (hnum : ∀ text ∈ n.numerals, IsSmall (.number (luaNumeral text))) :
    Gives ctx IsSmall (expressionNode lower id n) := by
  cases n with
  | number text => exact .pure (hnum text List.mem_cons_self)
  | array elements => exact Gives.any.bind fun _ _ => .pure (.of_none rfl)
  | object properties => exact Gives.any.bind fun t _ => objectLiteral_isSmall properties t
  | property receiver name => exact Gives.any.bind fun a _ => readAccess_isSmall a
  | element receiver key => exact Gives.any.bind fun a _ => readAccess_isSmall a
  | call callee arguments => exact call_isSmall callee arguments
  | binary left op right => exact binary_isSmall left op right
  | assign target op value =>
    exact (assignment_isSmall hl id target op value).bind fun _ h => .pure h
  | unary op operand => exact Gives.any.bind fun _ _ => .pure (.of_none rfl)
  | update op before operand =>
    exact (update_isSmall op before operand).bind fun _ h => .pure h
  | delete operand => exact (deletion_isSmall id operand).bind fun _ h => .pure h
  | template head spans => exact template_isSmall head spans
  | asserted expression t => exact lowerInContext_isSmall hl expression t
  | parenthesized inner => exact hl inner
  | string _ | boolean _ | null | undefined | identifier _ => exact .pure (.of_none rfl)
  | _ => exact Gives.any.bind fun _ _ => .pure (.of_none rfl)

omit hl

/-- A file whose numerals are small has small indices. -/
theorem Context.SmallIndices.of_numerals
    (h : ∀ id n, ctx.arena.get? id = some n →
      ∀ text ∈ n.numerals, IsSmall (.number (luaNumeral text))) : ctx.SmallIndices base := by
  have hexpression (room : Nat) (id : NodeId) :
      Gives (ctx.folding true) IsSmall (expressionAt room id) := by
    induction room generalizing id with
    | zero => exact Gives.any.bind fun _ _ => .pure (.of_none rfl)
    | succ room ih =>
      refine (Gives.node? id).bind fun n hn => ?_
      cases n with
      | none => exact .pure (.of_none rfl)
      | some n => exact expressionNode_isSmall ih hn.symm (h id n hn.symm)
  have hcode {id : NodeId} {e : Code} (he : ctx.Becomes base id e) : IsSmall e := by
    obtain ⟨room, st, -, rfl⟩ := he
    exact (hexpression room id).result st
  refine ⟨fun _ _ _ _ _ _ he => hcode he, fun {id properties} hn _ _ _ _ p hp => ?_⟩
  obtain ⟨key, value⟩ := p
  cases key with
  | number text => exact h id _ hn text (List.mem_filterMap.2 ⟨_, hp, rfl⟩)
  | computed key => exact fun e he => hcode he
  | _ => trivial

end Constants

end Lowering

open Lowering Lua

/-- With all constant indices below `2 ^ 53` and no source variable named like the temporary for keys,
folding changes neither the diagnostics nor what the chunk does: from every machine whose functions do
not use that name, both chunks end with the same result or fault, the same tables and the same
variables. -/
theorem lowerFile_folds {arena : Arena} {root : NodeId} {store : TypeStore} {facts : TypeFacts}
    (hx : ∀ {id x}, arena.get? id = some (.identifier x) → x ≠ indexTemp)
    (hi : Context.SmallIndices ⟨arena, facts, true, fileName arena root⟩ store) :
    (lowerFile arena root store facts true).2 = (lowerFile arena root store facts false).2 ∧
      ∀ m, m.Avoids [indexTemp] → EndAlike .none Value.Folds
        (runChunk (lowerFile arena root store facts true).1 m)
        (runChunk (lowerFile arena root store facts false).1 m) := by
  obtain ⟨hst, -, hcode⟩ := statementAt_agrees hi (.refl store) hx arena.size root
    ⟨store, [], false⟩ (.refl store)
  refine ⟨congrArg (fun st => st.reported.reverse) hst.symm, fun m hm => ?_⟩
  exact runChunk_folds (Code.FoldAll.block hcode) m m hm.folds

/-- `let a = []; a[0] = a[1] = tostring(2); return a[0]` -/
def nestedWrites : Arena :=
  let nodes : List Node :=
    [.identifier "a", .number "0", .element ⟨0⟩ ⟨1⟩, .number "1", .element ⟨0⟩ ⟨3⟩,
      .identifier "tostring", .number "2", .call ⟨5⟩ [⟨6⟩], .assign ⟨4⟩ .plain ⟨7⟩,
      .assign ⟨2⟩ .plain ⟨8⟩, .expressionStatement ⟨9⟩, .array [], .variableDecl "a" (some ⟨11⟩),
      .returns (some ⟨2⟩), .file "main.ts" [⟨12⟩, ⟨10⟩, ⟨13⟩]]
  ⟨(nodes.map fun n => (n, ⟨0, 0⟩)).toArray⟩

theorem nestedWrites_nodes {P : Node → Prop} (h : ∀ e ∈ nestedWrites.entries.toList, P e.1)
    {id : NodeId} {n : Node} (hn : nestedWrites.get? id = some n) : P n := by
  obtain ⟨e, he, rfl⟩ := Option.map_eq_some_iff.1 hn
  exact h e (Array.mem_toList_iff.2 (Array.mem_of_getElem? he))

/-- The inner write keeps its key only where the key is computed. -/
theorem lowerFile_folds_of_nested :
    let store := (intern (.array .number) .initial).2
    let lowered (fold : Bool) := lowerFile nestedWrites ⟨14⟩ store
      (TypeFacts.empty.declare "a" ⟨7⟩) fold
    (lowered true).2 = (lowered false).2 ∧
      EndAlike .none Value.Folds (runChunk (lowered true).1 .initial)
        (runChunk (lowered false).1 .initial) := by
  intro store lowered
  have hnames : ∀ e ∈ nestedWrites.entries.toList, indexTemp ∉ e.1.names := by decide
  have hnumerals : ∀ e ∈ nestedWrites.entries.toList, ∀ text ∈ e.1.numerals,
      ∀ k ∈ Lua.integerOf? (luaNumeral text), k.natAbs < 2 ^ 53 := by decide +kernel
  have hx {id : NodeId} {x : String} (hn : nestedWrites.get? id = some (.identifier x)) :
      x ≠ indexTemp := by
    have h := nestedWrites_nodes (P := fun n => indexTemp ∉ n.names) hnames hn
    exact fun he => h (he ▸ List.mem_cons_self)
  have hi : Context.SmallIndices ⟨nestedWrites, TypeFacts.empty.declare "a" ⟨7⟩, true,
      fileName nestedWrites ⟨14⟩⟩ store :=
    .of_numerals fun id n hn => nestedWrites_nodes
      (P := fun n => ∀ text ∈ n.numerals, IsSmall (.number (luaNumeral text))) hnumerals hn
  obtain ⟨hreported, hruns⟩ := lowerFile_folds hx hi
  exact ⟨hreported, hruns _ (Machine.initial_avoids _)⟩

end ScriptToLua
