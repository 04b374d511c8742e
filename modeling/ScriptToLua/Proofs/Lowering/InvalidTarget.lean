import Mathlib
import ScriptToLua.Proofs.Lowering.Growth
import ScriptToLua.Proofs.Lowering.WellFormed
import ScriptToLua.Proofs.Lua.Computation

/-!
Assignments to what cannot be written. Where its value is needed, such an assignment is its value. As a
statement it evaluates the value if that is a call, and nothing otherwise, so that what a call inside
the value does is lost: `unwritable_keeps_value`.
-/

namespace ScriptToLua

open Source (Node NodeId)

/-- The node is a variable or an access. -/
def Source.Node.isPlace : Node → Bool
  | identifier _ => true
  | property .. => true
  | element .. => true
  | _ => false

namespace Lowering

open Lua (Code Caller Chain Machine Value callAt)

/-- The access is the length of an array-like receiver that declares no member of that name. -/
structure Access.IsLengthOf (a : Access) : Prop where
  isArrayLike : a.shape.isArrayLike
  undeclared : a.shape.member? "length" = none
  names : a.Names "length"

theorem Access.isLength_iff (s : TypeStore) (fold : Bool) (a : Access) :
    a.isLength s fold ↔ a.IsLengthOf := by
  obtain ⟨receiver, key, shape⟩ := a
  constructor
  · intro h
    unfold isLength landing? at h
    split at h
    · next hl =>
      split at hl
      · next ha =>
        dsimp only at ha
        cases key with
        | named x =>
          simp only [landNamed] at hl
          split at hl
          · cases hl
          · next hm =>
            split at hl
            · next hx => exact ⟨ha, by simpa [hx] using hm, .inl (congrArg _ hx)⟩
            · cases hl
        | element index t =>
          cases index with
          | string x =>
            simp only [landString] at hl
            split at hl
            · cases hl
            · split at hl
              · next hx => exact ⟨ha, hx.1 ▸ hx.2, .inr ⟨t, by rw [hx.1]⟩⟩
              · cases hl
          | _ =>
            simp only [landComputed] at hl
            split at hl <;> cases hl
      · cases hl
    · cases h
  · rintro ⟨ha, hm, hk⟩
    dsimp only [Names] at ha hm hk
    have hindex : isIndexText "length" = false := by decide
    rcases hk with rfl | ⟨t, rfl⟩
    · simp [isLength, landing?, landNamed, ha, hm]
    · simp [isLength, landing?, landString, ha, hm, hindex]

/-- The target cannot be written: it is neither a variable nor an access, or it is the length of an
array-like receiver. -/
inductive Unwritable (lower : Lowerer) (ctx : Context) (st : State) (target : NodeId) : Prop
  | other (h : (ctx.arena.get? (ctx.arena.strip target)).any Node.isPlace = false)
  | length {a : Access} (ha : (accessAt? lower (ctx.arena.strip target) ctx st).1 = some a)
    (hl : a.IsLengthOf)

theorem Unwritable.of_isLength {lower : Lowerer} {ctx : Context} {st : State} {target : NodeId}
    (s : TypeStore) (fold : Bool)
    (h : (accessAt? lower (ctx.arena.strip target) ctx st).1.any (Access.isLength s fold)) :
    Unwritable lower ctx st target := by
  obtain ⟨a, ha, hl⟩ := (Option.any_eq_true _ _).1 h
  exact .length ha ((a.isLength_iff s fold).1 hl)

section Targets

variable {lower : Lowerer} {ctx : Context} {st : State} {id target value : NodeId}
  {op : Source.AssignOp}

/-- The computation finds nothing. -/
def FindsNothing {α : Type} (ctx : Context) (st : State) (act : LowerM (Option α)) : Prop :=
  (act ctx st).1 = none

namespace FindsNothing

variable {α β : Type}

theorem bind {act : LowerM α} {next : α → LowerM (Option β)}
    (h : FindsNothing ctx (act ctx st).2 (next (act ctx st).1)) :
    FindsNothing ctx st (act >>= next) := h

theorem bind_read {next : Context → LowerM (Option β)} (h : FindsNothing ctx st (next ctx)) :
    FindsNothing ctx st (read >>= next) := h

theorem pure : FindsNothing ctx st (Pure.pure none : LowerM (Option α)) := rfl

end FindsNothing

theorem accessAt?_findsNothing (h : (ctx.arena.get? id).any Node.isPlace = false) :
    FindsNothing ctx st (accessAt? lower id) := by
  have hnode (n : Node) (hn : ctx.arena.get? id = some n) : n.isPlace = false := by
    simpa [hn] using h
  refine FindsNothing.bind ?_
  change FindsNothing ctx st _
  split
  · next hn => exact nomatch hnode _ hn
  · next hn => exact nomatch hnode _ hn
  · exact .pure

/-- No place is found for what cannot be written. -/
theorem placeAt?_findsNothing (h : Unwritable lower ctx st target) :
    FindsNothing ctx st (placeAt? lower id target) := by
  refine FindsNothing.bind_read ?_
  dsimp only
  split
  · next x hn =>
    cases h with
    | other h => simp [hn, Node.isPlace] at h
    | length ha =>
      rw [accessAt?, bind_node?_run, hn] at ha
      cases ha
  · refine FindsNothing.bind ?_
    cases h with
    | other h =>
      rw [accessAt?_findsNothing h]
      exact FindsNothing.bind .pure
    | length ha hl =>
      rw [ha]
      refine FindsNothing.bind ?_
      split
      · exact FindsNothing.bind .pure
      · next hn => exact absurd ((Access.isLength_iff _ _ _).2 hl) hn

/-- The code of an assigned value, which is lowered after the target. -/
def assignedValue (lower : Lowerer) (id target : NodeId) (op : Source.AssignOp) (value : NodeId) :
    LowerM Code := do
  let _ ← compoundOp op target value
  let _ ← placeAt? lower id target
  lower value

theorem assignment?_unwritable
    (h : Unwritable lower ctx (compoundOp op target value ctx st).2 target) (use : Use) :
    (assignment? lower id target op value use ctx st).1 =
      valueOnly (assignedValue lower id target op value ctx st).1 use := by
  unfold assignment? assignedValue
  simp only [bind_run, show (placeAt? lower id target ctx _).1 = none from placeAt?_findsNothing h]
  rfl

theorem expressionStatement_assign_run {e : NodeId}
    (h : ctx.arena.get? (ctx.arena.strip e) = some (.assign target op value)) :
    (expressionStatement e ctx st).1 =
      (assignment? expression (ctx.arena.strip e) target op value .statement ctx st).1.toList := by
  have hread : (read : LowerM Context) ctx st = (ctx, st) := rfl
  simp only [expressionStatement, bind_run, hread, h]
  rfl

theorem expressionAt_assign_run {room : Nat}
    (h : ctx.arena.get? id = some (.assign target op value)) :
    (expressionAt (room + 1) id ctx st).1 =
      (assignment? (expressionAt room) id target op value .value ctx st).1.getD .nil := by
  rw [expressionAt, bind_node?_run, h]
  rfl

end Targets

/-- What is left of an assignment statement does what the value does if the value is a call, or if it
does nothing. -/
theorem valueOnly_exec_iff (v : Code) (call : Caller) (c : Chain) (m : Machine) :
    Code.execAll call c (valueOnly v .statement).toList m = (Code.perform v).exec call c m ↔
      v.isCall ∨ ∃ w, v.eval call c m = (.ok w, m) := by
  have hperform : (Code.perform v).exec call c m =
      ((v.eval call c m).1.map fun _ => .next, (v.eval call c m).2) := by
    rw [Code.exec]
    exact Lua.EvalM.map_run (fun _ => Lua.Flow.next) _ m
  rw [valueOnly]
  split
  · next hcall =>
    refine iff_of_true ?_ (.inl hcall)
    rw [Option.toList_some, Code.execAll, Lua.EvalM.bind_run, hperform]
    rcases v.eval call c m with ⟨_ | _, _⟩ <;> rfl
  · next hcall =>
    rw [hperform, Option.toList_none, Code.execAll, Lua.EvalM.pure_run, or_iff_right hcall]
    constructor
    · intro h
      generalize v.eval call c m = o at h ⊢
      obtain ⟨_ | w, m'⟩ := o
      · cases h
      · cases h
        exact ⟨w, rfl⟩
    · rintro ⟨w, hw⟩
      rw [hw]
      rfl

/-- An assignment to what cannot be written is its value. As a statement it runs like its value
exactly where the value is a call or does nothing. -/
theorem unwritable_keeps_value {ctx : Context} {st : State} {id target value : NodeId}
    {op : Source.AssignOp} (hn : ctx.arena.get? id = some (.assign target op value)) :
    (∀ room, Unwritable (expressionAt room) ctx (compoundOp op target value ctx st).2 target →
      (expressionAt (room + 1) id ctx st).1 =
        (assignedValue (expressionAt room) id target op value ctx st).1) ∧
    ∀ e, ctx.arena.strip e = id →
      Unwritable expression ctx (compoundOp op target value ctx st).2 target →
      ∀ (call : Caller) (c : Chain) (m : Machine),
        let v := (assignedValue expression id target op value ctx st).1
        Code.execAll call c (expressionStatement e ctx st).1 m = (Code.perform v).exec call c m ↔
          v.isCall ∨ ∃ w, v.eval call c m = (.ok w, m) := by
  constructor
  · intro room h
    rw [expressionAt_assign_run hn, assignment?_unwritable h]
    rfl
  · rintro e rfl h call c m
    rw [expressionStatement_assign_run hn, assignment?_unwritable h]
    exact valueOnly_exec_iff _ call c m

section Programs

/-- `target = value`, where `f` is a function and `a` an array, with the assignment at `3`. -/
def storeContext (target value : Node) : Context where
  arena :=
    let nodes : List Node :=
      [.identifier "a", target, value, .assign ⟨1⟩ .plain ⟨2⟩, .identifier "f", .call ⟨4⟩ []]
    ⟨(nodes.map fun n => (n, ⟨0, 0⟩)).toArray⟩
  facts := TypeFacts.empty.declare "a" ⟨7⟩
  fold := true
  file := "main.ts"

def storeState : State := ⟨(intern (.array .number) .initial).2, [], false⟩

/-- A variable `n` that is false, and a function `f` that makes it true. -/
def storeMachine : Machine :=
  let f : Lua.Closure := ⟨0, [], [.store (.name "n") (.boolean true)], [0]⟩
  { Machine.initial with scopes := #[.ofList [("n", .boolean false), ("f", .function f)]] }

/-- `a.length = f()` calls `f`. -/
theorem unwritable_keeps_value_of_length :
    let ctx := storeContext (.property ⟨0⟩ "length") (.call ⟨4⟩ [])
    Unwritable (expressionAt 499) ctx (compoundOp .plain ⟨1⟩ ⟨2⟩ ctx storeState).2 ⟨1⟩ ∧
      (expressionAt 500 ⟨3⟩ ctx storeState).1 =
        (assignedValue (expressionAt 499) ⟨3⟩ ⟨1⟩ .plain ⟨2⟩ ctx storeState).1 ∧
      Code.execAll (callAt 1) [0] (expressionStatement ⟨3⟩ ctx storeState).1 storeMachine =
        (Code.perform (assignedValue expression ⟨3⟩ ⟨1⟩ .plain ⟨2⟩ ctx storeState).1).exec (callAt 1)
          [0] storeMachine := by
  intro ctx
  have hvalue : Unwritable (expressionAt 499) ctx (compoundOp .plain ⟨1⟩ ⟨2⟩ ctx storeState).2 ⟨1⟩ :=
    .of_isLength .initial true (by decide +kernel)
  have hstatement : Unwritable expression ctx (compoundOp .plain ⟨1⟩ ⟨2⟩ ctx storeState).2 ⟨1⟩ :=
    .of_isLength .initial true (by decide +kernel)
  have hn : ctx.arena.get? ⟨3⟩ = some (.assign ⟨1⟩ .plain ⟨2⟩) := rfl
  refine ⟨hvalue, (unwritable_keeps_value hn).1 499 hvalue, ?_⟩
  exact ((unwritable_keeps_value hn).2 ⟨3⟩ rfl hstatement (callAt 1) [0] storeMachine).2
    (.inl (by decide +kernel))

/-- `5 = !f()` does not call `f`. -/
theorem not_unwritable_keeps_value :
    let ctx := storeContext (.number "5") (.unary .not ⟨5⟩)
    let value := (assignedValue expression ⟨3⟩ ⟨1⟩ .plain ⟨2⟩ ctx storeState).1
    let flag (o : Except Lua.Fault Lua.Flow × Machine) := (o.2.lookup? [0] "n").map Value.isTruthy
    (ctx.arena.get? (ctx.arena.strip ⟨1⟩)).any Node.isPlace = false ∧
      flag (Code.execAll (callAt 1) [0] (expressionStatement ⟨3⟩ ctx storeState).1
          storeMachine) = some false ∧
      flag ((Code.perform value).exec (callAt 1) [0] storeMachine) = some true := by
  decide +kernel

end Programs

end Lowering

end ScriptToLua
