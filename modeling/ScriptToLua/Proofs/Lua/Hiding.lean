import Mathlib
import ScriptToLua.Proofs.Lua.Constructor

/-!
A table that no value refers to makes no difference to running code, whatever it holds: `eval_blind` for
expressions, `callAt_blind` for calls.
-/

namespace ScriptToLua.Lua

/-- The value does not refer to the table. -/
abbrev Value.Misses (id : TableId) : Value → Prop := Value.Fits (.hiding id .empty)

/-- Where no value refers to the table `id`, the computation does not make one that does, and does the
same for everything that this table may hold. -/
structure Blind {α : Type} (id : TableId) (V : α → Prop) (act : EvalM α) : Prop where
  keeps : ∀ t, Keeps (.hiding id t) V act
  swap : ∀ {m t} (t'), m.Fits (.hiding id t) →
    act (m.setTable id t') = ((act m).1, (act m).2.setTable id t')

namespace Machine

variable {id id' : TableId}

theorem table_swap (h : id' ≠ id) (m : Machine) (t : Table) :
    (m.setTable id t).table id' = m.table id' :=
  Fits.table_setTable_of_ne (Ne.symm h) t

theorem setTable_comm (h : id' ≠ id) (m : Machine) (t t' : Table) :
    (m.setTable id t').setTable id' t = (m.setTable id' t).setTable id t' := by
  simp only [setTable]
  rw [Array.setIfInBounds_comm _ _ (Ne.symm h)]

theorem declareAll_swap (m : Machine) (id : TableId) (t : Table) (c : Chain) (xs : List String)
    (vs : List Value) :
    (m.setTable id t).declareAll c xs vs = (m.declareAll c xs vs).setTable id t := by
  have hdeclare (m : Machine) (x : String) (v : Value) :
      (m.setTable id t).declare c x v = (m.declare c x v).setTable id t := by
    cases c <;> rfl
  induction xs generalizing m vs with
  | nil => rfl
  | cons x xs ih =>
    cases vs with
    | nil => rw [declareAll, declareAll, hdeclare, ih]
    | cons v vs => rw [declareAll, declareAll, hdeclare, ih]

theorem assign_swap (m : Machine) (id : TableId) (t : Table) (c : Chain) (x : String) (v : Value) :
    (m.setTable id t).assign c x v = (m.assign c x v).setTable id t := by
  have howner : (m.setTable id t).owner? c x = m.owner? c x := rfl
  unfold assign
  rw [howner]
  cases m.owner? c x <;> rfl

theorem newTable_swap {m : Machine} (h : id < m.tables.size) (t : Table) :
    ({ m.setTable id t with tables := (m.setTable id t).tables.push .empty } : Machine) =
      ({ m with tables := m.tables.push .empty } : Machine).setTable id t := by
  have hpush : (m.tables.setIfInBounds id t).push .empty =
      (m.tables.push .empty).setIfInBounds id t := by grind
  simp only [setTable, hpush]

end Machine

namespace Blind

variable {α β : Type} {V : α → Prop} {W : β → Prop} {id : TableId}

theorem pure {a : α} (h : V a) : Blind id V (Pure.pure a) := ⟨fun _ => .pure h, fun _ _ => rfl⟩

theorem fault (e : Fault) : Blind id V (throw e : EvalM α) :=
  ⟨fun _ => .fault nofun, fun _ _ => rfl⟩

theorem bind {act : EvalM α} {next : α → EvalM β} (h : Blind id V act)
    (hn : ∀ a, V a → Blind id W (next a)) : Blind id W (act >>= next) where
  keeps t := (h.keeps t).bind fun a ha => (hn a ha).keeps t
  swap {m t} t' hm := by
    obtain ⟨hm', hv⟩ := (h.keeps t).run m hm
    rw [EvalM.bind_run, EvalM.bind_run, h.swap t' hm]
    rcases hact : act m with ⟨fault | a, m'⟩
    · rfl
    · rw [hact] at hm' hv
      exact (hn a hv).swap t' hm'

theorem modify {f : Machine → Machine} (h : ∀ t m, m.Fits (.hiding id t) → (f m).Fits (.hiding id t))
    (hs : ∀ m t, f (m.setTable id t) = (f m).setTable id t) :
    Blind id (fun _ => True) (modify f) where
  keeps t := .modify (h t)
  swap {m _} t' _ := congrArg (Prod.mk _) (hs m t')

/-- What comes after a look at the machine. -/
theorem get_bind {next : Machine → EvalM β}
    (h : ∀ m t, m.Fits (.hiding id t) → Blind id W (next m))
    (hs : ∀ m t t', m.Fits (.hiding id t) → next (m.setTable id t') = next m) :
    Blind id W (get >>= next) where
  keeps t := Keeps.get.bind fun m hm => (h m t hm).keeps t
  swap {m t} t' hm := by
    rw [EvalM.bind_run, EvalM.bind_run, EvalM.get_run, EvalM.get_run]
    dsimp only
    rw [hs m t t' hm]
    exact (h m t hm).swap t' hm

theorem ofExcept {r : Except Fault α} (h : ∀ a, r = .ok a → V a) : Blind id V (EvalM.ofExcept r) := by
  cases r with
  | error e => exact .fault e
  | ok a => exact .pure (h a rfl)

theorem index {v k : Value} (hv : v.Misses id) : Blind id (Value.Misses id) (EvalM.index v k) where
  keeps t := .index hv
  swap {m _} t' _ := by
    rw [EvalM.index_run, EvalM.index_run]
    cases v with
    | table i =>
      dsimp only
      rw [Machine.table_swap hv]
    | _ => rfl

theorem setEntry {i : TableId} {k v : Value} (hi : i ≠ id) (hv : v.Misses id) :
    Blind id (fun _ => True) (EvalM.setEntry i k v) where
  keeps t := .setEntry hi hv
  swap {m _} t' _ := by
    rw [EvalM.setEntry_run, EvalM.setEntry_run, Machine.table_swap hi]
    cases (m.table i).set k v with
    | ok t =>
      dsimp only
      rw [Machine.setTable_comm hi]
    | error e => rfl

theorem newTable : Blind id (· ≠ id) EvalM.newTable where
  keeps t := .newTable
  swap {m _} t' hm := by
    rw [EvalM.newTable_run, EvalM.newTable_run, Machine.size_setTable,
      Machine.newTable_swap (hm.size id rfl)]

theorem newClosure (parameters : List String) (body : List Code) (c : Chain) :
    Blind id (Value.Misses id) (EvalM.newClosure parameters body c) :=
  ⟨fun _ => .newClosure parameters c nofun, fun _ _ => rfl⟩

theorem openScope (c : Chain) : Blind id (fun _ => True) (EvalM.openScope c) :=
  ⟨fun _ => .openScope c, fun _ _ => rfl⟩

theorem declareAll (c : Chain) (xs : List String) {vs : List Value} (hv : ∀ v ∈ vs, v.Misses id) :
    Blind id (fun _ => True) (modifyThe Machine fun m => m.declareAll c xs vs) :=
  .modify (fun _ _ hm => hm.declareAll c xs hv) fun m t => m.declareAll_swap id t c xs vs

theorem declare (c : Chain) (x : String) {v : Value} (hv : v.Misses id) :
    Blind id (fun _ => True) (EvalM.declare c x v) :=
  .modify (fun _ _ hm => hm.declare c x hv) fun m t => m.declareAll_swap id t c [x] [v]

theorem nested {act : EvalM α} (h : Blind id V act) : Blind id V (EvalM.nested act) where
  keeps t := (h.keeps t).nested
  swap {m t} t' hm := by
    have hm' : ({ m with depth := m.depth + 1 } : Machine).Fits (.hiding id t) := { hm with }
    rw [EvalM.nested_run, EvalM.nested_run]
    dsimp only
    have hswap := h.swap t' hm'
    rw [Machine.setTable] at hswap
    rw [Machine.setTable, hswap]
    rfl

end Blind

/-- Functions that do not refer to the table are called with arguments that do not. -/
def Caller.Blind (id : TableId) (call : Caller) : Prop :=
  ∀ v args, v.Misses id → (∀ a ∈ args, a.Misses id) →
    Lua.Blind id (Value.Misses id) (call v args)

variable {id : TableId}

theorem store_blind (c : Chain) {l : Location} (hl : l.Fits (.hiding id .empty)) {v : Value}
    (hv : v.Misses id) : Blind id (fun _ => True) (store c l v) := by
  cases l with
  | «variable» x =>
    exact .modify (fun _ _ hm => hm.assign c x hv) fun m t => m.assign_swap id t c x v
  | entry t k =>
    cases t with
    | table i => exact .setEntry hl hv
    | _ => exact .fault _

theorem storeAll_blind (c : Chain) {ls : List Location} (hl : ∀ l ∈ ls, l.Fits (.hiding id .empty))
    {vs : List Value} (hv : ∀ v ∈ vs, v.Misses id) :
    Blind id (fun _ => True) (storeAll c ls vs) := by
  induction ls generalizing vs with
  | nil => exact .pure trivial
  | cons l ls ih =>
    obtain ⟨hhead, htail⟩ := List.forall_mem_cons.1 hl
    cases vs with
    | nil => exact (store_blind c hhead (.nil _)).bind fun _ _ => ih htail hv
    | cons v vs =>
      obtain ⟨hvhead, hvtail⟩ := List.forall_mem_cons.1 hv
      exact (store_blind c hhead hvhead).bind fun _ _ => ih htail hvtail

theorem applyUnary_blind (op : UnaryOp) {v : Value} (hv : v.Misses id) :
    Blind id (Value.Misses id) (applyUnary op v) := by
  cases op with
  | not => exact .pure trivial
  | neg =>
    cases v with
    | number x => exact .pure trivial
    | _ => exact .fault _
  | len =>
    cases v with
    | table i =>
      refine .get_bind (fun m t _ => .pure trivial) fun m t t' _ => ?_
      rw [Machine.table_swap hv]
    | string s => exact .pure trivial
    | _ => exact .fault _

theorem apply_misses {op : BinaryOp} {a b v : Value} (ha : a.Misses id) (hb : b.Misses id)
    (h : op.apply a b = .ok v) : v.Misses id := by
  have hends : EndsWithin (.hiding id .empty) (Value.Misses id) (op.apply a b) := apply_ends op ha hb
  rwa [h] at hends

section Code

variable {call : Caller}

mutual

theorem eval_blind (hcall : call.Blind id) (c : Chain) :
    (e : Code) → Blind id (Value.Misses id) (e.eval call c)
  | .nil | .boolean _ | .string _ => by
    simp only [Code.eval]
    exact .pure trivial
  | .number text => by
    simp only [Code.eval]
    cases floatOf? text with
    | some x => exact .pure trivial
    | none => exact .fault _
  | .name x => by
    simp only [Code.eval]
    refine .get_bind (fun m _ hm => .pure ?_) fun _ _ _ _ => rfl
    cases hv : m.lookup? c x with
    | none => trivial
    | some v => exact hm.lookup? hv
  | .index table key => by
    simp only [Code.eval]
    refine (eval_blind hcall c table).bind fun t ht => ?_
    exact (eval_blind hcall c key).bind fun k _ => .index ht
  | .member table x => by
    simp only [Code.eval]
    exact (eval_blind hcall c table).bind fun t ht => .index ht
  | .call callee arguments => by
    simp only [Code.eval]
    refine (eval_blind hcall c callee).bind fun f hf => ?_
    exact (evalAll_blind hcall c arguments).bind fun args ha => hcall f args hf ha
  | .invoke receiver method arguments => by
    simp only [Code.eval]
    refine (eval_blind hcall c receiver).bind fun r hr => (Blind.index hr).bind fun f hf => ?_
    refine (evalAll_blind hcall c arguments).bind fun args ha => ?_
    exact hcall f (r :: args) hf (List.forall_mem_cons.2 ⟨hr, ha⟩)
  | .binary left op right => by
    simp only [Code.eval]
    refine (eval_blind hcall c left).bind fun a ha => ?_
    split
    · exact .pure ha
    · exact (eval_blind hcall c right).bind fun b hb => .ofExcept fun v hv => apply_misses ha hb hv
  | .unary op operand => by
    simp only [Code.eval]
    exact (eval_blind hcall c operand).bind fun v hv => applyUnary_blind op hv
  | .table fields => by
    simp only [Code.eval]
    refine Blind.newTable.bind fun i hi => ?_
    exact (fillAll_blind hcall c hi 1 fields).bind fun _ _ => .pure hi
  | .function parameters body => by
    simp only [Code.eval]
    exact .newClosure parameters body c
  | .paren inner => by
    simp only [Code.eval]
    exact eval_blind hcall c inner
  | .locals _ _ | .localFunction _ _ _ | .assign _ _ | .perform _ | .returns _ | .block _ => by
    simp only [Code.eval]
    exact .fault _

theorem evalAll_blind (hcall : call.Blind id) (c : Chain) :
    (es : List Code) → Blind id (fun vs => ∀ v ∈ vs, v.Misses id) (Code.evalAll call c es)
  | [] => by
    simp only [Code.evalAll]
    exact .pure (List.forall_mem_nil _)
  | e :: rest => by
    simp only [Code.evalAll]
    refine (eval_blind hcall c e).bind fun v hv => ?_
    exact (evalAll_blind hcall c rest).bind fun vs hvs => .pure (List.forall_mem_cons.2 ⟨hv, hvs⟩)

theorem fillAll_blind (hcall : call.Blind id) (c : Chain) {i : TableId} (hi : i ≠ id) (slot : Nat) :
    (fs : List Field) → Blind id (fun _ => True) (Field.fillAll call c i slot fs)
  | [] => by
    simp only [Field.fillAll]
    exact .pure trivial
  | .item value :: rest => by
    simp only [Field.fillAll]
    refine (eval_blind hcall c value).bind fun v hv => (Blind.setEntry hi hv).bind fun _ _ => ?_
    exact fillAll_blind hcall c hi (slot + 1) rest
  | .named x value :: rest => by
    simp only [Field.fillAll]
    refine (eval_blind hcall c value).bind fun v hv => (Blind.setEntry hi hv).bind fun _ _ => ?_
    exact fillAll_blind hcall c hi slot rest
  | .keyed key value :: rest => by
    simp only [Field.fillAll]
    refine (eval_blind hcall c key).bind fun k _ => (eval_blind hcall c value).bind fun v hv => ?_
    exact (Blind.setEntry hi hv).bind fun _ _ => fillAll_blind hcall c hi slot rest

end

theorem locate_blind (hcall : call.Blind id) (c : Chain) (e : Code) :
    Blind id (Location.Fits (.hiding id .empty)) (e.locate call c) := by
  cases e with
  | name x =>
    simp only [Code.locate]
    exact .pure trivial
  | index table key =>
    simp only [Code.locate]
    refine (eval_blind hcall c table).bind fun t ht => ?_
    exact (eval_blind hcall c key).bind fun k _ => .pure ht
  | member table x =>
    simp only [Code.locate]
    exact (eval_blind hcall c table).bind fun t ht => .pure ht
  | _ =>
    simp only [Code.locate]
    exact .fault _

theorem locateAll_blind (hcall : call.Blind id) (c : Chain) (es : List Code) :
    Blind id (fun ls => ∀ l ∈ ls, l.Fits (.hiding id .empty)) (Code.locateAll call c es) := by
  induction es with
  | nil =>
    simp only [Code.locateAll]
    exact .pure (List.forall_mem_nil _)
  | cons e rest ih =>
    simp only [Code.locateAll]
    refine (locate_blind hcall c e).bind fun l hl => ih.bind fun ls hls => ?_
    exact .pure (List.forall_mem_cons.2 ⟨hl, hls⟩)

mutual

theorem exec_blind (hcall : call.Blind id) (c : Chain) :
    (s : Code) → Blind id (Flow.Fits (.hiding id .empty)) (s.exec call c)
  | .locals names values => by
    simp only [Code.exec]
    refine (evalAll_blind hcall c values).bind fun vs hvs => ?_
    exact (Blind.declareAll c names hvs).bind fun _ _ => .pure trivial
  | .localFunction x parameters body => by
    simp only [Code.exec]
    refine (Blind.declare c x (.nil _)).bind fun _ _ => ?_
    refine (Blind.newClosure parameters body c).bind fun f hf => ?_
    exact (Blind.declare c x hf).bind fun _ _ => .pure trivial
  | .assign targets values => by
    simp only [Code.exec]
    refine (locateAll_blind hcall c targets).bind fun ls hls => ?_
    refine (evalAll_blind hcall c values).bind fun vs hvs => ?_
    exact (storeAll_blind c hls hvs).bind fun _ _ => .pure trivial
  | .perform expression => by
    simp only [Code.exec]
    exact (eval_blind hcall c expression).bind fun _ _ => .pure trivial
  | .returns [] => by
    simp only [Code.exec]
    exact .pure trivial
  | .returns (value :: _) => by
    simp only [Code.exec]
    exact (eval_blind hcall c value).bind fun v hv => .pure hv
  | .block body => by
    simp only [Code.exec]
    exact (Blind.openScope c).bind fun inner _ => execAll_blind hcall inner body
  | .nil | .boolean _ | .number _ | .string _ | .name _ | .index _ _ | .member _ _ | .call _ _
  | .invoke _ _ _ | .binary _ _ _ | .unary _ _ | .table _ | .function _ _ | .paren _ => by
    simp only [Code.exec]
    exact .fault _

theorem execAll_blind (hcall : call.Blind id) (c : Chain) :
    (body : List Code) → Blind id (Flow.Fits (.hiding id .empty)) (Code.execAll call c body)
  | [] => by
    simp only [Code.execAll]
    exact .pure trivial
  | s :: rest => by
    simp only [Code.execAll]
    refine (exec_blind hcall c s).bind fun flow hflow => ?_
    cases flow with
    | next => exact execAll_blind hcall c rest
    | returned v => exact .pure hflow

end

theorem runBody_blind (hcall : call.Blind id) (c : Chain) (body : List Code) :
    Blind id (Value.Misses id) (runBody call c body) := by
  refine (execAll_blind hcall c body).bind fun flow hflow => ?_
  cases flow with
  | next => exact .pure trivial
  | returned v => exact .pure hflow

end Code

/-- A call does not see the table, however many calls it leads to. -/
theorem callAt_blind (id : TableId) (room : Nat) : Caller.Blind id (callAt room) := by
  have hbuiltin (b : Builtin) (args : List Value) : (b.apply args).Misses id := by
    cases b <;> trivial
  induction room with
  | zero =>
    intro v args hv ha
    cases v with
    | builtin b => exact .pure (hbuiltin b args)
    | _ => exact .fault _
  | succ room ih =>
    intro v args hv ha
    cases v with
    | builtin b => exact .pure (hbuiltin b args)
    | function f =>
      simp only [callAt]
      refine .get_bind (fun m _ _ => ?_) fun _ _ _ _ => rfl
      have hrun : Blind id (Value.Misses id) (do
          let chain ← EvalM.openScope f.chain
          modify fun m => m.declareAll chain f.parameters args
          EvalM.nested (runBody (callAt room) chain f.body)) := by
        refine (Blind.openScope f.chain).bind fun chain _ => ?_
        refine (Blind.declareAll chain f.parameters ha).bind fun _ _ => ?_
        exact (runBody_blind ih chain f.body).nested
      split
      · exact .fault _
      · exact hrun
    | _ => exact .fault _

end ScriptToLua.Lua
