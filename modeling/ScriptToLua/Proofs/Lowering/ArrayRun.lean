import Mathlib
import ScriptToLua.Proofs.Lowering.ArrayProgram
import ScriptToLua.Proofs.Lua.Slot

/-!
Running programs on one array. The table that holds the array is a map from targets to values, with
indices that count from zero: `ArrayProgram.Holds` is kept by every step, and `run_eq` follows.
-/

namespace ScriptToLua

open Lua (Caller Chain Code EvalM Key Location Machine TableId Value callAt maxCallDepth)
open Source (Arena NodeId)

theorem Constant.eval_code (c : Constant) (call : Caller) (chain : Chain) :
    c.code.eval call chain = pure c.value := by
  cases c with
  | natural n => simp only [code, value, Code.eval, Lua.floatOf?_toString]
  | _ => rfl

namespace ArrayProgram

/-- What an array holds, every slot and every member by itself. -/
abbrev Contents := Target → Value

/-- What an array literal holds. -/
def initial (elements : List Constant) : Contents
  | .slot k => (elements[k]?.map Constant.value).getD .nil
  | .member _ => .nil

def Step.apply (s : Contents) : Step → Contents
  | write target value => Function.update s target value.value
  | delete target => Function.update s target .nil

/-- The value of a probe of an array with the contents `s`. -/
def Probe.result (s : Contents) : Probe → Value
  | read target => s target
  | delete _ => .boolean true

/-- The value of a program. -/
def result (elements : List Constant) (steps : List Step) (probe : Probe) : Value :=
  probe.result (steps.foldl Step.apply (initial elements))

namespace Target

/-- The index is below `2 ^ 53 - 1`. -/
def Small : Target → Prop
  | slot k => k + 1 < 2 ^ 53
  | member _ => True

theorem Allowed.small {shape : Shape} {target : Target} (h : target.Allowed shape) :
    target.Small := by
  cases target with
  | slot k => exact h
  | member name => trivial

/-- What a table looks the target up by. -/
def index : Target → Value
  | slot k => .number (Float.ofNat (k + 1))
  | member name => .string name

def key : Target → Key
  | slot k => .slot (k + 1)
  | member name => .string name

theorem ofValue_index (target : Target) : Key.ofValue target.index = .ok target.key := by
  cases target with
  | slot k => exact Key.ofValue_slot (k + 1)
  | member name => rfl

/-- No other target shares the key of a small one. -/
theorem key_inj {target target' : Target} (h : target'.Small) :
    target.key = target'.key ↔ target = target' := by
  cases target with
  | slot k =>
    cases target' with
    | slot k' => simp only [key, Key.slot_inj h, slot.injEq, Nat.add_right_cancel_iff]
    | member name => simp only [key, Key.slot_ne_string, reduceCtorEq]
  | member name =>
    cases target' with
    | slot k' => simp only [key, (Key.slot_ne_string _ name).symm, reduceCtorEq]
    | member name' => simp only [key, Key.string.injEq, member.injEq]

end Target

/-- The variable `x` is the table `id`, which has the contents `s`. -/
structure Holds (x : String) (c : Chain) (id : TableId) (s : Contents) (m : Machine) : Prop where
  lookup : m.lookup? c x = some (.table id)
  lt_size : id < m.tables.size
  read : ∀ target : Target, target.Small → (m.table id).read target.key = s target

section Run

variable {x : String} {c : Chain} {id : TableId} {s : Contents} {m : Machine} {target : Target}
  {call : Caller}

theorem Holds.write (h : Holds x c id s m) (ht : target.Small) (v : Value) :
    Holds x c id (Function.update s target v)
      (m.setTable id ((m.table id).write target.key v)) where
  lookup := h.lookup
  lt_size := by rw [Machine.size_setTable]; exact h.lt_size
  read target' ht' := by
    rw [Machine.table_setTable h.lt_size, Lua.Table.read_write, Function.update_apply,
      h.read target' ht']
    simp only [Target.key_inj ht]

theorem Holds.eval_name (h : Holds x c id s m) : (Code.name x).eval call c m = (.ok (.table id), m) := by
  change (Except.ok ((m.lookup? c x).getD .nil), m) = _
  rw [h.lookup]
  rfl

/-- Whether it is read or written, a target is looked up by its index. -/
theorem Holds.locate (h : Holds x c id s m) (ht : target.Small) (fold : Bool) :
    (target.place fold x).code.locate call c m = (.ok (.entry (.table id) target.index), m) := by
  cases target with
  | slot k =>
    simp only [Target.place, Lowering.Place.code, Code.locate, EvalM.bind_run_ok h.eval_name,
      Lua.eval_oneBased fold ht, pure_bind]
    rfl
  | member name =>
    simp only [Target.place, Lowering.Place.code, Code.locate, EvalM.bind_run_ok h.eval_name]
    rfl

theorem Holds.eval (h : Holds x c id s m) (ht : target.Small) (fold : Bool) :
    (target.place fold x).code.eval call c m = (.ok (s target), m) := by
  have hv : EvalM.index (.table id) target.index m = (.ok (s target), m) := by
    simp only [EvalM.index_run, Lua.Table.get, target.ofValue_index, h.read target ht]
  cases target with
  | slot k =>
    rw [Target.place, Lowering.Place.code, Code.eval, EvalM.bind_run_ok h.eval_name,
      Lua.eval_oneBased fold ht, pure_bind]
    exact hv
  | member name =>
    rw [Target.place, Lowering.Place.code, Code.eval, EvalM.bind_run_ok h.eval_name]
    exact hv

theorem Holds.exec_store (h : Holds x c id s m) (ht : target.Small) (fold : Bool) {e : Code}
    {v : Value} (he : e.eval call c = pure v) :
    (Code.store (target.place fold x).code e).exec call c m =
      (.ok .next, m.setTable id ((m.table id).write target.key v)) := by
  have hset : EvalM.setEntry id target.index v m =
      (.ok (), m.setTable id ((m.table id).write target.key v)) := by
    rw [EvalM.setEntry_run, Lua.Table.set, target.ofValue_index]
    rfl
  simp only [Code.store, Code.exec, Code.locateAll, Code.evalAll, he, bind_assoc, pure_bind,
    EvalM.bind_run_ok (h.locate ht fold), Lua.storeAll, Lua.store, EvalM.bind_run_ok hset]
  rfl

theorem Holds.exec_step (h : Holds x c id s m) {step : Step} (ht : step.target.Small) (fold : Bool) :
    ∃ m', (step.code fold x).exec call c m = (.ok .next, m') ∧ m'.depth = m.depth ∧
      Holds x c id (step.apply s) m' := by
  cases step with
  | write target value =>
    exact ⟨_, h.exec_store ht fold (value.eval_code call c), rfl, h.write ht value.value⟩
  | delete target => exact ⟨_, h.exec_store ht fold rfl, rfl, h.write ht .nil⟩

theorem Holds.execAll_steps (h : Holds x c id s m) {steps : List Step}
    (ht : ∀ step ∈ steps, step.target.Small) (fold : Bool) (call : Caller) (rest : List Code) :
    ∃ m', Code.execAll call c (steps.map (Step.code fold x) ++ rest) m =
        Code.execAll call c rest m' ∧ m'.depth = m.depth ∧
      Holds x c id (steps.foldl Step.apply s) m' := by
  induction steps generalizing s m with
  | nil => exact ⟨m, rfl, rfl, h⟩
  | cons step steps ih =>
    obtain ⟨m₁, hrun, hd, h₁⟩ := h.exec_step (ht step List.mem_cons_self) fold
    obtain ⟨m', hrest, hd', h'⟩ := ih h₁ fun step hs => ht step (List.mem_cons_of_mem _ hs)
    refine ⟨m', ?_, hd'.trans hd, h'⟩
    rw [List.map_cons, List.cons_append, Lua.execAll_next hrun]
    exact hrest

/-- A deletion as a value runs in a function of its own, which sees the array too. -/
theorem Holds.eval_deletion (h : Holds x c id s m) (ht : target.Small) (fold : Bool)
    (hd : m.depth < maxCallDepth) (room : Nat) :
    ∃ m', (Lowering.deletion (target.place fold x).code .value).eval (callAt (room + 1)) c m =
      (.ok (.boolean true), m') := by
  let m₁ : Machine :=
    { m with
      scopes := m.scopes.push .empty
      nextClosure := m.nextClosure + 1
      depth := m.depth + 1 }
  have hlookup : m₁.lookup? (m.scopes.size :: c) x = m.lookup? c x :=
    Machine.lookup?_push (by rfl) (by rfl) c x
  have hinner : Holds x (m.scopes.size :: c) id s m₁ := ⟨hlookup.trans h.lookup, h.lt_size, h.read⟩
  have hstore := hinner.exec_store ht fold (rfl : Code.nil.eval (callAt room) _ = pure .nil)
  have htrue (m' : Machine) : (Code.boolean true).eval (callAt room) (m.scopes.size :: c) m' =
      (.ok (.boolean true), m') := rfl
  have hbody := (Lua.execAll_next hstore _).trans
    (Lua.execAll_returned (Lua.exec_yields (htrue _)) [])
  have hrun := Lua.immediate_run room c
    [.store (target.place fold x).code .nil, .yields (.boolean true)] hd
  rw [Lua.runBody_returned hbody] at hrun
  exact ⟨_, hrun⟩

theorem Holds.eval_probe (h : Holds x c id s m) {probe : Probe} (ht : probe.target.Small)
    (fold : Bool) (hd : m.depth < maxCallDepth) (room : Nat) :
    ∃ m', (probe.code fold x).eval (callAt (room + 1)) c m = (.ok (probe.result s), m') := by
  cases probe with
  | read target => exact ⟨m, h.eval ht fold⟩
  | delete target => exact h.eval_deletion ht fold hd room

/-- The declaration of the variable makes the table. -/
theorem exec_array (call : Caller) (n : Lua.ScopeId) (x : String) (elements : List Constant)
    {m : Machine} (hn : n < m.scopes.size) :
    ∃ m', (Code.bindLocal x (Lowering.arrayLiteral (elements.map Constant.code))).exec call [n] m =
        (.ok .next, m') ∧ m'.depth = m.depth ∧ Holds x [n] m.tables.size (initial elements) m' := by
  let t := Lua.Table.fill 1 (elements.map Constant.value) .empty
  let m₁ : Machine := { m with tables := m.tables.push .empty }
  have hlt : m.tables.size < m₁.tables.size := by
    rw [Array.size_push]
    exact Nat.lt_succ_self m.tables.size
  have hempty : m₁.table m.tables.size = .empty := by
    simp only [Machine.table, m₁, Array.getElem?_push_size, Option.getD_some]
  have hes : List.Forall₂ (fun e v => e.eval call [n] = pure v) (elements.map Constant.code)
      (elements.map Constant.value) := by
    rw [List.forall₂_map_left_iff, List.forall₂_map_right_iff, List.forall₂_same]
    exact fun e _ => e.eval_code call [n]
  have hfill := Lua.fillAll_items hes 1 hlt
  rw [hempty] at hfill
  have htable : (Lowering.arrayLiteral (elements.map Constant.code)).eval call [n] m =
      (.ok (.table m.tables.size), m₁.setTable m.tables.size t) := by
    rw [Lowering.arrayLiteral, Code.eval, EvalM.bind_run_ok (EvalM.newTable_run m),
      EvalM.bind_run_ok hfill]
    rfl
  refine ⟨(m₁.setTable m.tables.size t).declare [n] x (.table m.tables.size), ?_, rfl, ?_, ?_, ?_⟩
  · rw [Code.bindLocal, Code.exec, Code.evalAll, bind_assoc, EvalM.bind_run_ok htable]
    rfl
  · exact Machine.lookup?_declare hn [] x _
  · exact (Machine.size_setTable t).symm ▸ hlt
  · intro target ht
    have ht' : ((m₁.setTable m.tables.size t).declare [n] x (.table m.tables.size)).table
        m.tables.size = t := Machine.table_setTable hlt t
    rw [ht']
    cases target with
    | slot k =>
      have hk : 1 + k < 2 ^ 53 := Nat.add_comm k 1 ▸ ht
      have hread := Lua.Table.read_fill hk (elements.map Constant.value) .empty
      rw [List.getElem?_map, Nat.add_comm] at hread
      exact hread
    | member name => exact Lua.Table.read_fill_string 1 _ .empty name

end Run

/-- A program runs to its value. -/
theorem run_chunk (x : String) (fold : Bool) {elements : List Constant} {steps : List Step}
    {probe : Probe} (hs : ∀ step ∈ steps, step.target.Small) (hp : probe.target.Small) {m : Machine}
    (hd : m.depth < maxCallDepth) :
    (Lua.runChunk (chunk fold x elements steps probe) m).1 = .ok (result elements steps probe) := by
  obtain ⟨room, hroom⟩ : ∃ room, maxCallDepth - m.depth = room + 1 :=
    ⟨maxCallDepth - m.depth - 1, by omega⟩
  let m₀ : Machine := { m with scopes := m.scopes.push .empty }
  have hn : m.scopes.size < m₀.scopes.size := by
    rw [Array.size_push]
    exact Nat.lt_succ_self m.scopes.size
  have hrun : Lua.runChunk (chunk fold x elements steps probe) m =
      Lua.runBody (callAt (room + 1)) [m.scopes.size] (chunk fold x elements steps probe) m₀ :=
    hroom ▸ rfl
  obtain ⟨m₁, h₁, hd₁, hholds₁⟩ := exec_array (callAt (room + 1)) m.scopes.size x elements hn
  obtain ⟨m₂, h₂, hd₂, hholds₂⟩ := hholds₁.execAll_steps hs fold (callAt (room + 1)) [.yields (probe.code fold x)]
  have hd : m₂.depth < maxCallDepth := by
    rw [hd₂, hd₁]
    exact hd
  obtain ⟨m₃, h₃⟩ := hholds₂.eval_probe hp fold hd room
  have hbody : Code.execAll (callAt (room + 1)) [m.scopes.size]
      (chunk fold x elements steps probe) m₀ =
        (.ok (.returned (result elements steps probe)), m₃) := by
    rw [chunk, List.cons_append, Lua.execAll_next h₁, h₂]
    exact Lua.execAll_returned (Lua.exec_yields h₃) []
  rw [hrun, Lua.runBody_returned hbody]

/-- An array is a map from targets to values: a program yields what was last written to the target
that it reads and not deleted since, otherwise the initial element there, otherwise `nil`; a deletion
as a value is true. -/
theorem lowered_run_eq {a : Arena} {x : String} {store : TypeStore} {facts : TypeFacts}
    {t : TypeId} (hb : store.WellFormed) (ht : store.Has t) (hx : IsTyped a x store facts t)
    (hl : (shapeOf t store).1.isArrayLike) {root : NodeId} {elements : List Constant}
    {steps : List Step} {probe : Probe} (h : IsProgram a x root elements steps probe)
    (hs : ∀ step ∈ steps, step.target.Allowed (shapeOf t store).1)
    (hp : probe.target.Allowed (shapeOf t store).1) (fold : Bool) {m : Machine}
    (hd : m.depth < maxCallDepth) :
    (Lua.runChunk (lowerFile a root store facts fold).1 m).1 = .ok (result elements steps probe) := by
  rw [lowerFile_eq hb ht hx hl h hs hp]
  exact run_chunk (Lua.rename x) fold (fun step hm => (hs step hm).small) hp.small hd

section Tagged

/-- Arrays of numbers, and an interface that adds a name to them. -/
def taggedStore : TypeStore :=
  let s := (intern (.array .number) .initial).2
  (intern (.interface "Tagged" [⟨7⟩] [{ name := "tag", type := .string }]) s).2

theorem taggedStore_wellFormed : taggedStore.WellFormed := by
  obtain ⟨h, -, -⟩ := intern_grows (d := .array .number) TypeStore.initial_wellFormed (by decide)
  obtain ⟨h', -, -⟩ := intern_grows
    (d := .interface "Tagged" [⟨7⟩] [{ name := "tag", type := .string }]) h (by decide +kernel)
  exact h'

/-- `let a: Tagged = [7, null]; a[1] = true; a.tag = "t"; delete a[0]; return a[1]` -/
def taggedArena : Arena :=
  let nodes : List Source.Node :=
    [.number "7", .null, .array [⟨0⟩, ⟨1⟩], .variableDecl "a" (some ⟨2⟩),
      .identifier "a", .number "1", .element ⟨4⟩ ⟨5⟩, .boolean true, .assign ⟨6⟩ .plain ⟨7⟩,
      .expressionStatement ⟨8⟩,
      .property ⟨4⟩ "tag", .string "t", .assign ⟨10⟩ .plain ⟨11⟩, .expressionStatement ⟨12⟩,
      .number "0", .element ⟨4⟩ ⟨14⟩, .delete ⟨15⟩, .expressionStatement ⟨16⟩,
      .returns (some ⟨6⟩), .file "a.ts" [⟨3⟩, ⟨9⟩, ⟨13⟩, ⟨17⟩, ⟨18⟩]]
  ⟨(nodes.map fun n => (n, ⟨0, 0⟩)).toArray⟩

theorem lowered_run_eq_of_tagged :
    let run (fold : Bool) := Lua.runChunk (lowerFile taggedArena ⟨19⟩ taggedStore
      (TypeFacts.empty.declare "a" ⟨8⟩) fold).1 .initial
    (run true).1 = .ok (.boolean true) ∧ (run false).1 = .ok (.boolean true) := by
  have htyped : IsTyped taggedArena "a" taggedStore (TypeFacts.empty.declare "a" ⟨8⟩) ⟨8⟩ :=
    ⟨rfl, nofun, nofun⟩
  have hsecond : IsTarget taggedArena "a" ⟨6⟩ (.slot 1) := ⟨_, _, rfl, rfl, rfl⟩
  have hwrite : IsStep taggedArena "a" ⟨9⟩ (.write (.slot 1) (.boolean true)) :=
    ⟨_, _, _, rfl, rfl, hsecond, rfl⟩
  have htag : IsStep taggedArena "a" ⟨13⟩ (.write (.member "tag") (.text "t")) :=
    ⟨_, _, _, rfl, rfl, ⟨_, rfl, rfl⟩, rfl⟩
  have hdelete : IsStep taggedArena "a" ⟨17⟩ (.delete (.slot 0)) :=
    ⟨_, _, rfl, rfl, _, _, rfl, rfl, rfl⟩
  have hprogram : IsProgram taggedArena "a" ⟨19⟩ [.natural 7, .null]
      [.write (.slot 1) (.boolean true), .write (.member "tag") (.text "t"), .delete (.slot 0)]
      (.read (.slot 1)) :=
    ⟨_, _, _, _, [⟨9⟩, ⟨13⟩, ⟨17⟩], _, _, rfl, rfl, rfl, .cons rfl (.cons rfl .nil),
      .cons hwrite (.cons htag (.cons hdelete .nil)), rfl, hsecond⟩
  have hrun (fold : Bool) := lowered_run_eq taggedStore_wellFormed (by decide +kernel) htyped
    (by decide +kernel) hprogram (by decide +kernel) (by decide +kernel) fold
    (by decide : Machine.initial.depth < maxCallDepth)
  exact ⟨hrun true, hrun false⟩

end Tagged

end ArrayProgram

end ScriptToLua
