import Mathlib
import ScriptToLua.Proofs.Lua.Computation
import ScriptToLua.Proofs.Lua.Grammar
import ScriptToLua.Proofs.OrderedMap

/-!
What running code keeps to, `callAt_keeps` and `runChunk_keeps`: functions made from well-formed
code have well-formed bodies, so no part of the code is ever misplaced; and a table that no value
refers to stays as it is.
-/

namespace ScriptToLua

namespace Lua

/-- The fault is about code in the wrong place. -/
def Fault.isMisplaced : Fault → Bool
  | expressionAsStatement => true
  | statementAsExpression => true
  | invalidTarget => true
  | _ => false

/-- What running code has to respect. -/
structure Guard where
  /-- Whether the bodies of all functions are blocks of statements. -/
  strict : Bool
  /-- The tables that no value refers to. -/
  hidden : TableId → Prop
  /-- What the hidden tables hold. -/
  content : TableId → Table

/-- All code is well formed, and all tables may be referred to. -/
def Guard.blocks : Guard := ⟨true, fun _ => False, fun _ => .empty⟩

/-- The value leads to no hidden table and, by itself, to no malformed code. -/
def Value.Fits (g : Guard) : Value → Prop
  | .table id => ¬ g.hidden id
  | .function f => g.strict → Code.IsBlock .any f.body
  | _ => True

theorem Value.Fits.nil (g : Guard) : Value.nil.Fits g := trivial

/-- All values that the machine holds fit, and the hidden tables are as they were. -/
structure Machine.Fits (g : Guard) (m : Machine) : Prop where
  globals : m.globals.AllValues (Value.Fits g)
  scopes : ∀ i, (m.scope i).AllValues (Value.Fits g)
  tables : ∀ id, ¬ g.hidden id → (m.table id).AllValues (Value.Fits g)
  size : ∀ id, g.hidden id → id < m.tables.size
  content : ∀ id, g.hidden id → m.table id = g.content id

namespace Machine.Fits

variable {g : Guard} {m : Machine} {v : Value}

theorem lookup? (h : m.Fits g) {c : Chain} {x : String} (hv : m.lookup? c x = some v) :
    v.Fits g := by
  unfold Machine.lookup? at hv
  split at hv
  · exact (h.scopes _).get? hv
  · exact h.globals.get? hv

theorem declare (h : m.Fits g) (c : Chain) (x : String) (hv : v.Fits g) :
    (m.declare c x v).Fits g := by
  cases c with
  | nil => exact { h with globals := h.globals.insert x hv }
  | cons i c =>
    refine { h with scopes := fun j => ?_ }
    simp only [Machine.declare, Machine.scope_modify]
    split
    · exact (h.scopes j).insert x hv
    · exact h.scopes j

theorem assign (h : m.Fits g) (c : Chain) (x : String) (hv : v.Fits g) :
    (m.assign c x v).Fits g := by
  unfold Machine.assign
  split
  · exact h.declare _ x hv
  · exact h.declare _ x hv

theorem declareAll (h : m.Fits g) (c : Chain) (xs : List String) {vs : List Value}
    (hv : ∀ v ∈ vs, v.Fits g) : (m.declareAll c xs vs).Fits g := by
  induction xs generalizing m vs with
  | nil => exact h
  | cons x xs ih =>
    cases vs with
    | nil => exact ih (h.declare c x (.nil g)) hv
    | cons v vs =>
      exact ih (h.declare c x (hv v List.mem_cons_self))
        fun w hw => hv w (List.mem_cons_of_mem v hw)

theorem openScope (h : m.Fits g) : ({ m with scopes := m.scopes.push .empty } : Machine).Fits g :=
  { h with
    scopes := fun i => by
      have hi := h.scopes i
      rwa [← m.scope_push i] at hi }

theorem newTable (h : m.Fits g) : ({ m with tables := m.tables.push .empty } : Machine).Fits g :=
  { h with
    tables := fun id hid => by
      rw [table_push]
      exact h.tables id hid
    size := fun id hid => by
      rw [Array.size_push]
      exact Nat.lt_succ_of_lt (h.size id hid)
    content := fun id hid => by
      rw [table_push]
      exact h.content id hid }

/-- A table that comes into being is not hidden. -/
theorem newTable_visible (h : m.Fits g) : (Value.table m.tables.size).Fits g :=
  fun hid => Nat.lt_irrefl _ (h.size _ hid)

theorem table_setTable_of_ne {id id' : TableId} (h : id' ≠ id) (t : Table) :
    (m.setTable id' t).table id = m.table id := by
  simp only [Machine.table, Machine.setTable, Array.getElem?_setIfInBounds, if_neg h]

theorem setTable (h : m.Fits g) {id : TableId} (hid : ¬ g.hidden id) {t : Table}
    (ht : t.AllValues (Value.Fits g)) : (m.setTable id t).Fits g := by
  have hne (id' : TableId) (h' : g.hidden id') : id ≠ id' := fun he => hid (he ▸ h')
  exact { h with
    tables := fun id' hid' => by
      by_cases he : id = id'
      · subst he
        by_cases hl : id < m.tables.size
        · rwa [Machine.table_setTable hl]
        · have hn : (m.setTable id t).table id = .empty := by
            rw [Machine.table, Array.getElem?_eq_none]
            · rfl
            · rw [Machine.size_setTable]
              exact Nat.not_lt.1 hl
          rw [hn]
          exact .empty
      · rw [table_setTable_of_ne he]
        exact h.tables id' hid'
    size := fun id' hid' => by
      rw [Machine.size_setTable]
      exact h.size id' hid'
    content := fun id' hid' => by
      rw [table_setTable_of_ne (hne id' hid')]
      exact h.content id' hid' }

end Machine.Fits

variable {g : Guard} {α β : Type} {V : α → Prop} {W : β → Prop}

/-- A value with `V`, or a fault that is about no misplaced code where all code is well formed. -/
def EndsWithin (g : Guard) (V : α → Prop) : Except Fault α → Prop
  | .ok a => V a
  | .error e => g.strict → e.isMisplaced = false

/-- From a machine that fits the computation leads to one that does, and to a result with `V`. -/
structure Keeps (g : Guard) (V : α → Prop) (act : EvalM α) : Prop where
  run : ∀ m, m.Fits g → (act m).2.Fits g ∧ EndsWithin g V (act m).1

namespace Keeps

theorem pure {a : α} (h : V a) : Keeps g V (Pure.pure a) := ⟨fun _ hm => ⟨hm, h⟩⟩

theorem fault {e : Fault} (h : g.strict → e.isMisplaced = false) : Keeps g V (throw e) :=
  ⟨fun _ hm => ⟨hm, h⟩⟩

theorem bind {act : EvalM α} {next : α → EvalM β} (h : Keeps g V act)
    (hn : ∀ a, V a → Keeps g W (next a)) : Keeps g W (act >>= next) := by
  refine ⟨fun m hm => ?_⟩
  obtain ⟨hm', hv⟩ := h.run m hm
  rw [EvalM.bind_run]
  generalize act m = o at hm' hv
  obtain ⟨_ | a, m'⟩ := o
  · exact ⟨hm', hv⟩
  · exact (hn a hv).run m' hm'

theorem ofExcept {r : Except Fault α} (h : EndsWithin g V r) : Keeps g V (EvalM.ofExcept r) := by
  refine ⟨fun m hm => ?_⟩
  rw [EvalM.ofExcept_run]
  exact ⟨hm, h⟩

theorem modify {f : Machine → Machine} (h : ∀ m, m.Fits g → (f m).Fits g) :
    Keeps g (fun _ => True) (modify f) := ⟨fun m hm => ⟨h m hm, trivial⟩⟩

theorem get : Keeps g (Machine.Fits g) get := ⟨fun _ hm => ⟨hm, hm⟩⟩

theorem index {t k : Value} (ht : t.Fits g) : Keeps g (Value.Fits g) (EvalM.index t k) := by
  refine ⟨fun m hm => ?_⟩
  rw [EvalM.index_run]
  refine ⟨hm, ?_⟩
  cases t with
  | table id =>
    change Value.Fits g ((m.table id).get k)
    unfold Table.get Table.read
    split
    · next key _ =>
      cases hv : (m.table id).get? key with
      | none => trivial
      | some v => exact (hm.tables id ht).get? hv
    · trivial
  | _ => exact fun _ => rfl

theorem key_ends (k : Value) : EndsWithin g (fun _ => True) (Key.ofValue k) := by
  cases k with
  | nil => exact fun _ => rfl
  | number x =>
    simp only [Key.ofValue]
    split
    · exact fun _ => rfl
    · trivial
  | _ => trivial

theorem write_fits {t : Table} (ht : t.AllValues (Value.Fits g)) (k : Key) {v : Value}
    (hv : v.Fits g) : (t.write k v).AllValues (Value.Fits g) := by
  unfold Table.write
  split
  · exact ht.erase k
  · exact ht.insert k hv

theorem setEntry {id : TableId} {k v : Value} (hid : ¬ g.hidden id) (hv : v.Fits g) :
    Keeps g (fun _ => True) (EvalM.setEntry id k v) := by
  refine ⟨fun m hm => ?_⟩
  have hk : EndsWithin g (fun _ => True) (Key.ofValue k) := key_ends k
  rw [EvalM.setEntry_run]
  unfold Table.set
  generalize Key.ofValue k = r at hk
  cases r with
  | error e => exact ⟨hm, hk⟩
  | ok key => exact ⟨hm.setTable hid (write_fits (hm.tables id hid) key hv), trivial⟩

theorem newTable : Keeps g (fun id => ¬ g.hidden id) EvalM.newTable :=
  ⟨fun _ hm => ⟨hm.newTable, hm.newTable_visible⟩⟩

theorem newClosure (parameters : List String) {body : List Code} (c : Chain)
    (h : g.strict → Code.IsBlock .any body) :
    Keeps g (Value.Fits g) (EvalM.newClosure parameters body c) :=
  ⟨fun _ hm => ⟨{ hm with }, h⟩⟩

theorem openScope (c : Chain) : Keeps g (fun _ => True) (EvalM.openScope c) :=
  ⟨fun _ hm => ⟨hm.openScope, trivial⟩⟩

theorem declare (c : Chain) (x : String) {v : Value} (hv : v.Fits g) :
    Keeps g (fun _ => True) (EvalM.declare c x v) := .modify fun _ hm => hm.declare c x hv

theorem nested {act : EvalM α} (h : Keeps g V act) : Keeps g V (EvalM.nested act) := by
  refine ⟨fun m hm => ?_⟩
  rw [EvalM.nested_run]
  obtain ⟨hm', hv⟩ := h.run { m with depth := m.depth + 1 } { hm with }
  exact ⟨{ hm' with }, hv⟩

end Keeps

/-- Functions that fit are called with arguments that fit. -/
def Caller.Keeps (g : Guard) (call : Caller) : Prop :=
  ∀ v args, v.Fits g → (∀ a ∈ args, a.Fits g) → Lua.Keeps g (Value.Fits g) (call v args)

/-- The table and what is written to it are visible. -/
def Location.Fits (g : Guard) : Location → Prop
  | .variable _ => True
  | .entry t _ => t.Fits g

def Flow.Fits (g : Guard) : Flow → Prop
  | .next => True
  | .returned v => v.Fits g

theorem store_keeps (c : Chain) {l : Location} (hl : l.Fits g) {v : Value} (hv : v.Fits g) :
    Keeps g (fun _ => True) (store c l v) := by
  cases l with
  | «variable» x => exact .modify fun _ hm => hm.assign c x hv
  | entry t k =>
    cases t with
    | table id => exact .setEntry hl hv
    | _ => exact .fault fun _ => rfl

theorem storeAll_keeps (c : Chain) {ls : List Location} (hl : ∀ l ∈ ls, l.Fits g)
    {vs : List Value} (hv : ∀ v ∈ vs, v.Fits g) :
    Keeps g (fun _ => True) (storeAll c ls vs) := by
  induction ls generalizing vs with
  | nil => exact .pure trivial
  | cons l ls ih =>
    have hhead := hl l List.mem_cons_self
    have htail : ∀ l' ∈ ls, l'.Fits g := fun l' hl' => hl l' (List.mem_cons_of_mem l hl')
    cases vs with
    | nil => exact (store_keeps c hhead (.nil g)).bind fun _ _ => ih htail hv
    | cons v vs =>
      exact (store_keeps c hhead (hv v List.mem_cons_self)).bind fun _ _ =>
        ih htail fun w hw => hv w (List.mem_cons_of_mem v hw)

theorem applyUnary_keeps (op : UnaryOp) (v : Value) : Keeps g (Value.Fits g) (applyUnary op v) := by
  cases op with
  | not => exact .pure trivial
  | neg =>
    cases v with
    | number x => exact .pure trivial
    | _ => exact .fault fun _ => rfl
  | len =>
    cases v with
    | table id => exact Keeps.get.bind fun _ _ => .pure trivial
    | string s => exact .pure trivial
    | _ => exact .fault fun _ => rfl

theorem arithmetic_ends (v : Value) : EndsWithin g (fun _ => True) v.arithmetic? := by
  cases v with
  | number x => trivial
  | _ => exact fun _ => rfl

theorem concatText_ends (v : Value) : EndsWithin g (fun _ => True) v.concatText? := by
  cases v with
  | string s => trivial
  | number x => trivial
  | _ => exact fun _ => rfl

theorem EndsWithin.bind {r : Except Fault α} {next : α → Except Fault β} (h : EndsWithin g V r)
    (hn : ∀ a, V a → EndsWithin g W (next a)) : EndsWithin g W (r >>= next) := by
  cases r with
  | error e => exact h
  | ok a => exact hn a h

theorem apply_ends (op : BinaryOp) {a b : Value} (ha : a.Fits g) (hb : b.Fits g) :
    EndsWithin g (Value.Fits g) (op.apply a b) := by
  have hcompare (op : BinaryOp) : EndsWithin g (Value.Fits g) (op.compare a b) := by
    unfold BinaryOp.compare
    split
    · trivial
    · trivial
    · exact fun _ => rfl
  have harith (op : BinaryOp) : EndsWithin g (Value.Fits g)
      (do let x ← a.arithmetic?; let y ← b.arithmetic?; return .number (op.arithmetic x y)) :=
    (arithmetic_ends a).bind fun _ _ => (arithmetic_ends b).bind fun _ _ => trivial
  cases op with
  | or =>
    simp only [BinaryOp.apply]
    split
    · exact ha
    · exact hb
  | and =>
    simp only [BinaryOp.apply]
    split
    · exact hb
    · exact ha
  | eq => trivial
  | ne => trivial
  | lt => exact hcompare _
  | gt => exact hcompare _
  | le => exact hcompare _
  | ge => exact hcompare _
  | concat => exact (concatText_ends a).bind fun _ _ => (concatText_ends b).bind fun _ _ => trivial
  | add => exact harith _
  | sub => exact harith _
  | mul => exact harith _
  | div => exact harith _
  | mod => exact harith _
  | pow => exact harith _

section Code

variable {call : Caller}

mutual

theorem eval_keeps (hcall : call.Keeps g) (c : Chain) :
    (e : Code) → (g.strict → e.IsExpr .any) → Keeps g (Value.Fits g) (e.eval call c)
  | .nil, _ | .boolean _, _ | .string _, _ => by
    simp only [Code.eval]
    exact .pure trivial
  | .number text, _ => by
    simp only [Code.eval]
    cases floatOf? text with
    | some x => exact .pure trivial
    | none => exact .fault fun _ => rfl
  | .name x, _ => by
    simp only [Code.eval]
    refine Keeps.get.bind fun m hm => .pure ?_
    cases hv : m.lookup? c x with
    | none => trivial
    | some v => exact hm.lookup? hv
  | .index table key, h => by
    simp only [Code.eval]
    refine (eval_keeps hcall c table fun hs => (h hs).1).bind fun t ht => ?_
    exact (eval_keeps hcall c key fun hs => (h hs).2).bind fun k _ => .index ht
  | .member table x, h => by
    simp only [Code.eval]
    exact (eval_keeps hcall c table h).bind fun t ht => .index ht
  | .call callee arguments, h => by
    simp only [Code.eval]
    refine (eval_keeps hcall c callee fun hs => (h hs).1).bind fun f hf => ?_
    exact (evalAll_keeps hcall c arguments fun hs => (h hs).2).bind fun args ha =>
      hcall f args hf ha
  | .invoke receiver method arguments, h => by
    simp only [Code.eval]
    refine (eval_keeps hcall c receiver fun hs => (h hs).1).bind fun r hr => ?_
    refine (Keeps.index hr).bind fun f hf => ?_
    refine (evalAll_keeps hcall c arguments fun hs => (h hs).2.2).bind fun args ha => ?_
    refine hcall f (r :: args) hf fun a hmem => ?_
    rcases List.mem_cons.1 hmem with rfl | hmem
    · exact hr
    · exact ha a hmem
  | .binary left op right, h => by
    simp only [Code.eval]
    refine (eval_keeps hcall c left fun hs => (h hs).1).bind fun a ha => ?_
    split
    · exact .pure ha
    · exact (eval_keeps hcall c right fun hs => (h hs).2).bind fun b hb =>
        .ofExcept (apply_ends op ha hb)
  | .unary op operand, h => by
    simp only [Code.eval]
    exact (eval_keeps hcall c operand h).bind fun v _ => applyUnary_keeps op v
  | .table fields, h => by
    simp only [Code.eval]
    refine Keeps.newTable.bind fun id hid => ?_
    exact (fillAll_keeps hcall c hid 1 fields h).bind fun _ _ => .pure hid
  | .function parameters body, h => by
    simp only [Code.eval]
    exact .newClosure parameters c fun hs => (h hs).2
  | .paren inner, h => by
    simp only [Code.eval]
    exact eval_keeps hcall c inner h
  | .locals _ _, h | .localFunction _ _ _, h | .assign _ _, h | .perform _, h | .returns _, h
  | .block _, h => by
    simp only [Code.eval]
    exact .fault fun hs => (h hs).elim

theorem evalAll_keeps (hcall : call.Keeps g) (c : Chain) :
    (es : List Code) → (g.strict → Code.AllExprs .any es) →
      Keeps g (fun vs => ∀ v ∈ vs, v.Fits g) (Code.evalAll call c es)
  | [], _ => by
    simp only [Code.evalAll]
    exact .pure fun v hv => absurd hv List.not_mem_nil
  | e :: rest, h => by
    simp only [Code.evalAll]
    refine (eval_keeps hcall c e fun hs => (h hs).1).bind fun v hv => ?_
    refine (evalAll_keeps hcall c rest fun hs => (h hs).2).bind fun vs hvs => .pure fun u hu => ?_
    rcases List.mem_cons.1 hu with rfl | hu
    · exact hv
    · exact hvs u hu

theorem fillAll_keeps (hcall : call.Keeps g) (c : Chain) {id : TableId}
    (hid : ¬ g.hidden id) (slot : Nat) :
    (fs : List Field) → (g.strict → Field.AllExprs .any fs) →
      Keeps g (fun _ => True) (Field.fillAll call c id slot fs)
  | [], _ => by
    simp only [Field.fillAll]
    exact .pure trivial
  | .item value :: rest, h => by
    simp only [Field.fillAll]
    refine (eval_keeps hcall c value fun hs => (h hs).1).bind fun v hv => ?_
    exact (Keeps.setEntry hid hv).bind fun _ _ =>
      fillAll_keeps hcall c hid (slot + 1) rest fun hs => (h hs).2
  | .named x value :: rest, h => by
    simp only [Field.fillAll]
    refine (eval_keeps hcall c value fun hs => (h hs).1).bind fun v hv => ?_
    exact (Keeps.setEntry hid hv).bind fun _ _ =>
      fillAll_keeps hcall c hid slot rest fun hs => (h hs).2
  | .keyed key value :: rest, h => by
    simp only [Field.fillAll]
    refine (eval_keeps hcall c key fun hs => (h hs).1).bind fun k _ => ?_
    refine (eval_keeps hcall c value fun hs => (h hs).2.1).bind fun v hv => ?_
    exact (Keeps.setEntry hid hv).bind fun _ _ =>
      fillAll_keeps hcall c hid slot rest fun hs => (h hs).2.2

end

theorem locate_keeps (hcall : call.Keeps g) (c : Chain) (e : Code)
    (h : g.strict → e.IsExpr .any) (ht : g.strict → e.isTarget) :
    Keeps g (Location.Fits g) (e.locate call c) := by
  cases e with
  | name x =>
    simp only [Code.locate]
    exact .pure trivial
  | index table key =>
    simp only [Code.locate]
    refine (eval_keeps hcall c table fun hs => (h hs).1).bind fun t ht => ?_
    exact (eval_keeps hcall c key fun hs => (h hs).2).bind fun k _ => .pure ht
  | member table x =>
    simp only [Code.locate]
    exact (eval_keeps hcall c table h).bind fun t ht => .pure ht
  | _ =>
    simp only [Code.locate]
    refine .fault fun hs => ?_
    cases ht hs

theorem locateAll_keeps (hcall : call.Keeps g) (c : Chain) (es : List Code)
    (h : g.strict → Code.AllExprs .any es) (ht : g.strict → ∀ e ∈ es, e.isTarget) :
    Keeps g (fun ls => ∀ l ∈ ls, l.Fits g) (Code.locateAll call c es) := by
  induction es with
  | nil =>
    simp only [Code.locateAll]
    exact .pure fun l hl => absurd hl List.not_mem_nil
  | cons e rest ih =>
    simp only [Code.locateAll]
    refine (locate_keeps hcall c e (fun hs => (h hs).1)
      fun hs => ht hs e List.mem_cons_self).bind fun l hl => ?_
    refine (ih (fun hs => (h hs).2)
      fun hs e' he' => ht hs e' (List.mem_cons_of_mem e he')).bind fun ls hls => ?_
    refine .pure fun k hk => ?_
    rcases List.mem_cons.1 hk with rfl | hk
    · exact hl
    · exact hls k hk

mutual

theorem exec_keeps (hcall : call.Keeps g) (c : Chain) :
    (s : Code) → (g.strict → s.IsStatement .any) → Keeps g (Flow.Fits g) (s.exec call c)
  | .locals names values, h => by
    simp only [Code.exec]
    refine (evalAll_keeps hcall c values fun hs => (h hs).2.2).bind fun vs hvs => ?_
    exact (Keeps.modify fun m hm => hm.declareAll c names hvs).bind fun _ _ => .pure trivial
  | .localFunction x parameters body, h => by
    simp only [Code.exec]
    refine (Keeps.declare c x (.nil g)).bind fun _ _ => ?_
    refine (Keeps.newClosure parameters c fun hs => (h hs).2.2).bind fun f hf => ?_
    exact (Keeps.declare c x hf).bind fun _ _ => .pure trivial
  | .assign targets values, h => by
    simp only [Code.exec]
    refine (locateAll_keeps hcall c targets (fun hs => (h hs).2.2.2.1)
      fun hs => (h hs).2.1).bind fun ls hls => ?_
    refine (evalAll_keeps hcall c values fun hs => (h hs).2.2.2.2).bind fun vs hvs => ?_
    exact (storeAll_keeps c hls hvs).bind fun _ _ => .pure trivial
  | .perform expression, h => by
    simp only [Code.exec]
    exact (eval_keeps hcall c expression fun hs => (h hs).2).bind fun _ _ => .pure trivial
  | .returns [], _ => by
    simp only [Code.exec]
    exact .pure trivial
  | .returns (value :: _), h => by
    simp only [Code.exec]
    exact (eval_keeps hcall c value fun hs => (h hs).1).bind fun v hv => .pure hv
  | .block body, h => by
    simp only [Code.exec]
    exact (Keeps.openScope c).bind fun inner _ => execAll_keeps hcall inner body h
  | .nil, h | .boolean _, h | .number _, h | .string _, h | .name _, h | .index _ _, h
  | .member _ _, h | .call _ _, h | .invoke _ _ _, h | .binary _ _ _, h | .unary _ _, h
  | .table _, h | .function _ _, h | .paren _, h => by
    simp only [Code.exec]
    exact .fault fun hs => (h hs).elim

theorem execAll_keeps (hcall : call.Keeps g) (c : Chain) :
    (body : List Code) → (g.strict → Code.IsBlock .any body) →
      Keeps g (Flow.Fits g) (Code.execAll call c body)
  | [], _ => by
    simp only [Code.execAll]
    exact .pure trivial
  | s :: rest, h => by
    simp only [Code.execAll]
    refine (exec_keeps hcall c s fun hs => (h hs).1).bind fun flow hflow => ?_
    cases flow with
    | next => exact execAll_keeps hcall c rest fun hs => (h hs).2.2
    | returned v => exact .pure hflow

end

theorem runBody_keeps (hcall : call.Keeps g) (c : Chain) {body : List Code}
    (h : g.strict → Code.IsBlock .any body) :
    Keeps g (Value.Fits g) (runBody call c body) := by
  refine (execAll_keeps hcall c body h).bind fun flow hflow => ?_
  cases flow with
  | next => exact .pure trivial
  | returned v => exact .pure hflow

end Code

/-- A call keeps to the guard, however many calls it leads to. -/
theorem callAt_keeps (g : Guard) (room : Nat) : Caller.Keeps g (callAt room) := by
  have hbuiltin (b : Builtin) (args : List Value) : (b.apply args).Fits g := by
    cases b <;> trivial
  induction room with
  | zero =>
    intro v args hv ha
    cases v with
    | builtin b => exact .pure (hbuiltin b args)
    | _ => exact .fault fun _ => rfl
  | succ room ih =>
    intro v args hv ha
    cases v with
    | builtin b => exact .pure (hbuiltin b args)
    | function f =>
      simp only [callAt]
      refine Keeps.get.bind fun m _ => ?_
      have hrun : Keeps g (Value.Fits g) (do
          let chain ← EvalM.openScope f.chain
          modify fun m => m.declareAll chain f.parameters args
          EvalM.nested (runBody (callAt room) chain f.body)) := by
        refine (Keeps.openScope f.chain).bind fun chain _ => ?_
        refine (Keeps.modify fun m hm => hm.declareAll chain f.parameters ha).bind fun _ _ => ?_
        exact (runBody_keeps ih chain hv).nested
      split
      · exact .fault fun _ => rfl
      · exact hrun
    | _ => exact .fault fun _ => rfl

theorem runChunk_keeps {chunk : List Code} (h : g.strict → Code.IsBlock .any chunk) :
    Keeps g (Value.Fits g) (runChunk chunk) := by
  refine (Keeps.openScope []).bind fun chain _ => ?_
  exact Keeps.get.bind fun m _ => runBody_keeps (callAt_keeps g _) chain h

/-- Before any code has run there are only builtins. -/
theorem Machine.initial_fits_blocks : Machine.initial.Fits .blocks where
  globals e he := by
    have hbuiltin : e.2 = .builtin .tostring ∨ e.2 = .builtin .type := by
      change e ∈ [("tostring", Value.builtin .tostring), ("type", .builtin .type)] at he
      simp only [List.mem_cons, List.not_mem_nil, or_false] at he
      rcases he with rfl | rfl
      · exact .inl rfl
      · exact .inr rfl
    rcases hbuiltin with h | h <;> rw [h] <;> trivial
  scopes _ _ he := absurd he List.not_mem_nil
  tables _ _ _ he := absurd he List.not_mem_nil
  size _ h := h.elim
  content _ h := h.elim

end Lua

end ScriptToLua
