import Mathlib
import ScriptToLua.Lua.Eval
import ScriptToLua.Proofs.OrderedMap

/-!
How computations on the machine run: what each building block does to a machine.
-/

namespace ScriptToLua.Lua.EvalM

variable {α β : Type}

@[simp]
theorem pure_run (a : α) (m : Machine) : (pure a : EvalM α) m = (.ok a, m) := rfl

@[simp]
theorem throw_run (e : Fault) (m : Machine) : (throw e : EvalM α) m = (.error e, m) := rfl

@[simp]
theorem get_run (m : Machine) : (get : EvalM Machine) m = (.ok m, m) := rfl

@[simp]
theorem modify_run (f : Machine → Machine) (m : Machine) :
    (modify f : EvalM Unit) m = (.ok (), f m) := rfl

@[simp]
theorem modifyGet_run (f : Machine → α × Machine) (m : Machine) :
    (modifyGet f : EvalM α) m = (.ok (f m).1, (f m).2) := rfl

/-- A fault of the first computation ends the second before it starts. -/
theorem bind_run (act : EvalM α) (f : α → EvalM β) (m : Machine) :
    (act >>= f) m = match act m with
      | (.ok a, m') => f a m'
      | (.error e, m') => (.error e, m') := by
  simp only [bind, ExceptT.bind, ExceptT.mk, StateT.bind]
  rcases act m with ⟨_ | _, _⟩ <;> rfl

theorem bind_run_ok {act : EvalM α} {m m' : Machine} {a : α} (h : act m = (.ok a, m'))
    (f : α → EvalM β) : (act >>= f) m = f a m' := by
  rw [bind_run, h]

theorem bind_run_error {act : EvalM α} {m m' : Machine} {e : Fault} (h : act m = (.error e, m'))
    (f : α → EvalM β) : (act >>= f) m = (.error e, m') := by
  rw [bind_run, h]

theorem of_bind_ok {act : EvalM α} {f : α → EvalM β} {m m'' : Machine} {b : β}
    (h : (act >>= f) m = (.ok b, m'')) : ∃ a m', act m = (.ok a, m') ∧ f a m' = (.ok b, m'') := by
  rw [bind_run] at h
  generalize act m = o at h
  obtain ⟨_ | a, m'⟩ := o
  · cases h
  · exact ⟨a, m', rfl, h⟩

/-- What comes next may differ where the first computation never leads. -/
theorem bind_run_congr {act act' : EvalM α} {f g : α → EvalM β} {m : Machine}
    (h : act m = act' m) (hf : ∀ a m', act' m = (.ok a, m') → f a m' = g a m') :
    (act >>= f) m = (act' >>= g) m := by
  rw [bind_run, bind_run, h]
  generalize act' m = o at hf ⊢
  obtain ⟨r, m'⟩ := o
  cases r with
  | ok a => exact hf a m' rfl
  | error e => rfl

@[simp]
theorem map_run (f : α → β) (act : EvalM α) (m : Machine) :
    (f <$> act) m = ((act m).1.map f, (act m).2) := by
  change (act >>= fun a => pure (f a)) m = _
  rw [bind_run]
  rcases act m with ⟨_ | _, _⟩ <;> rfl

@[simp]
theorem ofExcept_run (r : Except Fault α) (m : Machine) : ofExcept r m = (r, m) := by
  cases r <;> rfl

@[simp]
theorem openScope_run (chain : Chain) (m : Machine) :
    openScope chain m = (.ok (m.scopes.size :: chain), { m with scopes := m.scopes.push .empty }) :=
  rfl

@[simp]
theorem newTable_run (m : Machine) :
    newTable m = (.ok m.tables.size, { m with tables := m.tables.push .empty }) := rfl

@[simp]
theorem newClosure_run (parameters : List String) (body : List Code) (chain : Chain) (m : Machine) :
    newClosure parameters body chain m =
      (.ok (.function ⟨m.nextClosure, parameters, body, chain⟩),
        { m with nextClosure := m.nextClosure + 1 }) := rfl

@[simp]
theorem declare_run (chain : Chain) (x : String) (v : Value) (m : Machine) :
    declare chain x v m = (.ok (), m.declare chain x v) := rfl

theorem nested_run (act : EvalM α) (m : Machine) :
    nested act m =
      let o := act { m with depth := m.depth + 1 }
      (o.1, { o.2 with depth := o.2.depth - 1 }) := rfl

theorem setEntry_run (id : TableId) (key v : Value) (m : Machine) :
    setEntry id key v m =
      match (m.table id).set key v with
      | .ok t => (.ok (), m.setTable id t)
      | .error e => (.error e, m) := by
  simp only [setEntry, bind_run, get_run, ofExcept_run]
  cases (m.table id).set key v <;> rfl

theorem index_run (target key : Value) (m : Machine) :
    index target key m =
      (match target with
        | .table id => .ok ((m.table id).get key)
        | v => .error (.notIndexable v.kind), m) := by
  cases target <;> rfl

end ScriptToLua.Lua.EvalM

namespace ScriptToLua.Lua

namespace Machine

variable {m : Machine} {id : TableId}

theorem table_setTable (h : id < m.tables.size) (t : Table) : (m.setTable id t).table id = t := by
  simp only [table, setTable, Array.getElem?_setIfInBounds_self_of_lt h, Option.getD_some]

theorem setTable_table (h : id < m.tables.size) : m.setTable id (m.table id) = m := by
  simp only [setTable, table, Array.getElem?_eq_getElem h, Option.getD_some, Array.setIfInBounds,
    dif_pos h, Array.set_getElem_self]

theorem setTable_setTable (t t' : Table) : (m.setTable id t).setTable id t' = m.setTable id t' := by
  simp only [setTable, Array.setIfInBounds_setIfInBounds]

theorem size_setTable (t : Table) : (m.setTable id t).tables.size = m.tables.size := by
  rw [setTable, Array.size_setIfInBounds]

/-- A table that comes into being is empty. -/
theorem table_push (m : Machine) (id : TableId) :
    ({ m with tables := m.tables.push .empty } : Machine).table id = m.table id := by
  simp only [table, Array.getElem?_push]
  split
  · next hid =>
    rw [hid, Array.getElem?_eq_none (Nat.le_refl _)]
    rfl
  · rfl

theorem table_setTable_eq (m : Machine) (id id' : TableId) (t : Table) :
    (m.setTable id t).table id' = if id = id' ∧ id' < m.tables.size then t else m.table id' := by
  simp only [table, setTable, Array.getElem?_setIfInBounds]
  by_cases h : id = id'
  · by_cases hl : id < m.tables.size
    · simp [← h, hl]
    · simp [← h, hl]
  · simp [h]

section Pairs

variable {m' : Machine} {V : Value → Value → Prop} (hsize : m.tables.size = m'.tables.size)
  (h : ∀ i, OrderedMap.Pairs V (m.table i) (m'.table i))

include hsize h

/-- Tables that correspond still do after a write to both machines. -/
theorem setTable_pairs (id : TableId) {t t' : Table} (ht : OrderedMap.Pairs V t t') (i : TableId) :
    OrderedMap.Pairs V ((m.setTable id t).table i) ((m'.setTable id t').table i) := by
  have hi := h i
  simp only [table, setTable, Array.getElem?_setIfInBounds, ← hsize] at hi ⊢
  by_cases he : id = i
  · by_cases hl : id < m.tables.size
    · simp only [if_pos he, if_pos hl]
      exact ht
    · simp only [if_pos he, if_neg hl]
      exact .empty
  · simpa only [if_neg he] using hi

/-- Tables that correspond still do when both machines have one more. -/
theorem pushTable_pairs (i : TableId) :
    OrderedMap.Pairs V (({ m with tables := m.tables.push .empty } : Machine).table i)
      (({ m' with tables := m'.tables.push .empty } : Machine).table i) := by
  have hi := h i
  simp only [table, Array.getElem?_push, ← hsize] at hi ⊢
  by_cases he : i = m.tables.size
  · simp only [if_pos he]
    exact .empty
  · simpa only [if_neg he] using hi

end Pairs

theorem scope_modify (m : Machine) (i j : Nat) (g : Scope → Scope) :
    ({ m with scopes := m.scopes.modify i g } : Machine).scope j =
      if i = j ∧ j < m.scopes.size then g (m.scope j) else m.scope j := by
  simp only [scope, Array.getElem?_modify]
  by_cases hij : i = j
  · by_cases hj : j < m.scopes.size
    · simp [hij, hj]
    · simp [hij, hj]
  · simp [hij]

theorem scope_push (m : Machine) (i : ScopeId) : (m.scopes.push .empty)[i]?.getD .empty = m.scope i := by
  unfold scope
  rw [Array.getElem?_push]
  split
  · next hi =>
    rw [hi, Array.getElem?_eq_none (Nat.le_refl _)]
    rfl
  · rfl

/-- An empty scope declares nothing. -/
theorem lookup?_push {m m' : Machine} (hs : m'.scopes = m.scopes.push .empty)
    (hg : m'.globals = m.globals) (c : Chain) (x : String) :
    m'.lookup? (m.scopes.size :: c) x = m.lookup? c x := by
  have hscope : m'.scope = m.scope := by
    funext i
    rw [scope, hs, scope_push]
  have hnone : (m.scope m.scopes.size).contains x = false := by
    rw [scope, Array.getElem?_eq_none (Nat.le_refl _)]
    rfl
  simp only [lookup?, owner?, hscope, hg, List.find?_cons, hnone]

theorem lookup?_declare {n : ScopeId} (h : n < m.scopes.size) (c : Chain) (x : String) (v : Value) :
    (m.declare (n :: c) x v).lookup? (n :: c) x = some v := by
  have hscope : (m.declare (n :: c) x v).scope n = (m.scope n).insert x v := by
    rw [declare, scope_modify, if_pos ⟨rfl, h⟩]
  have hget : ((m.scope n).insert x v).get? x = some v := by
    rw [OrderedMap.get?_insert, if_pos rfl]
  have hhas : ((m.scope n).insert x v).contains x = true := by
    rw [OrderedMap.contains, hget, Option.isSome_some]
  simp only [lookup?, owner?, List.find?_cons, hscope, hhas, hget]

end Machine

section Statements

variable {call : Caller} {c : Chain} {e : Code} {v : Value} {m m' : Machine}

theorem execAll_next (h : e.exec call c m = (.ok .next, m')) (rest : List Code) :
    Code.execAll call c (e :: rest) m = Code.execAll call c rest m' := by
  rw [Code.execAll, EvalM.bind_run_ok h]

theorem execAll_returned (h : e.exec call c m = (.ok (.returned v), m')) (rest : List Code) :
    Code.execAll call c (e :: rest) m = (.ok (.returned v), m') := by
  rw [Code.execAll, EvalM.bind_run_ok h]
  rfl

theorem exec_yields (h : e.eval call c m = (.ok v, m')) :
    (Code.yields e).exec call c m = (.ok (.returned v), m') := by
  rw [Code.yields, Code.exec, EvalM.bind_run_ok h]
  rfl

theorem runBody_returned {body : List Code}
    (h : Code.execAll call c body m = (.ok (.returned v), m')) :
    runBody call c body m = (.ok v, m') := by
  rw [runBody, EvalM.bind_run_ok h]
  rfl

end Statements

/-- A function that is called at once runs its body one call deeper, in a scope of its own. -/
theorem immediate_run (room : Nat) (c : Chain) (body : List Code) {m : Machine}
    (h : m.depth < maxCallDepth) :
    (Code.immediate body).eval (callAt (room + 1)) c m =
      let o := runBody (callAt room) (m.scopes.size :: c) body
        { m with
          scopes := m.scopes.push .empty
          nextClosure := m.nextClosure + 1
          depth := m.depth + 1 }
      (o.1, { o.2 with depth := o.2.depth - 1 }) := by
  have he : (Code.immediate body).eval (callAt (room + 1)) c m =
      callAt (room + 1) (.function ⟨m.nextClosure, [], body, c⟩) []
        { m with nextClosure := m.nextClosure + 1 } := rfl
  rw [he]
  simp only [callAt, EvalM.bind_run, EvalM.get_run, if_neg (Nat.not_le.2 h)]
  rfl

/-- Beyond the limit the body is not run. -/
theorem immediate_overflow (room : Nat) (c : Chain) (body : List Code) {m : Machine}
    (h : maxCallDepth ≤ m.depth) :
    (Code.immediate body).eval (callAt (room + 1)) c m =
      (.error .stackOverflow, { m with nextClosure := m.nextClosure + 1 }) := by
  have he : (Code.immediate body).eval (callAt (room + 1)) c m =
      callAt (room + 1) (.function ⟨m.nextClosure, [], body, c⟩) []
        { m with nextClosure := m.nextClosure + 1 } := rfl
  rw [he]
  simp only [callAt, EvalM.bind_run, EvalM.get_run, if_pos h, EvalM.throw_run]

end ScriptToLua.Lua
