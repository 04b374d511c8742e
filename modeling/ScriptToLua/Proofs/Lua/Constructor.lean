import Mathlib
import ScriptToLua.Proofs.Lua.Invariant
import ScriptToLua.Proofs.Lua.Slot

/-!
Table constructors. Nothing but the constructor reaches the new table while it is filled, so each of
its keys, if they are distinct, ends up with the value that was worked out for it:
`Code.readsBack_of_access`.
-/

namespace ScriptToLua.Lua

/-- The key that a field names. -/
def Field.key? : Field → Option Code
  | .item _ => none
  | .named x _ => some (.string x)
  | .keyed key _ => some key

/-- The table that an access looks into, and the key that it looks up there. -/
def Code.access? : Code → Option (Code × Code)
  | .member t x => some (t, .string x)
  | .index t k => some (t, k)
  | _ => none

/-- The code is made of numerals, texts and operators only. -/
def Code.isFixed : Code → Bool
  | .number _ => true
  | .string _ => true
  | .binary left _ right => left.isFixed && right.isFixed
  | _ => false

/-- Writes fields into a table from left to right like `Field.fillAll`; the keys and values that are
written come out. -/
def Field.fill (call : Caller) (chain : Chain) (id : TableId) (slot : Nat) :
    List Field → EvalM (List (Value × Value))
  | [] => return []
  | .item value :: rest => do
    let v ← value.eval call chain
    EvalM.setEntry id (.number (Float.ofNat slot)) v
    let entries ← Field.fill call chain id (slot + 1) rest
    return (.number (Float.ofNat slot), v) :: entries
  | .named x value :: rest => do
    let v ← value.eval call chain
    EvalM.setEntry id (.string x) v
    let entries ← Field.fill call chain id slot rest
    return (.string x, v) :: entries
  | .keyed key value :: rest => do
    let k ← key.eval call chain
    let v ← value.eval call chain
    EvalM.setEntry id k v
    let entries ← Field.fill call chain id slot rest
    return (k, v) :: entries

/-- Makes a table with fields; the table comes out with the keys and values that were written. -/
def Code.construct (call : Caller) (chain : Chain) (fields : List Field) :
    EvalM (TableId × List (Value × Value)) := do
  let id ← EvalM.newTable
  let entries ← Field.fill call chain id 1 fields
  return (id, entries)

/-- No two of the keys are the same. -/
def Table.Distinct (entries : List (Value × Value)) : Prop :=
  entries.Pairwise fun e e' => Key.ofValue e.1 ≠ Key.ofValue e'.1

/-- Writes entries from left to right. -/
def Table.setAll (t : Table) : List (Value × Value) → Except Fault Table
  | [] => .ok t
  | (k, v) :: rest => do (← t.set k v).setAll rest

theorem EvalM.bind_eq_ok {α β : Type} {act : EvalM α} {next : α → EvalM β} {m m' : Machine} {b : β}
    (h : (act >>= next) m = (.ok b, m')) :
    ∃ a m₁, act m = (.ok a, m₁) ∧ next a m₁ = (.ok b, m') := by
  rw [EvalM.bind_run] at h
  generalize act m = o at h
  obtain ⟨_ | a, m₁⟩ := o
  · cases h
  · exact ⟨a, m₁, rfl, h⟩

theorem Field.fillAll_eq (call : Caller) (c : Chain) (id : TableId) (slot : Nat)
    (fields : List Field) :
    Field.fillAll call c id slot fields =
      (do let _ ← Field.fill call c id slot fields; return ()) := by
  induction fields generalizing slot with
  | nil =>
    simp only [Field.fillAll, Field.fill]
    rfl
  | cons f rest ih =>
    cases f <;> simp only [Field.fillAll, Field.fill, ih, bind_assoc, pure_bind]

/-- A table constructor has the new table for its value. -/
theorem Code.eval_table (call : Caller) (c : Chain) (fields : List Field) :
    (Code.table fields).eval call c =
      (do let made ← Code.construct call c fields; return .table made.1) := by
  simp only [Code.eval, Field.fillAll_eq, Code.construct, bind_assoc, pure_bind]

theorem Code.eval_access {e t k : Code} (h : e.access? = some (t, k)) (call : Caller)
    (c : Chain) :
    e.eval call c = (do
      let table ← t.eval call c
      let key ← k.eval call c
      EvalM.index table key) := by
  cases e with
  | index t k =>
    cases h
    rw [Code.eval]
  | member t x =>
    cases h
    simp only [Code.eval, pure_bind]
  | _ => cases h

/-- Fixed code has one value, wherever it is evaluated. -/
theorem Code.eval_fixed :
    (e : Code) → e.isFixed → ∃ r, ∀ call c, e.eval call c = EvalM.ofExcept r
  | .number text, _ => by
    cases htext : floatOf? text with
    | some x => exact ⟨.ok (.number x), fun call c => by simp only [Code.eval, htext]; rfl⟩
    | none =>
      exact ⟨.error (.malformedNumber text), fun call c => by simp only [Code.eval, htext]; rfl⟩
  | .string s, _ => ⟨.ok (.string s), fun call c => by simp only [Code.eval]; rfl⟩
  | .binary left op right, h => by
    simp only [Code.isFixed, Bool.and_eq_true] at h
    obtain ⟨l, hl⟩ := Code.eval_fixed left h.1
    obtain ⟨r, hr⟩ := Code.eval_fixed right h.2
    refine ⟨do let a ← l; if op.settledBy a then return a else op.apply a (← r), fun call c => ?_⟩
    simp only [Code.eval, hl, hr]
    cases l with
    | error e => rfl
    | ok a =>
      change (if op.settledBy a then pure a else _) = EvalM.ofExcept (if op.settledBy a then _ else _)
      split
      · rfl
      · cases r <;> rfl

theorem Code.eval_fixed_eq {e : Code} (h : e.isFixed) {call call' : Caller} {c c' : Chain}
    {m m₁ : Machine} {v : Value} (hv : e.eval call c m = (.ok v, m₁)) (m' : Machine) :
    e.eval call' c' m' = (.ok v, m') := by
  obtain ⟨r, hr⟩ := e.eval_fixed h
  rw [hr, EvalM.ofExcept_run] at hv
  obtain ⟨rfl, -⟩ := Prod.mk.inj hv
  rw [hr, EvalM.ofExcept_run]

namespace Table

theorem get_setAll_of_ne {t t' : Table} {entries : List (Value × Value)}
    (h : t.setAll entries = .ok t') {k : Value}
    (hk : ∀ e ∈ entries, Key.ofValue k ≠ Key.ofValue e.1) : t'.get k = t.get k := by
  induction entries generalizing t with
  | nil =>
    cases h
    rfl
  | cons e rest ih =>
    rw [setAll] at h
    cases ht : t.set e.1 e.2 with
    | error f =>
      rw [ht] at h
      cases h
    | ok t₁ =>
      rw [ht] at h
      rw [ih h fun e' he' => hk e' (List.mem_cons_of_mem e he'), get_set ht,
        if_neg (hk e List.mem_cons_self)]

/-- Entries with distinct keys are all there after they were written. -/
theorem get_setAll {t t' : Table} {entries : List (Value × Value)} (h : t.setAll entries = .ok t')
    (hd : Distinct entries) {e : Value × Value} (he : e ∈ entries) : t'.get e.1 = e.2 := by
  induction entries generalizing t with
  | nil => cases he
  | cons d rest ih =>
    obtain ⟨hne, hrest⟩ := List.pairwise_cons.1 hd
    rw [setAll] at h
    cases ht : t.set d.1 d.2 with
    | error f =>
      rw [ht] at h
      cases h
    | ok t₁ =>
      rw [ht] at h
      rcases List.mem_cons.1 he with rfl | he
      · rw [get_setAll_of_ne h hne, get_set ht, if_pos rfl]
      · exact ih h hrest he

end Table

/-- The value is no table, or one of the first `n`. -/
def Value.IsBelow (n : Nat) : Value → Prop
  | .table id => id < n
  | _ => True

/-- All tables that the machine refers to are there. -/
structure Machine.Linked (m : Machine) : Prop where
  globals : m.globals.AllValues (Value.IsBelow m.tables.size)
  scopes : ∀ i, (m.scope i).AllValues (Value.IsBelow m.tables.size)
  tables : ∀ id, (m.table id).AllValues (Value.IsBelow m.tables.size)

theorem Machine.initial_linked : Machine.initial.Linked where
  globals e he := by
    rcases List.mem_pair.1 he with rfl | rfl <;> trivial
  scopes _ _ he := absurd he List.not_mem_nil
  tables _ _ he := absurd he List.not_mem_nil

/-- No value refers to the table `id`, which is `t`. -/
def Guard.hiding (id : TableId) (t : Table) : Guard := ⟨false, (· = id), fun _ => t⟩

/-- A new table is hidden at first. -/
theorem Machine.Linked.hiding {m : Machine} (h : m.Linked) :
    ({ m with tables := m.tables.push .empty } : Machine).Fits (.hiding m.tables.size .empty) := by
  have hfits {v : Value} (hv : v.IsBelow m.tables.size) :
      v.Fits (.hiding m.tables.size .empty) := by
    cases v with
    | table id => exact fun hid => absurd hv (hid ▸ Nat.lt_irrefl _)
    | function f => exact fun hstrict => absurd hstrict Bool.false_ne_true
    | _ => trivial
  refine ⟨fun e he => hfits (h.globals e he), fun i e he => hfits (h.scopes i e he), ?_, ?_, ?_⟩
  · intro id _ e he
    rw [Machine.table_push] at he
    exact hfits (h.tables id e he)
  · rintro _ rfl
    rw [Array.size_push]
    exact Nat.lt_succ_self _
  · rintro _ rfl
    rw [Machine.table_push, Machine.table, Array.getElem?_eq_none (Nat.le_refl _)]
    rfl

section Fill

variable {id : TableId} {t : Table} {m m' : Machine}

/-- A hidden table may be changed by the one who hides it. -/
theorem Machine.Fits.setHidden (h : m.Fits (.hiding id t)) (t' : Table) :
    (m.setTable id t').Fits (.hiding id t') where
  globals := h.globals
  scopes := h.scopes
  tables id' hid' := by
    rw [table_setTable_of_ne (Ne.symm hid')]
    exact h.tables id' hid'
  size := by
    rintro _ rfl
    rw [Machine.size_setTable]
    exact h.size _ rfl
  content := by
    rintro _ rfl
    exact Machine.table_setTable (h.size _ rfl) t'

theorem setEntry_hidden (hm : m.Fits (.hiding id t)) {k v : Value}
    (h : EvalM.setEntry id k v m = (.ok (), m')) :
    ∃ t', t.set k v = .ok t' ∧ m'.Fits (.hiding id t') := by
  have htable : m.table id = t := hm.content id rfl
  rw [EvalM.setEntry_run, htable] at h
  cases ht : t.set k v with
  | error e =>
    rw [ht] at h
    cases h
  | ok t' =>
    rw [ht] at h
    cases h
    exact ⟨t', rfl, hm.setHidden t'⟩

variable {room : Nat} {c : Chain}

theorem eval_hidden (hm : m.Fits (.hiding id t)) {e : Code} {v : Value}
    (h : e.eval (callAt room) c m = (.ok v, m')) : m'.Fits (.hiding id t) := by
  have hkeeps := eval_keeps (callAt_keeps (.hiding id t) room) c e
    fun hstrict => absurd hstrict Bool.false_ne_true
  obtain ⟨hm', -⟩ := hkeeps.run m hm
  rwa [h] at hm'

/-- While it is filled, the table holds what was written to it. -/
theorem fill_hidden {fields : List Field} {slot : Nat} {entries : List (Value × Value)}
    (hm : m.Fits (.hiding id t))
    (h : Field.fill (callAt room) c id slot fields m = (.ok entries, m')) :
    ∃ t', t.setAll entries = .ok t' ∧ m'.Fits (.hiding id t') := by
  induction fields generalizing slot t m entries with
  | nil =>
    rw [Field.fill] at h
    cases h
    exact ⟨t, rfl, hm⟩
  | cons f rest ih =>
    have hentry {slot : Nat} {k v : Value} {m : Machine} (hm : m.Fits (.hiding id t))
        (h : (do
          EvalM.setEntry id k v
          let entries ← Field.fill (callAt room) c id slot rest
          return (k, v) :: entries) m = (.ok entries, m')) :
        ∃ t', t.setAll entries = .ok t' ∧ m'.Fits (.hiding id t') := by
      obtain ⟨_, m₁, hset, h⟩ := EvalM.bind_eq_ok h
      obtain ⟨later, m₂, hfill, h⟩ := EvalM.bind_eq_ok h
      cases h
      obtain ⟨t₁, ht₁, hm₁⟩ := setEntry_hidden hm hset
      obtain ⟨t', ht', hm'⟩ := ih hm₁ hfill
      refine ⟨t', ?_, hm'⟩
      rw [Table.setAll, ht₁]
      exact ht'
    cases f with
    | item value =>
      rw [Field.fill] at h
      obtain ⟨v, m₁, hv, h⟩ := EvalM.bind_eq_ok h
      exact hentry (eval_hidden hm hv) h
    | named x value =>
      rw [Field.fill] at h
      obtain ⟨v, m₁, hv, h⟩ := EvalM.bind_eq_ok h
      exact hentry (eval_hidden hm hv) h
    | keyed key value =>
      rw [Field.fill] at h
      obtain ⟨k, m₁, hk, h⟩ := EvalM.bind_eq_ok h
      obtain ⟨v, m₂, hv, h⟩ := EvalM.bind_eq_ok h
      exact hentry (eval_hidden (eval_hidden hm hk) hv) h

end Fill

/-- The key was worked out for the entry. -/
def Field.Fills (call : Caller) (c : Chain) (f : Field) (e : Value × Value) : Prop :=
  ∀ key, f.key? = some key → ∃ m m', key.eval call c m = (.ok e.1, m')

theorem fill_fills {call : Caller} {c : Chain} {id : TableId} {fields : List Field} {slot : Nat}
    {entries : List (Value × Value)} {m m' : Machine}
    (h : Field.fill call c id slot fields m = (.ok entries, m')) :
    List.Forall₂ (Field.Fills call c) fields entries := by
  induction fields generalizing slot m entries with
  | nil =>
    rw [Field.fill] at h
    cases h
    exact .nil
  | cons f rest ih =>
    cases f with
    | item value =>
      rw [Field.fill] at h
      obtain ⟨v, m₁, -, h⟩ := EvalM.bind_eq_ok h
      obtain ⟨_, m₂, -, h⟩ := EvalM.bind_eq_ok h
      obtain ⟨later, m₃, hfill, h⟩ := EvalM.bind_eq_ok h
      cases h
      refine .cons ?_ (ih hfill)
      rintro _ ⟨⟩
    | named x value =>
      rw [Field.fill] at h
      obtain ⟨v, m₁, -, h⟩ := EvalM.bind_eq_ok h
      obtain ⟨_, m₂, -, h⟩ := EvalM.bind_eq_ok h
      obtain ⟨later, m₃, hfill, h⟩ := EvalM.bind_eq_ok h
      cases h
      refine .cons ?_ (ih hfill)
      rintro _ ⟨⟩
      exact ⟨m, m, by simp only [Code.eval]; rfl⟩
    | keyed key value =>
      rw [Field.fill] at h
      obtain ⟨k, m₁, hk, h⟩ := EvalM.bind_eq_ok h
      obtain ⟨v, m₂, -, h⟩ := EvalM.bind_eq_ok h
      obtain ⟨_, m₃, -, h⟩ := EvalM.bind_eq_ok h
      obtain ⟨later, m₄, hfill, h⟩ := EvalM.bind_eq_ok h
      cases h
      refine .cons ?_ (ih hfill)
      rintro _ ⟨⟩
      exact ⟨m, m₁, hk⟩

/-- `e` reads back field `i` of the table that `fields` construct: where the keys were distinct, and
`e` looks into that table, which has not changed, with the value that the key of the field had then,
it has the value that the field had then. -/
def Code.ReadsBack (fields : List Field) (i : Nat) (e : Code) : Prop :=
  ∃ field table key, fields[i]? = some field ∧ field.key? = some key ∧
    e.access? = some (table, key) ∧
    ∀ {room c m id entries m'}, m.Linked →
      Code.construct (callAt room) c fields m = (.ok (id, entries), m') → Table.Distinct entries →
      ∃ entry, entries[i]? = some entry ∧
        ∀ {call c₁ m₁ m₂}, table.eval call c₁ m₁ = (.ok (.table id), m₂) →
          m₂.table id = m'.table id →
          (key.isFixed ∨ key.eval call c₁ m₂ = (.ok entry.1, m₂)) →
          e.eval call c₁ m₁ = (.ok entry.2, m₂)

/-- An access with the key of a field reads the field back. -/
theorem Code.readsBack_of_access {fields : List Field} {i : Nat} {e table key : Code}
    {field : Field} (hfield : fields[i]? = some field) (hkey : field.key? = some key)
    (he : e.access? = some (table, key)) : Code.ReadsBack fields i e := by
  refine ⟨field, table, key, hfield, hkey, he, fun {room c m id entries m'} hm h hd => ?_⟩
  obtain ⟨_, m₁, hnew, h⟩ := EvalM.bind_eq_ok h
  cases hnew
  obtain ⟨written, m₂, hfill, h⟩ := EvalM.bind_eq_ok h
  cases h
  obtain ⟨t, ht, hm'⟩ := fill_hidden hm.hiding hfill
  have hfills := fill_fills hfill
  obtain ⟨hi, rfl⟩ := List.getElem?_eq_some_iff.1 hfield
  have hi' : i < entries.length := hfills.length_eq ▸ hi
  refine ⟨entries[i], List.getElem?_eq_getElem hi', fun {call c₁ m₃ m₄} htable hsame hval => ?_⟩
  have hget : (m'.table m.tables.size).get entries[i].1 = entries[i].2 := by
    rw [hm'.content _ rfl]
    exact Table.get_setAll ht hd (List.getElem_mem hi')
  have hk : key.eval call c₁ m₄ = (.ok entries[i].1, m₄) := by
    rcases hval with hfixed | hval
    · obtain ⟨n, n', hn⟩ := hfills.get hi hi' key hkey
      exact Code.eval_fixed_eq hfixed hn m₄
    · exact hval
  rw [Code.eval_access he, EvalM.bind_run_ok htable, EvalM.bind_run_ok hk, EvalM.index_run]
  dsimp only
  rw [hsame, hget]

end ScriptToLua.Lua
