import Mathlib
import ScriptToLua.Proofs.Lua.Variables

/-!
The names that code declares and those that it assigns to without a declaration, and what one step of
running code does to the names of a machine: declarations add names to new scopes, and assignments to
the globals.
-/

namespace ScriptToLua.Lua

/-- The names that a statement declares in the scope where it stands. -/
def Code.declares : Code → List String
  | .locals names _ => names
  | .localFunction x _ _ => [x]
  | _ => []

mutual

/-- The names that the code, or a function in it, assigns to where the code does not declare them. -/
def Code.assigned : Code → Set String
  | .nil | .boolean _ | .number _ | .string _ | .name _ => ∅
  | .index table key => table.assigned ∪ key.assigned
  | .member table _ => table.assigned
  | .call callee arguments => callee.assigned ∪ Code.allAssigned arguments
  | .invoke receiver _ arguments => receiver.assigned ∪ Code.allAssigned arguments
  | .binary left _ right => left.assigned ∪ right.assigned
  | .unary _ operand => operand.assigned
  | .table fields => Field.allAssigned fields
  | .function parameters body => Code.blockAssigned body \ {x | x ∈ parameters}
  | .paren inner => inner.assigned
  | .locals _ values => Code.allAssigned values
  | .localFunction f parameters body => Code.blockAssigned body \ {x | x ∈ f :: parameters}
  | .assign targets values =>
    {x | Code.name x ∈ targets} ∪ Code.allAssigned targets ∪ Code.allAssigned values
  | .perform expression => expression.assigned
  | .returns values => Code.allAssigned values
  | .block body => Code.blockAssigned body

def Code.allAssigned : List Code → Set String
  | [] => ∅
  | e :: rest => e.assigned ∪ Code.allAssigned rest

def Field.allAssigned : List Field → Set String
  | [] => ∅
  | .item value :: rest => value.assigned ∪ Field.allAssigned rest
  | .named _ value :: rest => value.assigned ∪ Field.allAssigned rest
  | .keyed key value :: rest => key.assigned ∪ value.assigned ∪ Field.allAssigned rest

/-- A declaration covers the statements after it. -/
def Code.blockAssigned : List Code → Set String
  | [] => ∅
  | s :: rest => s.assigned ∪ (Code.blockAssigned rest \ {x | x ∈ s.declares})

end

namespace Machine

/-- The names that some scope of the chain declares. -/
def declared (m : Machine) (c : Chain) : Set String := {x | ∃ i ∈ c, (m.scope i).contains x}

/-- The value is that of a variable or of an entry of a table. -/
inductive Stores (m : Machine) (v : Value) : Prop
  | global {x : String} (h : m.globals.get? x = some v)
  | variable {i : ScopeId} {x : String} (h : (m.scope i).get? x = some v)
  | entry {id : TableId} {k : Key} (h : (m.table id).get? k = some v)

end Machine

/-- The names that a call of the value assigns to where neither the function nor the scopes around it
declare them. -/
def Value.assigned (m : Machine) : Value → Set String
  | .function f => (Code.function f.parameters f.body).assigned \ m.declared f.chain
  | _ => ∅

/-- The names that the functions which the machine stores assign to without a declaration. -/
def Machine.assigned (m : Machine) : Set String := {x | ∃ v, m.Stores v ∧ x ∈ v.assigned m}

/-- What running code has to keep to. -/
structure Fence where
  /-- The names that may become global. -/
  names : Set String
  /-- The number of scopes that gain no names. -/
  old : Nat
  /-- Whether all chains lead to scopes that exist. -/
  closed : Prop

variable {L : Fence} {m m' m'' : Machine} {c : Chain} {A B : Set String} {v w : Value} {x : String}
  {i : ScopeId}

/-- Code that assigns to the names `A` may run among the scopes of `c`. -/
structure Machine.Admits (L : Fence) (m : Machine) (c : Chain) (A : Set String) : Prop where
  names : A \ m.declared c ⊆ L.names
  closed : L.closed → ∀ i ∈ c, i < m.scopes.size

/-- The value may be called, if it is a function. -/
def Value.Obeys (L : Fence) (m : Machine) : Value → Prop
  | .function f => m.Admits L f.chain (Code.function f.parameters f.body).assigned
  | _ => True

theorem Value.Obeys.nil : Value.nil.Obeys L m := trivial

theorem Value.Obeys.plain (h : ∀ f, v ≠ .function f) : v.Obeys L m := by
  cases v with
  | function f => exact absurd rfl (h f)
  | _ => trivial

/-- All functions of the machine may be called. -/
structure Machine.Obeys (L : Fence) (m : Machine) : Prop where
  old : L.old ≤ m.scopes.size
  stored : ∀ v, m.Stores v → v.Obeys L m

/-- The second machine has the scopes of the first and maybe more; names have been added where the fence
lets them. -/
structure Machine.Grows (L : Fence) (m m' : Machine) : Prop where
  size : m.scopes.size ≤ m'.scopes.size
  kept : ∀ i x, (m.scope i).contains x → (m'.scope i).contains x
  old : ∀ i < L.old, ∀ x, (m'.scope i).contains x = (m.scope i).contains x
  globals : ∀ x ∉ L.names, m'.globals.get? x = m.globals.get? x

namespace Machine

theorem Grows.refl (m : Machine) : m.Grows L m where
  size := le_rfl
  kept _ _ h := h
  old _ _ _ := rfl
  globals _ _ := rfl

theorem Grows.trans (h : m.Grows L m') (h' : m'.Grows L m'') : m.Grows L m'' where
  size := h.size.trans h'.size
  kept i x hx := h'.kept i x (h.kept i x hx)
  old i hi x := (h'.old i hi x).trans (h.old i hi x)
  globals x hx := (h'.globals x hx).trans (h.globals x hx)

theorem Grows.declared (h : m.Grows L m') (c : Chain) : m.declared c ⊆ m'.declared c :=
  fun x ⟨i, hi, hx⟩ => ⟨i, hi, h.kept i x hx⟩

namespace Admits

theorem mono (h : m.Admits L c B) (hg : m.Grows L m') (hA : A ⊆ B) : m'.Admits L c A where
  names := fun _ hx => h.names ⟨hA hx.1, fun hd => hx.2 (hg.declared c hd)⟩
  closed hc i hi := (h.closed hc i hi).trans_le hg.size

theorem subset (h : m.Admits L c B) (hA : A ⊆ B) : m.Admits L c A := h.mono (.refl m) hA

/-- One more scope covers at least as much. -/
theorem inner (h : m.Admits L c A) (hi : i < m.scopes.size) : m.Admits L (i :: c) A where
  names := fun _ hx => h.names ⟨hx.1, fun ⟨j, hj, hd⟩ => hx.2 ⟨j, List.mem_cons_of_mem i hj, hd⟩⟩
  closed hc := List.forall_mem_cons.2 ⟨hi, h.closed hc⟩

/-- Once names are declared, code may assign to them. -/
theorem covered {xs : List String} (h : m.Admits L c (A \ {x | x ∈ xs}))
    (hd : ∀ x ∈ xs, x ∈ m.declared c) : m.Admits L c A where
  names := fun x hx => h.names ⟨⟨hx.1, fun hxs => hx.2 (hd x hxs)⟩, hx.2⟩
  closed := h.closed

end Admits

end Machine

theorem Value.Obeys.mono (h : v.Obeys L m) (hg : m.Grows L m') : v.Obeys L m' := by
  cases v with
  | function f => exact Machine.Admits.mono h hg subset_rfl
  | _ => trivial

namespace Machine

/-- A machine that has grown obeys if what it stores anew does. -/
theorem Obeys.of_grows (h : m.Obeys L) (hg : m.Grows L m')
    (hs : ∀ v, m'.Stores v → m.Stores v ∨ v.Obeys L m) : m'.Obeys L where
  old := h.old.trans hg.size
  stored v hv := by
    rcases hs v hv with hv | hv
    · exact (h.stored v hv).mono hg
    · exact hv.mono hg

section Stores

theorem Stores.of_lookup? (h : m.lookup? c x = some v) : m.Stores v := by
  unfold lookup? at h
  split at h
  · exact .variable h
  · exact .global h

theorem Stores.of_declare (h : (m.declare c x v).Stores w) : m.Stores w ∨ w = v := by
  have hinsert {s : Scope} {y : String} (hy : (s.insert x v).get? y = some w) :
      s.get? y = some w ∨ w = v := by
    rw [OrderedMap.get?_insert] at hy
    split at hy
    · exact .inr (Option.some.inj hy).symm
    · exact .inl hy
  cases c with
  | nil =>
    cases h with
    | global h => exact (hinsert h).imp_left .global
    | «variable» h => exact .inl (.variable h)
    | entry h => exact .inl (.entry h)
  | cons i c =>
    cases h with
    | global h => exact .inl (.global h)
    | «variable» h =>
      rw [scope_declare] at h
      split at h
      · exact (hinsert h).imp_left .variable
      · exact .inl (.variable h)
    | entry h => exact .inl (.entry h)

theorem Stores.of_assign (h : (m.assign c x v).Stores w) : m.Stores w ∨ w = v := by
  unfold assign at h
  split at h
  · exact h.of_declare
  · exact h.of_declare

theorem Stores.of_openScope (h : ({ m with scopes := m.scopes.push .empty } : Machine).Stores v) :
    m.Stores v := by
  cases h with
  | global h => exact .global h
  | @«variable» i x h =>
    have hi : (m.scope i).get? x = some v := by rwa [← m.scope_push i]
    exact .variable hi
  | entry h => exact .entry h

theorem Stores.of_newTable (h : ({ m with tables := m.tables.push .empty } : Machine).Stores v) :
    m.Stores v := by
  cases h with
  | global h => exact .global h
  | «variable» h => exact .variable h
  | @entry id k h =>
    rw [table_push] at h
    exact .entry h

theorem Stores.of_counts {nextClosure depth : Nat}
    (h : ({ m with nextClosure, depth } : Machine).Stores v) : m.Stores v := by
  cases h with
  | global h => exact .global h
  | «variable» h => exact .variable h
  | entry h => exact .entry h

theorem Stores.of_write {id : TableId} {k : Key}
    (h : (m.setTable id ((m.table id).write k v)).Stores w) : m.Stores w ∨ w = v := by
  cases h with
  | global h => exact .inl (.global h)
  | «variable» h => exact .inl (.variable h)
  | @entry id' k' h =>
    rw [table_setTable_eq] at h
    split at h
    · unfold Table.write at h
      split at h
      · rw [OrderedMap.get?_erase] at h
        split at h
        · cases h
        · exact .inl (.entry h)
      · rw [OrderedMap.get?_insert] at h
        split at h
        · exact .inr (Option.some.inj h).symm
        · exact .inl (.entry h)
    · exact .inl (.entry h)

/-- What is read from a table is stored there, or `nil`. -/
theorem Stores.of_index {target key : Value} (h : (EvalM.index target key m).1 = .ok v) :
    m.Stores v ∨ v = .nil := by
  rw [EvalM.index_run] at h
  cases target with
  | table id =>
    obtain rfl : (m.table id).get key = v := Except.ok.inj h
    unfold Table.get Table.read
    split
    · next k _ =>
      cases hs : (m.table id).get? k with
      | none => exact .inr rfl
      | some v => exact .inl (.entry hs)
    · exact .inr rfl
  | _ => cases h

/-- A write to a table leaves the rest of the machine alone. -/
theorem setEntry_run_cases (m : Machine) (id : TableId) (key v : Value) :
    (∃ e, EvalM.setEntry id key v m = (.error e, m)) ∨
      ∃ k, EvalM.setEntry id key v m = (.ok (), m.setTable id ((m.table id).write k v)) := by
  rw [EvalM.setEntry_run]
  unfold Table.set
  cases Key.ofValue key with
  | error e => exact .inl ⟨e, rfl⟩
  | ok k => exact .inr ⟨k, rfl⟩

theorem Stores.of_setEntry {id : TableId} {key : Value}
    (h : (EvalM.setEntry id key v m).2.Stores w) : m.Stores w ∨ w = v := by
  rcases setEntry_run_cases m id key v with ⟨e, hrun⟩ | ⟨k, hrun⟩
  · rw [hrun] at h
    exact .inl h
  · rw [hrun] at h
    exact h.of_write

theorem scopes_setEntry (m : Machine) (id : TableId) (key v : Value) :
    (EvalM.setEntry id key v m).2.scopes = m.scopes := by
  rcases setEntry_run_cases m id key v with ⟨e, hrun⟩ | ⟨k, hrun⟩
  · rw [hrun]
  · rw [hrun, setTable]

end Stores

section Changes

/-- Whatever happens to anything but variables. -/
theorem Grows.of_rest (m : Machine) (tables : Array Table) (nextClosure depth : Nat) :
    m.Grows L { m with tables, nextClosure, depth } where
  size := le_rfl
  kept _ _ h := h
  old _ _ _ := rfl
  globals _ _ := rfl

theorem Grows.openScope (m : Machine) : m.Grows L { m with scopes := m.scopes.push .empty } where
  size := by
    rw [Array.size_push]
    exact Nat.le_succ _
  kept i x h := by
    change ((m.scopes.push .empty)[i]?.getD .empty).contains x
    rwa [scope_push]
  old i _ x := by
    change ((m.scopes.push .empty)[i]?.getD .empty).contains x = _
    rw [scope_push]
  globals _ _ := rfl

theorem Grows.declare (hi : L.old ≤ i) (c : Chain) (x : String) (v : Value) :
    m.Grows L (m.declare (i :: c) x v) where
  size := (size_declare m _ x v).ge
  kept j y h := by rw [contains_declare, h, Bool.or_true]
  old j hj y := by
    have hne : ¬ (i = j ∧ j < m.scopes.size ∧ x = y) := fun h => (hi.trans_eq h.1).not_gt hj
    rw [contains_declare, decide_eq_false hne, Bool.false_or]
  globals _ _ := rfl

/-- An assignment adds a name to the globals if no scope of the chain declares it. -/
theorem Grows.assign (h : m.Admits L c {x}) (v : Value) : m.Grows L (m.assign c x v) where
  size := (size_assign m c x v).ge
  kept i y h := by rwa [contains_assign]
  old i _ y := contains_assign m c x v i y
  globals y hy := by
    unfold Machine.assign
    cases ho : m.owner? c x with
    | some i => rfl
    | none =>
      have hx : x ∉ m.declared c := fun ⟨i, hi, hx⟩ => List.find?_eq_none.1 ho i hi hx
      have hname : x ∈ L.names := h.names ⟨Set.mem_singleton x, hx⟩
      have hne : x ≠ y := fun he => hy (he ▸ hname)
      simp only [Machine.declare, OrderedMap.get?_insert, if_neg hne]

/-- Declarations in a scope that the running code has opened. -/
theorem Obeys.declareAll (h : m.Obeys L) (hi : L.old ≤ i) (hl : i < m.scopes.size) (c : Chain)
    (xs : List String) {vs : List Value} (hv : ∀ v ∈ vs, v.Obeys L m) :
    m.Grows L (m.declareAll (i :: c) xs vs) ∧ (m.declareAll (i :: c) xs vs).Obeys L ∧
      ∀ x ∈ xs, x ∈ (m.declareAll (i :: c) xs vs).declared (i :: c) := by
  induction xs generalizing m vs with
  | nil => exact ⟨.refl m, h, nofun⟩
  | cons x xs ih =>
    have hstep (v : Value) (hv : v.Obeys L m) :
        m.Grows L (m.declare (i :: c) x v) ∧ (m.declare (i :: c) x v).Obeys L ∧
          i < (m.declare (i :: c) x v).scopes.size ∧
          x ∈ (m.declare (i :: c) x v).declared (i :: c) := by
      refine ⟨.declare hi c x v, h.of_grows (.declare hi c x v) fun w hw => ?_, ?_, ?_⟩
      · exact hw.of_declare.imp_right (by rintro rfl; exact hv)
      · rwa [size_declare]
      · refine ⟨i, List.mem_cons_self, ?_⟩
        rw [contains_declare, decide_eq_true ⟨rfl, hl, rfl⟩, Bool.true_or]
    cases vs with
    | nil =>
      obtain ⟨hg, ho, hl', hx⟩ := hstep .nil .nil
      have hnone : ∀ w ∈ ([] : List Value), w.Obeys L (m.declare (i :: c) x .nil) := nofun
      obtain ⟨hg', ho', hxs⟩ := ih ho hl' hnone
      exact ⟨hg.trans hg', ho', List.forall_mem_cons.2 ⟨hg'.declared _ hx, hxs⟩⟩
    | cons v vs =>
      obtain ⟨hhead, htail⟩ := List.forall_mem_cons.1 hv
      obtain ⟨hg, ho, hl', hx⟩ := hstep v hhead
      obtain ⟨hg', ho', hxs⟩ := ih ho hl' fun w hw => (htail w hw).mono hg
      exact ⟨hg.trans hg', ho', List.forall_mem_cons.2 ⟨hg'.declared _ hx, hxs⟩⟩

end Changes

end Machine

end ScriptToLua.Lua
