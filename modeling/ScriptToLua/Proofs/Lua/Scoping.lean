import Mathlib
import ScriptToLua.Proofs.Lua.Alike
import ScriptToLua.Proofs.Lua.Computation

/-!
Machines that differ by scopes which nobody sees. One machine has the scopes of the other and more in
between; those declare reserved names only, and code that does not mention these names reads and
writes the same variables in both.
-/

namespace ScriptToLua.Lua

mutual

/-- The code reads and writes no variable with a reserved name. -/
def Code.Avoids (reserved : List String) : Code → Prop
  | .nil | .boolean _ | .number _ | .string _ => True
  | .name x => x ∉ reserved
  | .index table key => table.Avoids reserved ∧ key.Avoids reserved
  | .member table _ => table.Avoids reserved
  | .call callee arguments => callee.Avoids reserved ∧ Code.AllAvoid reserved arguments
  | .invoke receiver _ arguments => receiver.Avoids reserved ∧ Code.AllAvoid reserved arguments
  | .binary left _ right => left.Avoids reserved ∧ right.Avoids reserved
  | .unary _ operand => operand.Avoids reserved
  | .table fields => Field.AllAvoid reserved fields
  | .function _ body => Code.AllAvoid reserved body
  | .paren inner => inner.Avoids reserved
  | .locals _ values => Code.AllAvoid reserved values
  | .localFunction _ _ body => Code.AllAvoid reserved body
  | .assign targets values => Code.AllAvoid reserved targets ∧ Code.AllAvoid reserved values
  | .perform expression => expression.Avoids reserved
  | .returns values => Code.AllAvoid reserved values
  | .block body => Code.AllAvoid reserved body

def Code.AllAvoid (reserved : List String) : List Code → Prop
  | [] => True
  | c :: rest => c.Avoids reserved ∧ Code.AllAvoid reserved rest

def Field.AllAvoid (reserved : List String) : List Field → Prop
  | [] => True
  | .item value :: rest => value.Avoids reserved ∧ Field.AllAvoid reserved rest
  | .named _ value :: rest => value.Avoids reserved ∧ Field.AllAvoid reserved rest
  | .keyed key value :: rest =>
    (key.Avoids reserved ∧ value.Avoids reserved) ∧ Field.AllAvoid reserved rest

end

mutual

/-- No name is reserved. -/
theorem Code.avoids_nil : (e : Code) → e.Avoids []
  | .nil | .boolean _ | .number _ | .string _ => trivial
  | .name _ => List.not_mem_nil
  | .index table key => ⟨table.avoids_nil, key.avoids_nil⟩
  | .member table _ => table.avoids_nil
  | .call callee arguments => ⟨callee.avoids_nil, Code.allAvoid_nil arguments⟩
  | .invoke receiver _ arguments => ⟨receiver.avoids_nil, Code.allAvoid_nil arguments⟩
  | .binary left _ right => ⟨left.avoids_nil, right.avoids_nil⟩
  | .unary _ operand => operand.avoids_nil
  | .table fields => Field.allAvoid_nil fields
  | .function _ body => Code.allAvoid_nil body
  | .paren inner => inner.avoids_nil
  | .locals _ values => Code.allAvoid_nil values
  | .localFunction _ _ body => Code.allAvoid_nil body
  | .assign targets values => ⟨Code.allAvoid_nil targets, Code.allAvoid_nil values⟩
  | .perform expression => expression.avoids_nil
  | .returns values => Code.allAvoid_nil values
  | .block body => Code.allAvoid_nil body

theorem Code.allAvoid_nil : (es : List Code) → Code.AllAvoid [] es
  | [] => trivial
  | e :: rest => ⟨e.avoids_nil, Code.allAvoid_nil rest⟩

theorem Field.allAvoid_nil : (fs : List Field) → Field.AllAvoid [] fs
  | [] => trivial
  | .item value :: rest => ⟨value.avoids_nil, Field.allAvoid_nil rest⟩
  | .named _ value :: rest => ⟨value.avoids_nil, Field.allAvoid_nil rest⟩
  | .keyed key value :: rest => ⟨⟨key.avoids_nil, value.avoids_nil⟩, Field.allAvoid_nil rest⟩

end

/-- Where the scopes of one machine stand among the scopes of another, and the names that only the
other scopes declare. -/
structure ScopeMap where
  image : Nat → Nat
  strictMono : StrictMono image
  reserved : List String

namespace ScopeMap

variable {f : ScopeMap} {b : Bool}

theorem image_inj (f : ScopeMap) {i j : Nat} : f.image i = f.image j ↔ i = j :=
  f.strictMono.injective.eq_iff

/-- A scope that stands for no scope of the smaller machine. -/
def Extra (f : ScopeMap) (s : Nat) : Prop := ∀ i, f.image i ≠ s

/-- Chains through the same scopes; when `loose` is set, extra scopes may lie in between. -/
inductive Chains (f : ScopeMap) : (loose : Bool) → Chain → Chain → Prop where
  | nil {loose : Bool} : Chains f loose [] []
  | cons {loose : Bool} {c c' : Chain} (i : Nat) (h : Chains f loose c c') :
    Chains f loose (i :: c) (f.image i :: c')
  | extra {c c' : Chain} {s : Nat} (hs : f.Extra s) (h : Chains f true c c') :
    Chains f true c (s :: c')

/-- Equal values; closures may see more scopes, as long as their code avoids the names there. -/
inductive Values (f : ScopeMap) : Value → Value → Prop where
  | plain (v : Value) (h : ∀ g, v ≠ .function g) : Values f v v
  | closure {loose : Bool} {id : Nat} {parameters : List String} {body : List Code}
    {c c' : Chain} (hc : Chains f loose c c')
    (hb : loose = true → Code.AllAvoid f.reserved body) :
    Values f (.function ⟨id, parameters, body, c⟩) (.function ⟨id, parameters, body, c'⟩)

/-- Maps with the same keys in the same order and related values. -/
def Maps {κ : Type} (f : ScopeMap) (m m' : OrderedMap κ Value) : Prop :=
  List.Forall₂ (fun e e' => e.1 = e'.1 ∧ f.Values e.2 e'.2) m.entries m'.entries

/-- What a machine has beyond another: what its extra scopes hold, and how many calls it is deeper
than the depth of the other. -/
structure Surplus where
  scopes : Nat → Scope
  depth : Nat
  calls : Nat

/-- Machines that agree on all scopes of the first and on all tables. -/
structure Machines (f : ScopeMap) (s : Surplus) (m m' : Machine) : Prop where
  globals : f.Maps m.globals m'.globals
  scopes : ∀ i, f.Maps (m.scope i) (m'.scope (f.image i))
  /-- Scopes opened from now on correspond in order. -/
  fresh : ∀ k, f.image (m.scopes.size + k) = m'.scopes.size + k
  extra : ∀ i, f.Extra i → m'.scope i = s.scopes i
  reserved : ∀ i x, (s.scopes i).contains x → x ∈ f.reserved
  tables_size : m.tables.size = m'.tables.size
  tables : ∀ id, f.Maps (m.table id) (m'.table id)
  nextClosure : m.nextClosure = m'.nextClosure
  depth : m.depth = s.depth
  depth_add : m'.depth = s.depth + s.calls

theorem Values.nil : f.Values .nil .nil := .plain _ nofun

theorem Values.boolean (b : Bool) : f.Values (.boolean b) (.boolean b) := .plain _ nofun

theorem Values.number (x : Float) : f.Values (.number x) (.number x) := .plain _ nofun

theorem Values.string (s : String) : f.Values (.string s) (.string s) := .plain _ nofun

theorem Values.table (id : TableId) : f.Values (.table id) (.table id) := .plain _ nofun

variable {v v' : Value}

theorem Values.alike (h : f.Values v v') : v.Alike v' := by
  cases h with
  | plain => exact .same _
  | closure => exact .functions rfl

theorem Values.text (h : f.Values v v') : v.text = v'.text := h.alike.text

section Maps

variable {κ : Type} {m m' : OrderedMap κ Value}

theorem Maps.empty : f.Maps (OrderedMap.empty : OrderedMap κ Value) .empty := .nil

theorem Maps.size (h : f.Maps m m') : m.size = m'.size := h.length_eq

variable [DecidableEq κ]

theorem Maps.get? (h : f.Maps m m') (k : κ) : Option.Rel f.Values (m.get? k) (m'.get? k) :=
  OrderedMap.Pairs.get? h k

theorem Maps.contains (h : f.Maps m m') (k : κ) : m.contains k = m'.contains k :=
  OrderedMap.Pairs.contains h k

theorem Maps.getD (h : f.Maps m m') (k : κ) :
    f.Values ((m.get? k).getD .nil) ((m'.get? k).getD .nil) := by
  have hk := h.get? k
  generalize m.get? k = o, m'.get? k = o' at hk
  cases hk with
  | none => exact Values.nil
  | some hv => exact hv

theorem Maps.insert (h : f.Maps m m') (k : κ) (hv : f.Values v v') :
    f.Maps (m.insert k v) (m'.insert k v') := OrderedMap.Pairs.insert h k hv

theorem Maps.erase (h : f.Maps m m') (k : κ) : f.Maps (m.erase k) (m'.erase k) :=
  OrderedMap.Pairs.erase h k

end Maps

section Machines

variable {s : Surplus} {m m' : Machine} {loose : Bool} {c c' : Chain} {x : String}

theorem Chains.loosen (h : f.Chains loose c c') : f.Chains true c c' := by
  induction h with
  | nil => exact .nil
  | cons i _ ih => exact .cons i ih
  | extra hs _ ih => exact .extra hs ih

theorem Machines.owner? (h : f.Machines s m m') (hc : f.Chains loose c c')
    (hx : loose = true → x ∉ f.reserved) : m'.owner? c' x = (m.owner? c x).map f.image := by
  unfold Machine.owner?
  induction hc with
  | nil => rfl
  | cons i _ ih =>
    rw [List.find?_cons, List.find?_cons, ← (h.scopes i).contains]
    cases (m.scope i).contains x with
    | true => rfl
    | false => exact ih hx
  | extra hs _ ih =>
    rw [List.find?_cons, h.extra _ hs]
    cases he : (s.scopes _).contains x with
    | true => exact absurd (h.reserved _ _ he) (hx rfl)
    | false => exact ih hx

theorem Machines.lookup? (h : f.Machines s m m') (hc : f.Chains loose c c')
    (hx : loose = true → x ∉ f.reserved) :
    Option.Rel f.Values (m.lookup? c x) (m'.lookup? c' x) := by
  simp only [Machine.lookup?, h.owner? hc hx]
  cases m.owner? c x with
  | none => exact h.globals.get? x
  | some i => exact (h.scopes i).get? x

theorem Machines.lt_size_iff (h : f.Machines s m m') {i : Nat} :
    f.image i < m'.scopes.size ↔ i < m.scopes.size := by
  have h0 : f.image m.scopes.size = m'.scopes.size := h.fresh 0
  rw [← h0]
  exact f.strictMono.lt_iff_lt

theorem Machines.modifyScope (h : f.Machines s m m') (i : Nat) {v v' : Value}
    (hv : f.Values v v') :
    f.Machines s (m.declare [i] x v) (m'.declare [f.image i] x v') where
  globals := h.globals
  scopes j := by
    simp only [Machine.declare, Machine.scope_modify, f.image_inj, h.lt_size_iff]
    split
    · exact (h.scopes j).insert x hv
    · exact h.scopes j
  fresh k := by simpa [Machine.declare] using h.fresh k
  extra j hj := by
    simp only [Machine.declare, Machine.scope_modify, if_neg (fun e => hj i e.1 : ¬(_ ∧ _)), h.extra j hj]
  reserved := h.reserved
  tables_size := h.tables_size
  tables := h.tables
  nextClosure := h.nextClosure
  depth := h.depth
  depth_add := h.depth_add

theorem Machines.declareGlobal (h : f.Machines s m m') {v v' : Value} (hv : f.Values v v') :
    f.Machines s (m.declare [] x v) (m'.declare [] x v') :=
  { h with globals := h.globals.insert x hv }

theorem Machines.assign (h : f.Machines s m m') (hc : f.Chains loose c c')
    (hx : loose = true → x ∉ f.reserved) {v v' : Value} (hv : f.Values v v') :
    f.Machines s (m.assign c x v) (m'.assign c' x v') := by
  simp only [Machine.assign, h.owner? hc hx]
  cases m.owner? c x with
  | none => exact h.declareGlobal hv
  | some i => exact h.modifyScope i hv

theorem Machines.declareAll (h : f.Machines s m m') (i : Nat) (xs : List String)
    {vs vs' : List Value} (hv : List.Forall₂ f.Values vs vs') :
    f.Machines s (m.declareAll (i :: c) xs vs)
      (m'.declareAll (f.image i :: c') xs vs') := by
  induction xs generalizing m m' vs vs' with
  | nil => exact h
  | cons x xs ih =>
    cases hv with
    | nil => exact ih (h.modifyScope i .nil) .nil
    | cons hv hvs => exact ih (h.modifyScope i hv) hvs

theorem Machines.openScope (h : f.Machines s m m') :
    f.Machines s { m with scopes := m.scopes.push .empty }
      { m' with scopes := m'.scopes.push .empty } where
  globals := h.globals
  scopes j := by
    have hs := h.scopes j
    have h0 : f.image m.scopes.size = m'.scopes.size := h.fresh 0
    simp only [Machine.scope, Array.getElem?_push, ← h0, f.image_inj] at hs ⊢
    by_cases hj : j = m.scopes.size
    · simp only [if_pos hj]
      exact Maps.empty
    · simpa only [if_neg hj] using hs
  fresh k := by
    have hk := h.fresh (k + 1)
    simp only [Array.size_push]
    rw [Nat.add_assoc, Nat.add_comm 1 k, hk, Nat.add_assoc, Nat.add_comm 1 k]
  extra i hi := by
    have h0 : f.image m.scopes.size = m'.scopes.size := h.fresh 0
    have hi' := h.extra i hi
    have hne : i ≠ m'.scopes.size := fun e => hi _ (h0.trans e.symm)
    simpa only [Machine.scope, Array.getElem?_push, if_neg hne] using hi'
  reserved := h.reserved
  tables_size := h.tables_size
  tables := h.tables
  nextClosure := h.nextClosure
  depth := h.depth
  depth_add := h.depth_add

theorem Machines.setTable (h : f.Machines s m m') (id : TableId) {t t' : Table}
    (ht : f.Maps t t') : f.Machines s (m.setTable id t) (m'.setTable id t') :=
  { h with
    tables_size := by simpa only [Machine.size_setTable] using h.tables_size
    tables := Machine.setTable_pairs h.tables_size h.tables id ht }

theorem Machines.newTable (h : f.Machines s m m') :
    f.Machines s { m with tables := m.tables.push .empty }
      { m' with tables := m'.tables.push .empty } :=
  { h with
    tables_size := by simpa using h.tables_size
    tables := Machine.pushTable_pairs h.tables_size h.tables }

end Machines

end ScopeMap

end ScriptToLua.Lua
