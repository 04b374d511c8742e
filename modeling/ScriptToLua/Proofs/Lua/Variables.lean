import Mathlib
import ScriptToLua.Proofs.Lua.Computation

/-!
What assignments and declarations do to the variables of a chain of scopes: `Machine.lookup?_assign`.
-/

namespace ScriptToLua.Lua

namespace Machine

variable {m m' m'' : Machine} {c : Chain} {x y : String} {v : Value} {i n : ScopeId}

/-- A scope that declares something exists. -/
theorem lt_of_contains (h : (m.scope i).contains x) : i < m.scopes.size := by
  by_contra hi
  rw [scope, Array.getElem?_eq_none (Nat.not_lt.1 hi)] at h
  cases h

theorem contains_of_owner? (h : m.owner? c x = some i) : (m.scope i).contains x := by
  unfold owner? at h
  have hp := List.find?_some h
  exact hp

theorem mem_of_owner? (h : m.owner? c x = some i) : i ∈ c := List.mem_of_find?_eq_some h

theorem scope_declare (m : Machine) (n : ScopeId) (c : Chain) (x : String) (v : Value)
    (j : ScopeId) :
    (m.declare (n :: c) x v).scope j =
      if n = j ∧ j < m.scopes.size then (m.scope j).insert x v else m.scope j :=
  scope_modify m n j fun s => s.insert x v

theorem contains_insert (s : Scope) (x : String) (v : Value) (y : String) :
    (s.insert x v).contains y = (decide (x = y) || s.contains y) := by
  rw [OrderedMap.contains, OrderedMap.get?_insert, OrderedMap.contains]
  by_cases h : x = y <;> simp [h]

theorem contains_declare (m : Machine) (i : ScopeId) (c : Chain) (x : String) (v : Value)
    (j : ScopeId) (y : String) :
    ((m.declare (i :: c) x v).scope j).contains y =
      (decide (i = j ∧ j < m.scopes.size ∧ x = y) || (m.scope j).contains y) := by
  rw [scope_declare]
  split
  · next h => simp [contains_insert, h]
  · next h => simp [← and_assoc, h]

theorem size_declare (m : Machine) (c : Chain) (x : String) (v : Value) :
    (m.declare c x v).scopes.size = m.scopes.size := by
  cases c with
  | nil => rfl
  | cons i c => exact Array.size_modify

/-- The scopes of a chain declare the same names in both machines, so names have the same owners. -/
theorem owner?_congr (h : ∀ i ∈ c, (m'.scope i).contains x = (m.scope i).contains x) :
    m'.owner? c x = m.owner? c x := by
  unfold owner?
  induction c with
  | nil => rfl
  | cons i c ih =>
    rw [List.find?_cons, List.find?_cons, h i List.mem_cons_self,
      ih fun j hj => h j (List.mem_cons_of_mem i hj)]

/-- A scope that does not declare a name lets it through. -/
theorem owner?_cons (h : (m.scope n).contains x = false) : m.owner? (n :: c) x = m.owner? c x := by
  rw [owner?, List.find?_cons, h, owner?]

theorem lookup?_cons (h : (m.scope n).contains x = false) :
    m.lookup? (n :: c) x = m.lookup? c x := by
  rw [lookup?, owner?_cons h, lookup?]

/-- What the innermost scope declares comes first. -/
theorem lookup?_head (h : (m.scope n).get? x = some v) : m.lookup? (n :: c) x = some v := by
  have hx : (m.scope n).contains x = true := by rw [OrderedMap.contains, h, Option.isSome_some]
  simp only [lookup?, owner?, List.find?_cons, hx, h]

/-- A declaration in a scope outside the chain changes nothing there. -/
theorem lookup?_declare_of_not_mem (h : n ∉ c) (c' : Chain) :
    (m.declare (n :: c') x v).lookup? c y = m.lookup? c y := by
  have hscope (i : ScopeId) (hi : i ∈ c) : (m.declare (n :: c') x v).scope i = m.scope i := by
    rw [scope_declare, if_neg]
    rintro ⟨rfl, -⟩
    exact h hi
  have howner : (m.declare (n :: c') x v).owner? c y = m.owner? c y :=
    owner?_congr fun i hi => by rw [hscope i hi]
  rw [lookup?, lookup?, howner]
  cases ho : m.owner? c y with
  | none => rfl
  | some i => simp only [hscope i (mem_of_owner? ho)]

/-- Assignments declare nothing in any scope. -/
theorem contains_assign (m : Machine) (c : Chain) (x : String) (v : Value) (i : ScopeId)
    (y : String) : ((m.assign c x v).scope i).contains y = (m.scope i).contains y := by
  unfold assign
  split
  · next id ho =>
    rw [scope_declare]
    split
    · next h =>
      obtain ⟨rfl, -⟩ := h
      rw [contains_insert]
      by_cases hxy : x = y
      · rw [decide_eq_true hxy, Bool.true_or, ← hxy, contains_of_owner? ho]
      · rw [decide_eq_false hxy, Bool.false_or]
    · rfl
  · rfl

theorem size_assign (m : Machine) (c : Chain) (x : String) (v : Value) :
    (m.assign c x v).scopes.size = m.scopes.size := by
  unfold assign
  split
  · exact Array.size_modify
  · rfl

/-- After an assignment the chains in which the same scope declares the name see the new value, and nothing
else has changed. -/
theorem lookup?_assign_eq (m : Machine) (c c' : Chain) (x : String) (v : Value) (y : String) :
    (m.assign c x v).lookup? c' y =
      if y = x ∧ m.owner? c' y = m.owner? c x then some v else m.lookup? c' y := by
  have howner : (m.assign c x v).owner? c' y = m.owner? c' y :=
    owner?_congr fun i _ => contains_assign m c x v i y
  rw [lookup?, lookup?, howner, assign]
  cases hx : m.owner? c x with
  | none =>
    cases m.owner? c' y with
    | none => simp only [declare, OrderedMap.get?_insert, and_true, eq_comm]
    | some j => simp [declare, scope]
  | some i =>
    have hi := lt_of_contains (contains_of_owner? hx)
    cases m.owner? c' y with
    | none => simp [declare]
    | some j =>
      simp only [scope_declare, Option.some.injEq]
      by_cases hij : i = j
      · subst hij
        simp only [hi, and_self, if_true, OrderedMap.get?_insert, and_true, eq_comm]
      · have hji : j ≠ i := fun h => hij h.symm
        simp only [hij, hji, false_and, and_false, if_false]

/-- An assignment changes the variable that the name stands for, and no other of the chain. -/
theorem lookup?_assign (m : Machine) (c : Chain) (x : String) (v : Value) (y : String) :
    (m.assign c x v).lookup? c y = if y = x then some v else m.lookup? c y := by
  rw [lookup?_assign_eq]
  by_cases hy : y = x
  · subst hy
    rw [if_pos ⟨rfl, rfl⟩, if_pos rfl]
  · rw [if_neg fun h => hy h.1, if_neg hy]

end Machine

end ScriptToLua.Lua
