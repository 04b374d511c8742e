import Mathlib
import ScriptToLua.Proofs.Lua.ScopeTree

/-!
Assignments and lookups along a chain of scopes. They go outwards each on its own, and come to the same
variable: what is assigned is read back where that variable is seen, and nowhere else is anything changed,
`Machine.InTree.getPut`.
-/

namespace ScriptToLua.Lua

namespace Machine

variable {m m' : Machine} {c : Chain} {i : ScopeId} {x y : String} {v : Value}

/-- Assigns to the variable in the innermost scope of the chain that declares it, or to the global variable,
if there is one. -/
def update? (m : Machine) : Chain → String → Value → Option Machine
  | [], x, v => if m.globals.contains x then some (m.declare [] x v) else none
  | i :: c, x, v => if (m.scope i).contains x then some (m.declare [i] x v) else m.update? c x v

theorem assign_cons (h : (m.scope i).contains x = false) :
    m.assign (i :: c) x v = m.assign c x v := by
  rw [assign, owner?_cons h, assign]

/-- By induction on the chain: at every scope both go on, or neither does. -/
theorem update?_eq (m : Machine) (c : Chain) (x : String) (v : Value) :
    m.update? c x v = if (m.lookup? c x).isSome then some (m.assign c x v) else none := by
  induction c with
  | nil => rfl
  | cons i c ih =>
    rw [update?]
    cases hx : (m.scope i).contains x with
    | true =>
      have howner : m.owner? (i :: c) x = some i := by rw [owner?, List.find?_cons, hx]
      have hsome : (m.lookup? (i :: c) x).isSome := by rwa [lookup?, howner]
      rw [if_pos rfl, if_pos hsome, assign, howner]
    | false => rw [if_neg Bool.false_ne_true, ih, lookup?_cons hx, assign_cons hx]

theorem lookup?_eq_none_iff :
    m.lookup? c x = none ↔ m.owner? c x = none ∧ m.globals.contains x = false := by
  rw [lookup?]
  cases ho : m.owner? c x with
  | none => simp [OrderedMap.contains]
  | some i =>
    have hx := contains_of_owner? ho
    rw [OrderedMap.contains, Option.isSome_iff_ne_none] at hx
    simp [hx]

/-- An undeclared variable becomes global, and no other name does. -/
theorem contains_globals_assign :
    (m.assign c x v).globals.contains y ↔
      m.globals.contains y ∨ y = x ∧ m.lookup? c x = none := by
  rw [lookup?_eq_none_iff, assign]
  cases m.owner? c x with
  | none =>
    change (m.globals.insert x v).contains y ↔ _
    rw [contains_insert]
    by_cases hy : y = x
    · subst hy
      cases m.globals.contains y <;> simp
    · have hne : x ≠ y := fun h => hy h.symm
      simp [hy, hne]
  | some i => simp [declare]

end Machine

variable {call : Caller} {c : Chain} {m m₀ : Machine} {x : String} {v : Value} {value : Code}

theorem store_name_exec (h : value.eval call c m₀ = (.ok v, m)) :
    (Code.store (.name x) value).exec call c m₀ = (.ok .next, m.assign c x v) := by
  have hvalues : Code.evalAll call c [value] m₀ = (.ok [v], m) := by
    rw [Code.evalAll, EvalM.bind_run_ok h]
    rfl
  have htargets : Code.locateAll call c [.name x] m₀ = (.ok [.variable x], m₀) := rfl
  rw [Code.store, Code.exec, EvalM.bind_run_ok htargets, EvalM.bind_run_ok hvalues]
  rfl

theorem name_eval (h : m.lookup? c x = some v) : (Code.name x).eval call c m = (.ok v, m) := by
  simp only [Code.eval, EvalM.bind_run, EvalM.get_run, EvalM.pure_run, h, Option.getD_some]

/-- Where the scopes of a machine form a tree, going outwards from a scope, or from the globals, ends and
gives one chain. In it an assignment finds a variable just where a lookup does. Afterwards the value is read
from all chains in which the name stands for this variable, and all other lookups give what they gave before.
The statement makes a name global just if it was not declared, and the variable then has the value.
Whatever runs in the chain leaves a machine whose scopes form a tree that extends this one. -/
theorem Machine.InTree.getPut {t : ScopeTree} (h : m.InTree t) {e : Option ScopeId}
    (he : ∀ i, e = some i → i < m.scopes.size) :
    ∃ c : Chain, (∀ c', t.IsPath c' ∧ c'.head? = e ↔ c' = c) ∧
      (∀ x v,
        ((m.update? c x v).isSome ↔ (m.lookup? c x).isSome) ∧
        (∀ m', m.update? c x v = some m' → ∀ c' y, m'.lookup? c' y =
          if y = x ∧ m.owner? c' y = m.owner? c x then some v else m.lookup? c' y) ∧
        m.assign c x v = (m.update? c x v).getD (m.declare [] x v) ∧
        (∀ y, (m.assign c x v).globals.contains y ↔
          m.globals.contains y ∨ y = x ∧ m.lookup? c x = none) ∧
        ∀ call (value : Code) m₀, value.eval call c m₀ = (.ok v, m) →
          (Code.store (.name x) value).exec call c m₀ = (.ok .next, m.assign c x v) ∧
          (Code.name x).eval call c (m.assign c x v) = (.ok v, m.assign c x v)) ∧
      ∀ room (s : Code), ∃ t', t.Extends t' ∧ (s.exec (callAt room) c m).2.InTree t' := by
  obtain ⟨c, hc, hhead⟩ : ∃ c, t.IsPath c ∧ c.head? = e := by
    cases e with
    | none => exact ⟨[], trivial, rfl⟩
    | some i =>
      have hi : i < t.around.length := by
        rw [← h.size]
        exact he i rfl
      obtain ⟨c, hc⟩ := ScopeTree.exists_isPath hi
      exact ⟨i :: c, hc, rfl⟩
  refine ⟨c, fun c' => ?_, fun x v => ⟨?_, ?_, ?_, ?_, ?_⟩, ?_⟩
  · constructor
    · rintro ⟨hc', he'⟩
      exact ScopeTree.isPath_unique hc' hc (he'.trans hhead.symm)
    · rintro rfl
      exact ⟨hc, hhead⟩
  · rw [update?_eq]
    cases m.lookup? c x <;> simp
  · intro m' hm' c' y
    rw [update?_eq] at hm'
    split at hm'
    · obtain rfl := Option.some.inj hm'
      exact lookup?_assign_eq m c c' x v y
    · cases hm'
  · rw [update?_eq]
    cases hx : m.lookup? c x with
    | some w => rfl
    | none =>
      obtain ⟨howner, -⟩ := lookup?_eq_none_iff.1 hx
      rw [Machine.assign, howner]
      rfl
  · exact fun y => contains_globals_assign
  · intro call value m₀ hvalue
    refine ⟨store_name_exec hvalue, name_eval ?_⟩
    rw [lookup?_assign, if_pos rfl]
  · intro room s
    obtain ⟨t', ht, hm', -⟩ := (exec_branches (callAt_branches room) s hc).run m h
    exact ⟨t', ht, hm'⟩

/-- Two functions see variables of one name: `set` that of the block where it is made, `get` that around
the blocks. -/
def shadowedName : List Code :=
  [.bindLocal "x" (.string "outer"),
    .block [.bindLocal "x" (.string "inner"),
      .store (.name "set") (.function ["v"] [.store (.name "x") (.name "v")])],
    .block [.store (.name "get") (.function [] [.yields (.name "x")])]]

theorem Machine.InTree.getPut_of_shadowed :
    let m := (runChunk shadowedName .initial).2
    ∃ t, m.InTree t ∧ (∀ i, some 2 = some i → i < m.scopes.size) ∧
      (∀ c, t.IsPath c ∧ c.head? = some 2 ↔ c = [2, 0]) ∧
      (m.update? [2, 0] "y" .nil).isNone ∧
      ∃ m', m.update? [2, 0] "x" (.string "new") = some m' ∧
        m'.lookup? [0] "x" = some (.string "new") ∧
        m'.lookup? [1, 0] "x" = some (.string "inner") := by
  intro m
  obtain ⟨t, -, hm, -⟩ := (runChunk_branches shadowedName).run .initial .initial
  have hsize : ∀ i, some 2 = some i → i < m.scopes.size := by
    rintro i ⟨⟩
    decide
  obtain ⟨c, hc, hvariables, -⟩ := hm.getPut hsize
  have hget : t.IsPath [2, 0] := hm.stored (.function ⟨1, [], _, [2, 0]⟩) (.global (x := "get") rfl)
  obtain rfl : [2, 0] = c := (hc [2, 0]).1 ⟨hget, rfl⟩
  obtain ⟨-, hread, -⟩ := hvariables "x" (.string "new")
  have hupdate : m.update? [2, 0] "x" (.string "new") =
      some (m.assign [2, 0] "x" (.string "new")) := rfl
  refine ⟨t, hm, hsize, hc, ?_, _, hupdate, ?_, ?_⟩
  · have hnone : (m.update? [2, 0] "y" .nil).isSome = false := by
      rw [Bool.eq_false_iff, Ne, (hvariables "y" .nil).1]
      decide
    rw [← Option.not_isSome, hnone]
    rfl
  · exact hread _ hupdate [0] "x"
  · exact hread _ hupdate [1, 0] "x"

end ScriptToLua.Lua
