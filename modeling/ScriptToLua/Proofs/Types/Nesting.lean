import Mathlib
import ScriptToLua.Typing
import ScriptToLua.Proofs.Source.Tree

/-!
Expressions that are no deeper than what is looked into. Their types do not depend on how much deeper
one could look: `typeAt_of_nestsWithin`.
-/

namespace ScriptToLua

open Source (Arena Node NodeId)

/-- No more than `levels` nodes lie one below another, from the node at `id` on. -/
def Source.Arena.nestsWithin (a : Arena) : (levels : Nat) → NodeId → Bool
  | 0, _ => false
  | levels + 1, id => (a.children id).all (a.nestsWithin levels)

section Nesting

variable {a : Arena} {levels more : Nat} {id c : NodeId} {n : Node}

theorem nestsWithin_child (h : a.nestsWithin (levels + 1) id)
    (hn : a.get? id = some n) (hc : c ∈ n.children) : a.nestsWithin levels c := by
  rw [Arena.nestsWithin, Arena.children_of_get? hn] at h
  exact List.all_eq_true.1 h c hc

theorem exists_of_nestsWithin (h : a.nestsWithin levels id) : ∃ m, levels = m + 1 := by
  cases levels with
  | zero => cases h
  | succ levels => exact ⟨levels, rfl⟩

namespace Typing

variable {f : TypeFacts} {typeOf typeOf' : NodeId → TypeM TypeId}

/-- The type of a node depends on those of its children only. -/
theorem nodeType_congr (h : ∀ c ∈ n.children, typeOf c = typeOf' c) :
    nodeType a f typeOf n = nodeType a f typeOf' n := by
  cases n with
  | parenthesized inner => exact h inner List.mem_cons_self
  | assign target op value => exact h value (List.mem_cons_of_mem _ List.mem_cons_self)
  | unary op operand => cases op <;> rfl
  | binary left op right =>
    have hleft := h left List.mem_cons_self
    have hright := h right (List.mem_cons_of_mem _ List.mem_cons_self)
    cases op <;> simp only [nodeType, binaryType, hleft, hright]
  | call callee arguments => simp only [nodeType, h callee List.mem_cons_self]
  | property receiver name => simp only [nodeType, h receiver List.mem_cons_self]
  | element receiver key => simp only [nodeType, h receiver List.mem_cons_self]
  | _ => rfl

/-- To look deeper than an expression goes changes nothing. -/
theorem typeAt_of_nestsWithin (h : a.nestsWithin levels id) (hle : levels ≤ more) :
    typeAt a f more id = typeAt a f levels id := by
  induction levels generalizing id more with
  | zero => cases h
  | succ levels ih =>
    obtain ⟨more, rfl⟩ : ∃ m, more = m + 1 := ⟨more - 1, by omega⟩
    unfold typeAt
    cases f.nodes.get? id with
    | some t => rfl
    | none =>
      cases hn : a.get? id with
      | none => rfl
      | some n => exact nodeType_congr fun c hc => ih (nestsWithin_child h hn hc) (Nat.le_of_succ_le_succ hle)

/-- The type of a node that is not nested too deeply comes from the types of its children. -/
theorem expressionType_eq (h : a.nestsWithin levels id) (hle : levels ≤ maxNesting)
    (hid : f.nodes.get? id = none) (hn : a.get? id = some n) :
    f.expressionType a id = nodeType a f (f.expressionType a) n := by
  obtain ⟨levels, rfl⟩ := exists_of_nestsWithin h
  refine (typeAt_node hid hn (maxNesting - 1)).trans (nodeType_congr fun c hc => ?_)
  have hchild := nestsWithin_child h hn hc
  rw [TypeFacts.expressionType, typeAt_of_nestsWithin hchild (Nat.le_sub_one_of_lt hle),
    typeAt_of_nestsWithin hchild (Nat.le_of_succ_le hle)]

end Typing

end Nesting

end ScriptToLua
