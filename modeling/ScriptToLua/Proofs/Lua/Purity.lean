import Mathlib
import ScriptToLua.Proofs.Lua.Computation

/-!
Code that only reads. Running it leaves the machine as it is, `Code.eval_reads`, and calls nothing, so
evaluating it twice is like evaluating it once: `Code.eval_of_isPure`.
-/

namespace ScriptToLua.Lua

/-- The computation leaves every machine as it is. -/
def EvalM.Reads {α : Type} (act : EvalM α) : Prop := ∀ m, (act m).2 = m

namespace EvalM

variable {α β : Type}

theorem Reads.pure (a : α) : Reads (pure a) := fun _ => rfl

theorem Reads.fault (e : Fault) : Reads (throw e : EvalM α) := fun _ => rfl

theorem Reads.ofExcept (r : Except Fault α) : Reads (ofExcept r) := by
  intro m
  rw [ofExcept_run]

theorem Reads.index (target key : Value) : Reads (index target key) := by
  intro m
  rw [index_run]

theorem Reads.bind {act : EvalM α} {next : α → EvalM β} (h : Reads act)
    (hn : ∀ a, Reads (next a)) : Reads (act >>= next) := by
  intro m
  have hm := h m
  rw [bind_run]
  generalize act m = o at hm ⊢
  obtain ⟨r, n⟩ := o
  cases r with
  | ok a => exact (hn a n).trans hm
  | error e => exact hm

theorem Reads.run {act : EvalM α} (h : Reads act) (m : Machine) : act m = ((act m).1, m) :=
  Prod.ext rfl (h m)

/-- What only reads need not be done again. -/
theorem Reads.twice {act : EvalM α} (h : Reads act) (next : α → α → EvalM β) :
    (act >>= fun a => act >>= next a) = act >>= fun a => next a a := by
  funext m
  refine bind_run_congr rfl fun a n hrun => ?_
  have hm : n = m := (congrArg Prod.snd hrun).symm.trans (h m)
  rw [← hm] at hrun
  exact bind_run_ok hrun _

end EvalM

theorem applyUnary_reads (op : UnaryOp) (v : Value) : EvalM.Reads (applyUnary op v) := by
  intro m
  cases op with
  | not => rfl
  | neg => cases v <;> rfl
  | len => cases v <;> rfl

theorem applyUnary_ne_function {op : UnaryOp} {v w : Value} {m : Machine}
    (h : (applyUnary op v m).1 = .ok w) (f : Closure) : w ≠ .function f := by
  rintro rfl
  cases op with
  | not => cases h
  | neg => cases v <;> cases h
  | len => cases v <;> cases h

theorem Code.eval_reads (call : Caller) (c : Chain) :
    (e : Code) → e.isPure → EvalM.Reads (e.eval call c)
  | .nil, _ => .pure _
  | .boolean _, _ => .pure _
  | .number text, _ => by
    simp only [Code.eval]
    split
    · exact .pure _
    · exact .fault _
  | .string _, _ => .pure _
  | .name _, _ => fun _ => rfl
  | .index t k, h => by
    simp only [Code.isPure, Bool.and_eq_true] at h
    simp only [Code.eval]
    refine (Code.eval_reads call c t h.1).bind fun _ => ?_
    exact (Code.eval_reads call c k h.2).bind fun _ => .index _ _
  | .member t x, h => by
    simp only [Code.eval]
    exact (Code.eval_reads call c t h).bind fun _ => .index _ _
  | .binary left op right, h => by
    simp only [Code.isPure, Bool.and_eq_true] at h
    simp only [Code.eval]
    refine (Code.eval_reads call c left h.1).bind fun _ => ?_
    split
    · exact .pure _
    · exact (Code.eval_reads call c right h.2).bind fun _ => .ofExcept _
  | .unary op operand, h => by
    simp only [Code.eval]
    exact (Code.eval_reads call c operand h).bind fun v => applyUnary_reads op v
  | .paren inner, h => by
    simp only [Code.eval]
    exact Code.eval_reads call c inner h

/-- Calls make no difference to code that only reads: it makes none. -/
theorem Code.eval_caller (call call' : Caller) (c : Chain) :
    (e : Code) → e.isPure → e.eval call c = e.eval call' c
  | .nil, _ => by simp only [Code.eval]
  | .boolean _, _ => by simp only [Code.eval]
  | .number _, _ => by simp only [Code.eval]
  | .string _, _ => by simp only [Code.eval]
  | .name _, _ => by simp only [Code.eval]
  | .index t k, h => by
    simp only [Code.isPure, Bool.and_eq_true] at h
    simp only [Code.eval, Code.eval_caller call call' c t h.1, Code.eval_caller call call' c k h.2]
  | .member t _, h => by simp only [Code.eval, Code.eval_caller call call' c t h]
  | .binary left _ right, h => by
    simp only [Code.isPure, Bool.and_eq_true] at h
    simp only [Code.eval, Code.eval_caller call call' c left h.1,
      Code.eval_caller call call' c right h.2]
  | .unary _ operand, h => by simp only [Code.eval, Code.eval_caller call call' c operand h]
  | .paren inner, h => by simp only [Code.eval, Code.eval_caller call call' c inner h]

/-- Among any scopes and on any machine, evaluating pure code leaves all as it is, the globals, the
scopes, the tables, the closures to come and the depth of calls, whether it yields a value or a fault;
evaluating it again ends in the same way; it calls nothing, so it ends in that way whatever calls would
do; and where code is evaluated twice over, once is enough. -/
theorem Code.eval_of_isPure {e : Code} (h : e.isPure) (call : Caller) (chain : Chain) (m : Machine) :
    (e.eval call chain m).2 = m ∧
      e.eval call chain (e.eval call chain m).2 = e.eval call chain m ∧
      (∀ call' : Caller, e.eval call' chain m = e.eval call chain m) ∧
      ∀ next : Value → Value → EvalM Value,
        (do
          let v ← e.eval call chain
          let w ← e.eval call chain
          next v w) m =
        (do
          let v ← e.eval call chain
          next v v) m := by
  have hreads := Code.eval_reads call chain e h
  refine ⟨hreads m, by rw [hreads m], fun call' => ?_, fun next => ?_⟩
  · rw [Code.eval_caller call' call chain e h]
  · rw [hreads.twice next]

/-- `t[x] or -x`, where `x` is a string at which `t` has nothing, is the same fault each time. -/
theorem Code.eval_of_isPure_fault :
    let e : Code := .binary (.index (.name "t") (.name "x")) .or (.unary .neg (.name "x"))
    let m : Machine :=
      { Machine.initial with
        scopes := #[.ofList [("x", .string "k"), ("t", .table 0)]], tables := #[.empty], depth := 3 }
    e.isPure ∧ e.eval Lua.call [0] m = (.error (.notArithmetic .string), m) ∧
      e.eval Lua.call [0] (e.eval Lua.call [0] m).2 = e.eval Lua.call [0] m ∧
      ∀ call' : Caller, e.eval call' [0] m = e.eval Lua.call [0] m := by
  intro e m
  obtain ⟨-, htwice, hcaller, -⟩ := Code.eval_of_isPure (e := e) (by decide) Lua.call [0] m
  exact ⟨by decide, by rfl, htwice, hcaller⟩

end ScriptToLua.Lua
