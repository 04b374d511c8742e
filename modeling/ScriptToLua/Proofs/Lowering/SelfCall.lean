import Mathlib
import ScriptToLua.Lowering.Access
import ScriptToLua.Proofs.Lowering.WriteRun

/-!
Calls of methods. However the name of a method makes its call look, the call evaluates the receiver,
looks the method up, evaluates the arguments and passes the receiver before them:
`callMember_passesReceiver`.
-/

namespace ScriptToLua.Lowering

open Lua

/-- Calls a method of a value with the value as its first argument. -/
def callOn (call : Caller) (c : Chain) (r : Value) (name : String) (args : List Code) :
    EvalM Value := do
  let f ← EvalM.index r (.string name)
  let vs ← Code.evalAll call c args
  call f (r :: vs)

/-- Calls a method of the receiver. -/
def selfCall (call : Caller) (c : Chain) (receiver : Code) (name : String) (args : List Code) :
    EvalM Value := do
  let r ← receiver.eval call c
  callOn call c r name args

section Direct

variable {receiver : Code} {name : String} {member : Property} {args : List Code}
  (call : Caller) (c : Chain)

theorem invoke_eval (receiver : Code) (name : String) (args : List Code) :
    (Code.invoke receiver name args).eval call c = selfCall call c receiver name args := by
  simp only [Code.eval, selfCall, callOn]

/-- What reads only may be evaluated for the method and once more for the argument. -/
theorem repeated_eval (h : receiver.isPure) (name : String) (args : List Code) :
    (Code.call (.member receiver name) (receiver :: args)).eval call c =
      selfCall call c receiver name args := by
  have hsteady : EvalM.Steady (receiver.eval call c) fun r => EvalM.index r (.string name) :=
    (Code.eval_reads call c receiver h).steady fun r => .index r _
  have htwice := hsteady.bind fun _ f r => do
    let vs ← Code.evalAll call c args
    call f (r :: vs)
  simpa only [Code.eval, Code.evalAll, bind_assoc, pure_bind, selfCall, callOn] using htwice

theorem callMember_direct (hmethod : member.isMethod) (h : isName name ∨ receiver.isPure) :
    (callMember receiver name (some member) args).eval call c =
      selfCall call c receiver name args := by
  have hself : (!(some member).any Property.isMethod) = false := by
    rw [Option.any_some, hmethod, Bool.not_true]
  simp only [callMember, hself, Bool.false_eq_true, if_false]
  split
  · exact invoke_eval call c receiver name args
  · next hname => rw [if_pos (h.resolve_left hname), repeated_eval call c (h.resolve_left hname)]

end Direct

section Held

variable {f : ScopeMap} {s : ScopeMap.Surplus} {n : Nat} {c : Chain} {call call' : Caller}
  {receiver : Code} {args : List Code} {v v' : Value}

/-- The call of a method of the value that the extra scope keeps. -/
theorem heldCall_simulatesIn (hcall : f.Callers call call') (hn : f.Extra n)
    (hc : f.Chains true c (n :: c)) (name : String) (hargs : Code.AllAvoid f.reserved args)
    (hs : (s.scopes n).get? objectTemp = some v') (hv : f.Values v v') :
    f.SimulatesIn s f.Values (callOn call c v name args)
      ((Code.call (.member (.name objectTemp) name) (.name objectTemp :: args)).eval call'
        (n :: c)) := by
  have hkept : f.SimulatesIn s f.Values (pure v) ((Code.name objectTemp).eval call' (n :: c)) :=
    ScopeMap.name_simulatesIn hn hs hv
  have hmethod := hkept.bind fun r r' hr => ScopeMap.Simulates.index hr (.string name) s
  have hvalues : f.SimulatesIn s (List.Forall₂ f.Values)
      (do let r ← pure v; let vs ← Code.evalAll call c args; return r :: vs)
      (Code.evalAll call' (n :: c) (.name objectTemp :: args)) := by
    simp only [Code.evalAll]
    refine hkept.bind fun r r' hr => ?_
    exact (ScopeMap.evalAll_simulates hcall hc args (fun _ => hargs) s).bind fun vs vs' hvs =>
      ScopeMap.Simulates.pure (.cons hr hvs) s
  have hboth := hmethod.bind fun g g' hg => hvalues.bind fun vs vs' hvs => hcall g g' vs vs' hg hvs s
  simpa only [Code.eval, Code.evalAll, callOn, bind_assoc, pure_bind] using hboth

/-- The statements in the function around a call that keeps its receiver. -/
theorem held_ends (hcall : f.Callers call call') (hn : f.Extra n) (hc : f.Chains true c (n :: c))
    (ht : objectTemp ∈ f.reserved) (hr : receiver.Avoids f.reserved) (name : String)
    (hargs : Code.AllAvoid f.reserved args) :
    f.EndsIn s f.Values (selfCall call c receiver name args)
      (runBody call' (n :: c) [.bindLocal objectTemp receiver,
        .yields (.call (.member (.name objectTemp) name) (.name objectTemp :: args))]) := by
  rw [runBody_eq]
  refine ScopeMap.bindLocal_ends hn ht (ScopeMap.eval_simulates hcall hc receiver (fun _ => hr) s)
    fun v v' hv => ?_
  have hheld := heldCall_simulatesIn hcall hn hc name hargs (declare_get? (s := s) objectTemp v') hv
  have hyield : f.EndsIn (s.declare n objectTemp v') f.Values (callOn call c v name args >>= pure)
      (Code.execAll call' (n :: c)
        [.yields (.call (.member (.name objectTemp) name) (.name objectTemp :: args))] >>= finish) :=
    ScopeMap.yields_ends hheld fun w w' hw => (ScopeMap.Simulates.pure hw _).ends
  exact hyield.congr (bind_pure _) rfl

end Held

section Calls

variable {receiver : Code} {name : String} {member : Property} {args : List Code} {c : Chain}
  {room : Nat} {m : Machine}

theorem callMember_held (hmethod : member.isMethod) (h : ¬ (isName name ∨ receiver.isPure)) :
    callMember receiver name (some member) args =
      .immediate [.bindLocal objectTemp receiver,
        .yields (.call (.member (.name objectTemp) name) (.name objectTemp :: args))] := by
  rw [not_or] at h
  have hself : (!(some member).any Property.isMethod) = false := by
    rw [Option.any_some, hmethod, Bool.not_true]
  simp only [callMember, hself, Bool.false_eq_true, if_false, if_neg h.1, if_neg h.2]

/-- The machine from which the parts of a call of a method run: the function around a call that keeps
its receiver takes the number of a closure. -/
def selfStart (receiver : Code) (name : String) (m : Machine) : Machine :=
  if isName name ∨ receiver.isPure then m else Write.start m .value

/-- Whatever the name of a method, its call ends like the evaluation of the receiver, the look-up of the
method, the evaluation of the arguments and the call with the receiver before the arguments, each once
and in this order: with the same value or fault, and with the same variables and tables. Where the call
keeps its receiver in a variable, this holds up to the scope of that variable, and else exactly. -/
theorem callMember_passesReceiver (hmethod : member.isMethod) (hm : m.Sound)
    (hc : ∀ i ∈ c, i < m.scopes.size) (hr : receiver.Avoids [objectTemp])
    (hargs : Code.AllAvoid [objectTemp] args)
    (ho : ((callMember receiver name (some member) args).eval (callAt room) c m).1 ≠
      .error .stackOverflow) :
    let o := (do
      let r ← receiver.eval (callAt room) c
      let f ← EvalM.index r (.string name)
      let vs ← Code.evalAll (callAt room) c args
      callAt room f (r :: vs) : EvalM Value) (selfStart receiver name m)
    let o' := (callMember receiver name (some member) args).eval (callAt room) c m
    (isName name ∨ receiver.isPure → o' = o) ∧
    ∃ (f : ScopeMap) (s : ScopeMap.Surplus),
      (∀ i < m.scopes.size, f.image i = i) ∧ s.calls = 0 ∧ f.Machines s o.2 o'.2 ∧
      ScopeMap.Results f.Values o.1 o'.1 := by
  intro o o'
  by_cases h : isName name ∨ receiver.isPure
  · have hstart : selfStart receiver name m = m := if_pos h
    have heq : o' = o := by
      change (callMember receiver name (some member) args).eval (callAt room) c m =
        selfCall (callAt room) c receiver name args (selfStart receiver name m)
      rw [callMember_direct _ _ hmethod h, hstart]
    refine ⟨fun _ => heq, .same [], ⟨fun _ => .empty, o.2.depth, 0⟩, fun _ _ => rfl, rfl, ?_, ?_⟩
    · rw [heq]
      exact ScopeMap.same_machines _
    · rw [heq]
      cases o.1 with
      | ok v => exact .ok (ScopeMap.same_values v)
      | error e => exact .error e
  · refine ⟨fun hdirect => absurd hdirect h, ?_⟩
    have hn : (ScopeMap.gap m.scopes.size [objectTemp]).Extra m.scopes.size :=
      ScopeMap.gap_extra_iff.2 rfl
    have hcs := ScopeMap.Chains.extra hn (ScopeMap.gap_chains hc).loosen
    have hstart : selfStart receiver name m = Write.start m .value := if_neg h
    have hself : o = selfCall (callAt room) c receiver name args (Write.start m .value) := by
      change selfCall (callAt room) c receiver name args (selfStart receiver name m) = _
      rw [hstart]
    have hheld : o' = (Code.immediate [.bindLocal objectTemp receiver,
        .yields (.call (.member (.name objectTemp) name) (.name objectTemp :: args))]).eval
          (callAt room) c m := by
      change (callMember receiver name (some member) args).eval (callAt room) c m = _
      rw [callMember_held hmethod h]
    rw [callMember_held hmethod h] at ho
    obtain ⟨s, hcalls, hms, hresult⟩ := Write.immediate_ends hm (fun room' hroom =>
      held_ends (ScopeMap.callAt_simulates hroom) hn hcs List.mem_cons_self hr name hargs) ho
    rw [hself, hheld]
    exact ⟨_, s, fun i hi => ScopeMap.gap_image_of_lt hi, hcalls, hms, hresult⟩

/-- The variable `a` is a table with a word and a method that returns it. -/
def speaker : Machine :=
  { Machine.initial with
    globals := .ofList [("a", .table 0)]
    tables := #[.ofList [(.string "word", .string "hi"),
      (.string "say-it", .function ⟨0, ["self"], [.yields (.member (.name "self") "word")], []⟩)]]
    nextClosure := 1 }

theorem speaker_sound : speaker.Sound where
  globals e he := by
    obtain rfl : e = ("a", .table 0) := List.mem_singleton.1 he
    trivial
  scopes i e he := by
    have hs : speaker.scope i = .empty := rfl
    rw [hs] at he
    cases he
  tables id e he := by
    cases id with
    | zero =>
      rcases List.mem_pair.1 he with rfl | rfl
      · trivial
      · exact nofun
    | succ id =>
      have ht : speaker.table (id + 1) = .empty := rfl
      rw [ht] at he
      cases he

/-- `f()["say-it"]()`, where `f` is a function that returns `a`. -/
theorem callMember_passesReceiver_of_call :
    let receiver := Code.immediate [.yields (.name "a")]
    let o := selfCall (callAt maxCallDepth) [] receiver "say-it" []
      (selfStart receiver "say-it" speaker)
    let o' := (callMember receiver "say-it" (some ⟨"say-it", .any, false, true⟩) []).eval
      (callAt maxCallDepth) [] speaker
    o'.1 = .ok (.string "hi") ∧ ∃ (f : ScopeMap) (s : ScopeMap.Surplus),
      s.calls = 0 ∧ f.Machines s o.2 o'.2 ∧ ScopeMap.Results f.Values o.1 o'.1 := by
  intro receiver o o'
  have hheld : ¬ (isName "say-it" ∨ receiver.isPure) := by decide
  have hrun : o'.1 = .ok (.string "hi") := by
    change ((callMember receiver "say-it" (some ⟨"say-it", .any, false, true⟩) []).eval
      (callAt maxCallDepth) [] speaker).1 = _
    rw [callMember_held rfl hheld]
    cbv
  have ho : o'.1 ≠ .error .stackOverflow := fun h => by cases hrun.symm.trans h
  have hc : ∀ i ∈ ([] : Chain), i < speaker.scopes.size := List.forall_mem_nil _
  have hr : receiver.Avoids [objectTemp] := by
    refine ⟨⟨⟨?_, trivial⟩, trivial⟩, trivial⟩
    exact (by decide : "a" ∉ [objectTemp])
  have hargs : Code.AllAvoid [objectTemp] [] := trivial
  obtain ⟨-, f, s, -, hcalls, hms, hresult⟩ :=
    callMember_passesReceiver rfl speaker_sound hc hr hargs ho
  exact ⟨hrun, f, s, hcalls, hms, hresult⟩

end Calls

end ScriptToLua.Lowering
