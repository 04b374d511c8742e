import Mathlib
import ScriptToLua.Proofs.Lua.Computation

/-!
How deep calls are nested. Running code ends at the depth it started from, and the room that a call
is given makes no difference as long as it covers the depth that is left: `call_function` and
`runChunk_run` are equations of running code that mention no room.
-/

namespace ScriptToLua.Lua

namespace Machine

@[simp]
theorem declare_depth (m : Machine) (c : Chain) (x : String) (v : Value) :
    (m.declare c x v).depth = m.depth := by
  cases c <;> rfl

@[simp]
theorem assign_depth (m : Machine) (c : Chain) (x : String) (v : Value) :
    (m.assign c x v).depth = m.depth := by
  unfold assign
  split
  · exact declare_depth ..
  · exact declare_depth ..

@[simp]
theorem declareAll_depth (m : Machine) (c : Chain) (xs : List String) (vs : List Value) :
    (m.declareAll c xs vs).depth = m.depth := by
  induction xs generalizing m vs with
  | nil => rfl
  | cons x xs ih => cases vs <;> simp only [declareAll, ih, declare_depth]

end Machine

variable {α β : Type} {d : Nat}

/-- At call depth `d` the two computations do the same, and they end at that depth. -/
def EvalM.SameAt (d : Nat) (act act' : EvalM α) : Prop :=
  ∀ m, m.depth = d → act m = act' m ∧ (act m).2.depth = d

namespace EvalM.SameAt

theorem pure (a : α) : SameAt d (Pure.pure a) (Pure.pure a) := fun _ hm => ⟨rfl, hm⟩

theorem fault (e : Fault) : SameAt d (throw e : EvalM α) (throw e) := fun _ hm => ⟨rfl, hm⟩

theorem bind {act act' : EvalM α} {next next' : α → EvalM β} (h : SameAt d act act')
    (hn : ∀ a, SameAt d (next a) (next' a)) : SameAt d (act >>= next) (act' >>= next') := by
  intro m hm
  obtain ⟨he, hd⟩ := h m hm
  rw [bind_run, bind_run, ← he]
  generalize act m = o at hd
  obtain ⟨_ | a, m'⟩ := o
  · exact ⟨rfl, hd⟩
  · exact hn a m' hd

theorem ofExcept (r : Except Fault α) : SameAt d (EvalM.ofExcept r) (EvalM.ofExcept r) := by
  intro m hm
  rw [ofExcept_run]
  exact ⟨rfl, hm⟩

theorem modify {f : Machine → Machine} (h : ∀ m, (f m).depth = m.depth) :
    SameAt d (modify f) (modify f) :=
  fun m hm => ⟨rfl, (h m).trans hm⟩

theorem get : SameAt d (get : EvalM Machine) get := fun _ hm => ⟨rfl, hm⟩

theorem index (t k : Value) : SameAt d (EvalM.index t k) (EvalM.index t k) := by
  intro m hm
  rw [index_run]
  exact ⟨rfl, hm⟩

theorem setEntry (id : TableId) (k v : Value) :
    SameAt d (EvalM.setEntry id k v) (EvalM.setEntry id k v) := by
  intro m hm
  refine ⟨rfl, ?_⟩
  rw [setEntry_run]
  split
  · exact hm
  · exact hm

theorem newTable : SameAt d EvalM.newTable EvalM.newTable := fun _ hm => ⟨rfl, hm⟩

theorem newClosure (parameters : List String) (body : List Code) (c : Chain) :
    SameAt d (EvalM.newClosure parameters body c) (EvalM.newClosure parameters body c) :=
  fun _ hm => ⟨rfl, hm⟩

theorem openScope (c : Chain) : SameAt d (EvalM.openScope c) (EvalM.openScope c) :=
  fun _ hm => ⟨rfl, hm⟩

theorem declare (c : Chain) (x : String) (v : Value) :
    SameAt d (EvalM.declare c x v) (EvalM.declare c x v) :=
  modify fun m => m.declare_depth c x v

theorem applyUnary (op : UnaryOp) (v : Value) :
    SameAt d (Lua.applyUnary op v) (Lua.applyUnary op v) := by
  cases op with
  | not => exact pure _
  | neg => cases v <;> first | exact pure _ | exact fault _
  | len =>
    cases v with
    | table id => exact get.bind fun m => pure _
    | string s => exact pure _
    | _ => exact fault _

theorem store (c : Chain) (l : Location) (v : Value) :
    SameAt d (Lua.store c l v) (Lua.store c l v) := by
  cases l with
  | «variable» x => exact modify fun m => m.assign_depth c x v
  | entry t k =>
    cases t with
    | table id => exact setEntry id k v
    | _ => exact fault _

theorem storeAll (c : Chain) (ls : List Location) (vs : List Value) :
    SameAt d (Lua.storeAll c ls vs) (Lua.storeAll c ls vs) := by
  induction ls generalizing vs with
  | nil => exact pure ()
  | cons l ls ih =>
    cases vs with
    | nil => exact (store c l .nil).bind fun _ => ih []
    | cons v vs => exact (store c l v).bind fun _ => ih vs

end EvalM.SameAt

/-- At call depth `d` the two callers do the same, and every call ends at that depth. -/
def Caller.SameAt (d : Nat) (call call' : Caller) : Prop :=
  ∀ f args, EvalM.SameAt d (call f args) (call' f args)

section Code

variable {call call' : Caller}

open EvalM

mutual

theorem eval_sameAt (hcall : call.SameAt d call') (c : Chain) :
    (e : Code) → SameAt d (e.eval call c) (e.eval call' c)
  | .nil | .boolean _ | .string _ => by
    simp only [Code.eval]
    exact .pure _
  | .number text => by
    simp only [Code.eval]
    cases floatOf? text with
    | some x => exact .pure _
    | none => exact .fault _
  | .name x => by
    simp only [Code.eval]
    exact SameAt.get.bind fun m => .pure _
  | .index table key => by
    simp only [Code.eval]
    refine (eval_sameAt hcall c table).bind fun t => ?_
    exact (eval_sameAt hcall c key).bind fun k => .index t k
  | .member table x => by
    simp only [Code.eval]
    exact (eval_sameAt hcall c table).bind fun t => .index t _
  | .call callee arguments => by
    simp only [Code.eval]
    refine (eval_sameAt hcall c callee).bind fun f => ?_
    exact (evalAll_sameAt hcall c arguments).bind fun args => hcall f args
  | .invoke receiver method arguments => by
    simp only [Code.eval]
    refine (eval_sameAt hcall c receiver).bind fun r => ?_
    refine (SameAt.index r (.string method)).bind fun f => ?_
    exact (evalAll_sameAt hcall c arguments).bind fun args => hcall f (r :: args)
  | .binary left op right => by
    simp only [Code.eval]
    refine (eval_sameAt hcall c left).bind fun a => ?_
    split
    · exact .pure a
    · exact (eval_sameAt hcall c right).bind fun b => .ofExcept (op.apply a b)
  | .unary op operand => by
    simp only [Code.eval]
    exact (eval_sameAt hcall c operand).bind fun v => .applyUnary op v
  | .table fields => by
    simp only [Code.eval]
    refine SameAt.newTable.bind fun id => ?_
    exact (fillAll_sameAt hcall c id 1 fields).bind fun _ => .pure _
  | .function parameters body => by
    simp only [Code.eval]
    exact .newClosure parameters body c
  | .paren inner => by
    simp only [Code.eval]
    exact eval_sameAt hcall c inner
  | .locals _ _ | .localFunction _ _ _ | .assign _ _ | .perform _ | .returns _ | .block _ => by
    simp only [Code.eval]
    exact .fault _

theorem evalAll_sameAt (hcall : call.SameAt d call') (c : Chain) :
    (es : List Code) → SameAt d (Code.evalAll call c es) (Code.evalAll call' c es)
  | [] => by
    simp only [Code.evalAll]
    exact .pure _
  | e :: rest => by
    simp only [Code.evalAll]
    refine (eval_sameAt hcall c e).bind fun v => ?_
    exact (evalAll_sameAt hcall c rest).bind fun vs => .pure _

theorem fillAll_sameAt (hcall : call.SameAt d call') (c : Chain) (id : TableId) (slot : Nat) :
    (fs : List Field) →
      SameAt d (Field.fillAll call c id slot fs) (Field.fillAll call' c id slot fs)
  | [] => by
    simp only [Field.fillAll]
    exact .pure _
  | .item value :: rest => by
    simp only [Field.fillAll]
    refine (eval_sameAt hcall c value).bind fun v => ?_
    exact (SameAt.setEntry id _ v).bind fun _ => fillAll_sameAt hcall c id (slot + 1) rest
  | .named x value :: rest => by
    simp only [Field.fillAll]
    refine (eval_sameAt hcall c value).bind fun v => ?_
    exact (SameAt.setEntry id _ v).bind fun _ => fillAll_sameAt hcall c id slot rest
  | .keyed key value :: rest => by
    simp only [Field.fillAll]
    refine (eval_sameAt hcall c key).bind fun k => ?_
    refine (eval_sameAt hcall c value).bind fun v => ?_
    exact (SameAt.setEntry id k v).bind fun _ => fillAll_sameAt hcall c id slot rest

end

theorem locate_sameAt (hcall : call.SameAt d call') (c : Chain) (e : Code) :
    SameAt d (e.locate call c) (e.locate call' c) := by
  cases e with
  | name x =>
    simp only [Code.locate]
    exact .pure _
  | index table key =>
    simp only [Code.locate]
    refine (eval_sameAt hcall c table).bind fun t => ?_
    exact (eval_sameAt hcall c key).bind fun k => .pure _
  | member table x =>
    simp only [Code.locate]
    exact (eval_sameAt hcall c table).bind fun t => .pure _
  | _ =>
    simp only [Code.locate]
    exact .fault _

theorem locateAll_sameAt (hcall : call.SameAt d call') (c : Chain) (es : List Code) :
    SameAt d (Code.locateAll call c es) (Code.locateAll call' c es) := by
  induction es with
  | nil =>
    simp only [Code.locateAll]
    exact .pure _
  | cons e rest ih =>
    simp only [Code.locateAll]
    refine (locate_sameAt hcall c e).bind fun l => ?_
    exact ih.bind fun ls => .pure _

mutual

theorem exec_sameAt (hcall : call.SameAt d call') (c : Chain) :
    (s : Code) → SameAt d (s.exec call c) (s.exec call' c)
  | .locals names values => by
    simp only [Code.exec]
    refine (evalAll_sameAt hcall c values).bind fun vs => ?_
    exact (SameAt.modify fun m => m.declareAll_depth c names vs).bind fun _ => .pure _
  | .localFunction x parameters body => by
    simp only [Code.exec]
    refine (SameAt.declare c x .nil).bind fun _ => ?_
    refine (SameAt.newClosure parameters body c).bind fun f => ?_
    exact (SameAt.declare c x f).bind fun _ => .pure _
  | .assign targets values => by
    simp only [Code.exec]
    refine (locateAll_sameAt hcall c targets).bind fun ls => ?_
    refine (evalAll_sameAt hcall c values).bind fun vs => ?_
    exact (SameAt.storeAll c ls vs).bind fun _ => .pure _
  | .perform expression => by
    simp only [Code.exec]
    exact (eval_sameAt hcall c expression).bind fun _ => .pure _
  | .returns [] => by
    simp only [Code.exec]
    exact .pure _
  | .returns (value :: _) => by
    simp only [Code.exec]
    exact (eval_sameAt hcall c value).bind fun v => .pure _
  | .block body => by
    simp only [Code.exec]
    exact (SameAt.openScope c).bind fun inner => execAll_sameAt hcall inner body
  | .nil | .boolean _ | .number _ | .string _ | .name _ | .index _ _ | .member _ _ | .call _ _
  | .invoke _ _ _ | .binary _ _ _ | .unary _ _ | .table _ | .function _ _ | .paren _ => by
    simp only [Code.exec]
    exact .fault _

theorem execAll_sameAt (hcall : call.SameAt d call') (c : Chain) :
    (body : List Code) → SameAt d (Code.execAll call c body) (Code.execAll call' c body)
  | [] => by
    simp only [Code.execAll]
    exact .pure _
  | s :: rest => by
    simp only [Code.execAll]
    refine (exec_sameAt hcall c s).bind fun flow => ?_
    cases flow with
    | next => exact execAll_sameAt hcall c rest
    | returned v => exact .pure _

end

theorem runBody_sameAt (hcall : call.SameAt d call') (c : Chain) (body : List Code) :
    SameAt d (runBody call c body) (runBody call' c body) := by
  refine (execAll_sameAt hcall c body).bind fun flow => ?_
  cases flow with
  | next => exact .pure _
  | returned v => exact .pure _

end Code

/-- What a call of a closure does when its body calls through `inner`. -/
def enterWith (inner : Caller) (f : Closure) (args : List Value) : EvalM Value := do
  if maxCallDepth ≤ (← get).depth then throw .stackOverflow
  let chain ← EvalM.openScope f.chain
  modify fun m => m.declareAll chain f.parameters args
  EvalM.nested (runBody inner chain f.body)

theorem callAt_succ (room : Nat) (f : Closure) (args : List Value) :
    callAt (room + 1) (.function f) args = enterWith (callAt room) f args := rfl

/-- At the limit nothing is entered. -/
theorem enterWith_overflow (inner : Caller) (f : Closure) (args : List Value) {m : Machine}
    (h : maxCallDepth ≤ m.depth) : enterWith inner f args m = (.error .stackOverflow, m) := by
  simp only [enterWith, EvalM.bind_run, EvalM.get_run, if_pos h, EvalM.throw_run]

/-- The machine in which the body of a closure starts. -/
def Closure.enter (f : Closure) (args : List Value) (m : Machine) : Machine :=
  let m' := { m with scopes := m.scopes.push .empty }.declareAll (m.scopes.size :: f.chain)
    f.parameters args
  { m' with depth := m'.depth + 1 }

@[simp]
theorem Closure.enter_depth (f : Closure) (args : List Value) (m : Machine) :
    (f.enter args m).depth = m.depth + 1 :=
  congrArg (· + 1) (Machine.declareAll_depth ..)

/-- The machine after the body of a closure. -/
def Machine.leave (m : Machine) : Machine := { m with depth := m.depth - 1 }

/-- Below the limit the body runs one call deeper. -/
theorem enterWith_run (inner : Caller) (f : Closure) (args : List Value) {m : Machine}
    (h : m.depth < maxCallDepth) :
    enterWith inner f args m =
      let o := runBody inner (m.scopes.size :: f.chain) f.body (f.enter args m)
      (o.1, o.2.leave) := by
  simp only [enterWith, EvalM.bind_run, EvalM.get_run, if_neg (Nat.not_le.2 h)]
  rfl

/-- Bodies are entered only one call deeper, so only there do their calls matter. -/
theorem enterWith_sameAt {inner inner' : Caller}
    (h : d < maxCallDepth → inner.SameAt (d + 1) inner') (f : Closure) (args : List Value) :
    EvalM.SameAt d (enterWith inner f args) (enterWith inner' f args) := by
  intro m hm
  rcases Nat.lt_or_ge m.depth maxCallDepth with hlt | hge
  · rw [enterWith_run inner f args hlt, enterWith_run inner' f args hlt]
    obtain ⟨he, hd⟩ := runBody_sameAt (h (hm ▸ hlt)) (m.scopes.size :: f.chain) f.body
      (f.enter args m) ((f.enter_depth args m).trans (congrArg (· + 1) hm))
    exact ⟨by rw [he], congrArg (· - 1) hd⟩
  · rw [enterWith_overflow inner f args hge, enterWith_overflow inner' f args hge]
    exact ⟨rfl, hm⟩

theorem callAt_builtin (room : Nat) (b : Builtin) (args : List Value) :
    callAt room (.builtin b) args = pure (b.apply args) := by
  cases room <;> rfl

/-- What is no closure needs no room. -/
theorem callAt_plain_sameAt {v : Value} (hv : ∀ f, v ≠ .function f) (room room' : Nat)
    (args : List Value) : EvalM.SameAt d (callAt room v args) (callAt room' v args) := by
  cases v with
  | function f => exact absurd rfl (hv f)
  | builtin b =>
    rw [callAt_builtin, callAt_builtin]
    exact .pure _
  | _ => cases room <;> cases room' <;> exact .fault _

/-- Room beyond the depth that is left makes no difference. -/
theorem callAt_sameAt {n room : Nat} (hn : maxCallDepth ≤ d + n) (hroom : n ≤ room) :
    Caller.SameAt d (callAt room) (callAt n) := by
  induction n generalizing d room with
  | zero =>
    intro v args
    cases v with
    | function f =>
      cases room with
      | zero => exact .fault _
      | succ room =>
        intro m hm
        rw [callAt_succ, enterWith_overflow _ f args (by omega)]
        exact ⟨rfl, hm⟩
    | _ => exact callAt_plain_sameAt (fun _ h => by cases h) _ _ args
  | succ n ih =>
    intro v args
    cases v with
    | function f =>
      obtain ⟨room, rfl⟩ : ∃ r, room = r + 1 := ⟨room - 1, by omega⟩
      rw [callAt_succ, callAt_succ]
      exact enterWith_sameAt (fun _ => ih (by omega) (by omega)) f args
    | _ => exact callAt_plain_sameAt (fun _ h => by cases h) _ _ args

/-- A call from outside is one with any room that covers the depth that is left. -/
theorem callAt_sameAt_call {room : Nat} (h : maxCallDepth ≤ d + room) :
    Caller.SameAt d (callAt room) call := by
  intro v args m hm
  have hleft : maxCallDepth - d ≤ room := by omega
  obtain ⟨he, hd⟩ := callAt_sameAt (d := d) (by omega) hleft v args m hm
  subst hm
  exact ⟨he, hd⟩

theorem call_sameAt (d : Nat) : Caller.SameAt d call call := by
  intro v args m hm
  have hcall : Caller.SameAt d (callAt maxCallDepth) call := callAt_sameAt_call (Nat.le_add_left _ _)
  obtain ⟨he, hd⟩ := hcall v args m hm
  exact ⟨rfl, he ▸ hd⟩

/-- A closure is called by running its body, whose calls are calls of the same kind. -/
theorem call_function (f : Closure) (args : List Value) :
    call (.function f) args = enterWith call f args := by
  funext m
  rcases Nat.lt_or_ge m.depth maxCallDepth with hlt | hge
  · obtain ⟨n, hn⟩ : ∃ n, maxCallDepth - m.depth = n + 1 :=
      ⟨maxCallDepth - m.depth - 1, by omega⟩
    have hroom : call (.function f) args m = enterWith (callAt n) f args m := by
      rw [← callAt_succ, ← hn]
      rfl
    rw [hroom]
    exact (enterWith_sameAt (fun _ => callAt_sameAt_call (by omega)) f args m rfl).1
  · have hroom : maxCallDepth - m.depth = 0 := by omega
    rw [enterWith_overflow call f args hge]
    simp only [call, EvalM.bind_run, EvalM.get_run, hroom, callAt, EvalM.throw_run]

theorem call_builtin (b : Builtin) (args : List Value) :
    call (.builtin b) args = pure (b.apply args) := by
  funext m
  simp only [call, EvalM.bind_run, EvalM.get_run, callAt_builtin]

/-- Nothing but functions can be called. -/
theorem call_notCallable {v : Value} (h : v.kind ≠ .function) (args : List Value) :
    call v args = throw (.notCallable v.kind) := by
  funext m
  simp only [call, EvalM.bind_run, EvalM.get_run]
  cases v with
  | function f => exact absurd rfl h
  | builtin b => exact absurd rfl h
  | _ => cases maxCallDepth - m.depth <;> rfl

/-- A chunk runs in a scope of its own, at the depth at hand. -/
theorem runChunk_run (chunk : List Code) (m : Machine) :
    runChunk chunk m = runBody call [m.scopes.size] chunk
      { m with scopes := m.scopes.push .empty } := by
  have hcall : Caller.SameAt m.depth (callAt (maxCallDepth - m.depth)) call :=
    callAt_sameAt_call (by omega)
  exact (runBody_sameAt hcall [m.scopes.size] chunk
    { m with scopes := m.scopes.push .empty } rfl).1

section Depth

variable (m : Machine)

/-- However a call ends, it ends at the depth it started from. -/
@[simp]
theorem call_depth (f : Value) (args : List Value) : (call f args m).2.depth = m.depth :=
  (call_sameAt m.depth f args m rfl).2

@[simp]
theorem runChunk_depth (chunk : List Code) : (runChunk chunk m).2.depth = m.depth := by
  rw [runChunk_run]
  exact (runBody_sameAt (call_sameAt m.depth) [m.scopes.size] chunk
    { m with scopes := m.scopes.push .empty } rfl).2

@[simp]
theorem eval_depth (c : Chain) (e : Code) : (e.eval call c m).2.depth = m.depth :=
  (eval_sameAt (call_sameAt m.depth) c e m rfl).2

@[simp]
theorem exec_depth (c : Chain) (s : Code) : (s.exec call c m).2.depth = m.depth :=
  (exec_sameAt (call_sameAt m.depth) c s m rfl).2

end Depth

end ScriptToLua.Lua
