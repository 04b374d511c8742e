import Mathlib
import ScriptToLua.Proofs.Lua.Scoping

/-!
Running code on machines that differ by extra scopes. Code that avoids the reserved names does the
same on both, unless the machine with more scopes runs out of calls first: `eval_simulates`
for expressions, `callAt_simulates` for calls.
-/

namespace ScriptToLua.Lua.ScopeMap

variable {f : ScopeMap} {α α' β β' : Type} {V : α → α' → Prop} {W : β → β' → Prop}

/-- Two computations end with the same fault or with related results. -/
inductive Results (V : α → α' → Prop) : Except Fault α → Except Fault α' → Prop where
  | ok {a : α} {a' : α'} (h : V a a') : Results V (.ok a) (.ok a')
  | error (e : Fault) : Results V (.error e) (.error e)

/-- Where related values look the same and everything but a function is related to itself, an operator
takes related operands to related results. -/
theorem Results.apply {V : Value → Value → Prop} (halike : ∀ {v v'}, V v v' → v.Alike v')
    (hplain : ∀ v, (∀ g, v ≠ .function g) → V v v) (op : BinaryOp) {a a' b b' : Value}
    (ha : V a a') (hb : V b b') : Results V (op.apply a b) (op.apply a' b') := by
  have hmade (ho : op ≠ .or) (ho' : op ≠ .and) : Results V (op.apply a b) (op.apply a' b') := by
    rw [(halike ha).apply ho ho' (halike hb)]
    cases h : op.apply a' b' with
    | error e => exact .error e
    | ok v => exact .ok (hplain v (BinaryOp.apply_ne_function ho ho' h))
  cases op with
  | or | and =>
    simp only [BinaryOp.apply, (halike ha).isTruthy]
    split
    · exact .ok (by assumption)
    · exact .ok (by assumption)
  | _ => exact hmade (fun h => by cases h) fun h => by cases h

/-- Either the second computation had too few calls, or the two end alike. -/
def Outcomes (f : ScopeMap) (s : Surplus) (V : α → α' → Prop)
    (o : Except Fault α × Machine) (o' : Except Fault α' × Machine) : Prop :=
  o'.1 = .error .stackOverflow ∨ (f.Machines s o.2 o'.2 ∧ Results V o.1 o'.1)

/-- From machines with the given surplus the computations end alike and with the same surplus. -/
def SimulatesIn (f : ScopeMap) (s : Surplus) (V : α → α' → Prop) (act : EvalM α)
    (act' : EvalM α') : Prop :=
  ∀ m m', f.Machines s m m' → f.Outcomes s V (act m) (act' m')

/-- From related machines the computations end alike. -/
def Simulates (f : ScopeMap) (V : α → α' → Prop) (act : EvalM α) (act' : EvalM α') : Prop :=
  ∀ s, f.SimulatesIn s V act act'

theorem Simulates.pure {a : α} {a' : α'} (h : V a a') :
    f.Simulates V (Pure.pure a) (Pure.pure a') :=
  fun _ _ _ hm => .inr ⟨hm, .ok h⟩

theorem Simulates.fault (e : Fault) :
    f.Simulates V (throw e : EvalM α) (throw e : EvalM α') :=
  fun _ _ _ hm => .inr ⟨hm, .error e⟩

theorem Simulates.overflow (act : EvalM α) :
    f.Simulates V act (throw .stackOverflow : EvalM α') :=
  fun _ _ _ _ => .inl rfl

theorem SimulatesIn.bind {s : Surplus} {act : EvalM α} {act' : EvalM α'} {next : α → EvalM β}
    {next' : α' → EvalM β'} (h : f.SimulatesIn s V act act')
    (hn : ∀ a a', V a a' → f.SimulatesIn s W (next a) (next' a')) :
    f.SimulatesIn s W (act >>= next) (act' >>= next') := by
  intro m m' hm
  have ho := h m m' hm
  rw [EvalM.bind_run, EvalM.bind_run]
  generalize act m = o at ho ⊢
  generalize act' m' = o' at ho ⊢
  obtain ⟨r, n⟩ := o
  obtain ⟨r', n'⟩ := o'
  rcases ho with rfl | ⟨hm, hr⟩
  · exact .inl rfl
  · cases hr with
    | ok ha => exact hn _ _ ha _ _ hm
    | error e => exact .inr ⟨hm, .error e⟩

theorem Simulates.bind {act : EvalM α} {act' : EvalM α'} {next : α → EvalM β}
    {next' : α' → EvalM β'} (h : f.Simulates V act act')
    (hn : ∀ a a', V a a' → f.Simulates W (next a) (next' a')) :
    f.Simulates W (act >>= next) (act' >>= next') :=
  fun s => (h s).bind fun a a' ha => hn a a' ha s

theorem Simulates.ofExcept {r : Except Fault α} {r' : Except Fault α'} (h : Results V r r') :
    f.Simulates V (EvalM.ofExcept r) (EvalM.ofExcept r') := by
  intro s m m' hm
  rw [EvalM.ofExcept_run, EvalM.ofExcept_run]
  exact .inr ⟨hm, h⟩

/-- A step that only changes the machine. -/
theorem Simulates.modify {g g' : Machine → Machine}
    (h : ∀ s m m', f.Machines s m m' → f.Machines s (g m) (g' m')) :
    f.Simulates (fun _ _ => True) (modify g) (modify g') :=
  fun _ _ _ hm => .inr ⟨h _ _ _ hm, .ok trivial⟩

theorem Simulates.index {t t' k k' : Value} (ht : f.Values t t') (hk : f.Values k k') :
    f.Simulates f.Values (EvalM.index t k) (EvalM.index t' k') := by
  intro s m m' hm
  rw [EvalM.index_run, EvalM.index_run]
  refine .inr ⟨hm, ?_⟩
  cases ht with
  | plain t _ =>
    cases t with
    | table id =>
      refine .ok ?_
      simp only [Table.get, Table.read, hk.alike.key]
      split
      · exact (hm.tables id).getD _
      · exact .nil
    | _ => exact .error _
  | closure => exact .error _

theorem Simulates.setEntry (id : TableId) {k k' v v' : Value} (hk : f.Values k k')
    (hv : f.Values v v') :
    f.Simulates (fun _ _ => True) (EvalM.setEntry id k v) (EvalM.setEntry id k' v') := by
  intro s m m' hm
  rw [EvalM.setEntry_run, EvalM.setEntry_run]
  simp only [Table.set, hk.alike.key]
  cases Key.ofValue k' with
  | error e => exact .inr ⟨hm, .error e⟩
  | ok k =>
    refine .inr ⟨hm.setTable id ?_, .ok trivial⟩
    simp only [Table.write, hv.alike.isNil]
    split
    · exact (hm.tables id).erase k
    · exact (hm.tables id).insert k hv

theorem Simulates.newTable :
    f.Simulates (fun id id' => id = id') EvalM.newTable EvalM.newTable :=
  fun _ _ _ hm => .inr ⟨hm.newTable, .ok hm.tables_size⟩

/-- A new scope extends both chains. -/
theorem Simulates.openScope (c c' : Chain) :
    f.Simulates (fun d d' => ∃ i, d = i :: c ∧ d' = f.image i :: c')
      (EvalM.openScope c) (EvalM.openScope c') := by
  intro s m m' hm
  refine .inr ⟨hm.openScope, .ok ⟨m.scopes.size, rfl, ?_⟩⟩
  exact congrArg (· :: c') (hm.fresh 0).symm

theorem Simulates.newClosure {loose : Bool} {c c' : Chain} (hc : f.Chains loose c c')
    {parameters : List String} {body : List Code}
    (hb : loose = true → Code.AllAvoid f.reserved body) :
    f.Simulates f.Values (EvalM.newClosure parameters body c)
      (EvalM.newClosure parameters body c') := by
  intro s m m' hm
  refine .inr ⟨{ hm with nextClosure := congrArg (· + 1) hm.nextClosure }, .ok ?_⟩
  rw [← hm.nextClosure]
  exact .closure hc hb

theorem Simulates.declare (i : Nat) {c c' : Chain} {x : String} {v v' : Value}
    (hv : f.Values v v') :
    f.Simulates (fun _ _ => True) (EvalM.declare (i :: c) x v)
      (EvalM.declare (f.image i :: c') x v') :=
  .modify fun _ _ _ hm => hm.modifyScope i hv

theorem Simulates.nested {act : EvalM α} {act' : EvalM α'} (h : f.Simulates V act act') :
    f.Simulates V (EvalM.nested act) (EvalM.nested act') := by
  intro s m m' hm
  rw [EvalM.nested_run, EvalM.nested_run]
  have hd : f.Machines { s with depth := s.depth + 1 } { m with depth := m.depth + 1 }
      { m' with depth := m'.depth + 1 } :=
    { hm with
      depth := congrArg (· + 1) hm.depth
      depth_add := by
        change m'.depth + 1 = s.depth + 1 + s.calls
        rw [hm.depth_add]
        omega }
  rcases h _ _ _ hd with h | ⟨hm', hr⟩
  · exact .inl h
  · refine .inr ⟨{ hm' with depth := ?_, depth_add := ?_ }, hr⟩
    · exact congrArg (· - 1) hm'.depth
    · change _ - 1 = _
      rw [hm'.depth_add]
      change s.depth + 1 + s.calls - 1 = _
      omega

/-- What `call` and `call'` do with related functions and arguments. -/
def Callers (f : ScopeMap) (call call' : Caller) : Prop :=
  ∀ v v' args args', f.Values v v' → List.Forall₂ f.Values args args' →
    f.Simulates f.Values (call v args) (call' v' args')

/-- Related locations. -/
inductive Locations (f : ScopeMap) (loose : Bool) : Location → Location → Prop where
  | named (x : String) (hx : loose = true → x ∉ f.reserved) :
    Locations f loose (.variable x) (.variable x)
  | entry {t t' k k' : Value} (ht : f.Values t t') (hk : f.Values k k') :
    Locations f loose (.entry t k) (.entry t' k')

/-- Related ends of statements. -/
inductive Flows (f : ScopeMap) : Flow → Flow → Prop where
  | next : Flows f .next .next
  | returned {v v' : Value} (h : f.Values v v') : Flows f (.returned v) (.returned v')

theorem store_simulates {loose : Bool} {c c' : Chain} (hc : f.Chains loose c c')
    {l l' : Location} (hl : f.Locations loose l l') {v v' : Value} (hv : f.Values v v') :
    f.Simulates (fun _ _ => True) (store c l v) (store c' l' v') := by
  cases hl with
  | named x hx => exact .modify fun _ _ _ hm => hm.assign hc hx hv
  | @entry t _ _ _ ht hk =>
    cases ht with
    | plain t _ =>
      cases t with
      | table id => exact .setEntry id hk hv
      | _ => exact .fault _
    | closure => exact .fault _

theorem storeAll_simulates {loose : Bool} {c c' : Chain} (hc : f.Chains loose c c')
    {ls ls' : List Location} (hl : List.Forall₂ (f.Locations loose) ls ls')
    {vs vs' : List Value} (hv : List.Forall₂ f.Values vs vs') :
    f.Simulates (fun _ _ => True) (storeAll c ls vs) (storeAll c' ls' vs') := by
  induction hl generalizing vs vs' with
  | nil => exact .pure trivial
  | cons hl _ ih =>
    cases hv with
    | nil => exact (store_simulates hc hl .nil).bind fun _ _ _ => ih .nil
    | cons hv hvs => exact (store_simulates hc hl hv).bind fun _ _ _ => ih hvs

theorem applyUnary_simulates (op : UnaryOp) {v v' : Value} (hv : f.Values v v') :
    f.Simulates f.Values (applyUnary op v) (applyUnary op v') := by
  cases op with
  | not => simpa only [applyUnary, hv.alike.isTruthy] using .pure (.boolean _)
  | neg =>
    cases hv with
    | plain v _ =>
      cases v with
      | number x => exact .pure (.number _)
      | _ => exact .fault _
    | closure => exact .fault _
  | len =>
    cases hv with
    | plain v _ =>
      cases v with
      | table id =>
        intro s m m' hm
        refine .inr ⟨hm, .ok ?_⟩
        rw [Table.border_congr (hm.tables id)]
        exact .number _
      | string s => exact .pure (.number _)
      | _ => exact .fault _
    | closure => exact .fault _

theorem builtin_values (b : Builtin) {args args' : List Value}
    (h : List.Forall₂ f.Values args args') : f.Values (b.apply args) (b.apply args') := by
  rw [Value.Alike.builtin b (h.imp fun _ _ hv => hv.alike)]
  cases b <;> exact .string _

mutual

theorem eval_simulates {call call' : Caller} (hcall : f.Callers call call') {loose : Bool}
    {c c' : Chain} (hc : f.Chains loose c c') :
    (e : Code) → (loose = true → e.Avoids f.reserved) →
      f.Simulates f.Values (e.eval call c) (e.eval call' c')
  | .nil, _ => by
    simp only [Code.eval]
    exact .pure .nil
  | .boolean b, _ => by
    simp only [Code.eval]
    exact .pure (.boolean b)
  | .number text, _ => by
    simp only [Code.eval]
    cases floatOf? text with
    | some x => exact .pure (.number x)
    | none => exact .fault _
  | .string s, _ => by
    simp only [Code.eval]
    exact .pure (.string s)
  | .name x, h => by
    simp only [Code.eval]
    intro s m m' hm
    refine .inr ⟨hm, .ok ?_⟩
    have hv := hm.lookup? hc h
    generalize m.lookup? c x = o, m'.lookup? c' x = o' at hv
    cases hv with
    | none => exact .nil
    | some hv => exact hv
  | .index table key, h => by
    simp only [Code.eval]
    refine (eval_simulates hcall hc table fun hl => (h hl).1).bind fun t t' ht => ?_
    refine (eval_simulates hcall hc key fun hl => (h hl).2).bind fun k k' hk => ?_
    exact .index ht hk
  | .member table x, h => by
    simp only [Code.eval]
    refine (eval_simulates hcall hc table h).bind fun t t' ht => ?_
    exact .index ht (.string x)
  | .call callee arguments, h => by
    simp only [Code.eval]
    refine (eval_simulates hcall hc callee fun hl => (h hl).1).bind fun v v' hv => ?_
    refine (evalAll_simulates hcall hc arguments fun hl => (h hl).2).bind fun _ _ ha => ?_
    exact hcall _ _ _ _ hv ha
  | .invoke receiver method arguments, h => by
    simp only [Code.eval]
    refine (eval_simulates hcall hc receiver fun hl => (h hl).1).bind fun r r' hr => ?_
    refine (Simulates.index hr (.string method)).bind fun v v' hv => ?_
    refine (evalAll_simulates hcall hc arguments fun hl => (h hl).2).bind fun _ _ ha => ?_
    exact hcall _ _ _ _ hv (.cons hr ha)
  | .binary left op right, h => by
    simp only [Code.eval]
    refine (eval_simulates hcall hc left fun hl => (h hl).1).bind fun a a' ha => ?_
    rw [ha.alike.settledBy op]
    split
    · exact .pure ha
    · refine (eval_simulates hcall hc right fun hl => (h hl).2).bind fun b b' hb => ?_
      exact .ofExcept (.apply Values.alike .plain op ha hb)
  | .unary op operand, h => by
    simp only [Code.eval]
    exact (eval_simulates hcall hc operand h).bind fun v v' hv => applyUnary_simulates op hv
  | .table fields, h => by
    simp only [Code.eval]
    refine Simulates.newTable.bind fun id id' hid => ?_
    subst hid
    refine (fillAll_simulates hcall hc id 1 fields h).bind fun _ _ _ => ?_
    exact .pure (.table id)
  | .function parameters body, h => by
    simp only [Code.eval]
    exact .newClosure hc h
  | .paren inner, h => by
    simp only [Code.eval]
    exact eval_simulates hcall hc inner h
  | .locals _ _, _ => by
    simp only [Code.eval]
    exact .fault _
  | .localFunction _ _ _, _ => by
    simp only [Code.eval]
    exact .fault _
  | .assign _ _, _ => by
    simp only [Code.eval]
    exact .fault _
  | .perform _, _ => by
    simp only [Code.eval]
    exact .fault _
  | .returns _, _ => by
    simp only [Code.eval]
    exact .fault _
  | .block _, _ => by
    simp only [Code.eval]
    exact .fault _

theorem evalAll_simulates {call call' : Caller} (hcall : f.Callers call call') {loose : Bool}
    {c c' : Chain} (hc : f.Chains loose c c') :
    (l : List Code) → (loose = true → Code.AllAvoid f.reserved l) →
      f.Simulates (List.Forall₂ f.Values) (Code.evalAll call c l) (Code.evalAll call' c' l)
  | [], _ => by
    simp only [Code.evalAll]
    exact .pure .nil
  | e :: rest, h => by
    simp only [Code.evalAll]
    refine (eval_simulates hcall hc e fun hl => (h hl).1).bind fun v v' hv => ?_
    refine (evalAll_simulates hcall hc rest fun hl => (h hl).2).bind fun vs vs' hvs => ?_
    exact .pure (.cons hv hvs)

theorem fillAll_simulates {call call' : Caller} (hcall : f.Callers call call')
    {loose : Bool} {c c' : Chain} (hc : f.Chains loose c c') (id : TableId) (slot : Nat) :
    (l : List Field) → (loose = true → Field.AllAvoid f.reserved l) →
      f.Simulates (fun _ _ => True) (Field.fillAll call c id slot l)
        (Field.fillAll call' c' id slot l)
  | [], _ => by
    simp only [Field.fillAll]
    exact .pure trivial
  | .item value :: rest, h => by
    simp only [Field.fillAll]
    refine (eval_simulates hcall hc value fun hl => (h hl).1).bind fun v v' hv => ?_
    refine (Simulates.setEntry id (.number _) hv).bind fun _ _ _ => ?_
    exact fillAll_simulates hcall hc id (slot + 1) rest fun hl => (h hl).2
  | .named x value :: rest, h => by
    simp only [Field.fillAll]
    refine (eval_simulates hcall hc value fun hl => (h hl).1).bind fun v v' hv => ?_
    refine (Simulates.setEntry id (.string x) hv).bind fun _ _ _ => ?_
    exact fillAll_simulates hcall hc id slot rest fun hl => (h hl).2
  | .keyed key value :: rest, h => by
    simp only [Field.fillAll]
    refine (eval_simulates hcall hc key fun hl => (h hl).1.1).bind fun k k' hk => ?_
    refine (eval_simulates hcall hc value fun hl => (h hl).1.2).bind fun v v' hv => ?_
    refine (Simulates.setEntry id hk hv).bind fun _ _ _ => ?_
    exact fillAll_simulates hcall hc id slot rest fun hl => (h hl).2

end

theorem locate_simulates {call call' : Caller} (hcall : f.Callers call call') {loose : Bool}
    {c c' : Chain} (hc : f.Chains loose c c') (e : Code)
    (h : loose = true → e.Avoids f.reserved) :
    f.Simulates (f.Locations loose) (e.locate call c) (e.locate call' c') := by
  cases e with
  | name x =>
    simp only [Code.locate]
    exact .pure (.named x h)
  | index table key =>
    simp only [Code.locate]
    refine (eval_simulates hcall hc table fun hl => (h hl).1).bind fun t t' ht => ?_
    refine (eval_simulates hcall hc key fun hl => (h hl).2).bind fun k k' hk => ?_
    exact .pure (.entry ht hk)
  | member table x =>
    simp only [Code.locate]
    refine (eval_simulates hcall hc table h).bind fun t t' ht => ?_
    exact .pure (.entry ht (.string x))
  | _ =>
    simp only [Code.locate]
    exact .fault _

theorem locateAll_simulates {call call' : Caller} (hcall : f.Callers call call') {loose : Bool}
    {c c' : Chain} (hc : f.Chains loose c c') (l : List Code)
    (h : loose = true → Code.AllAvoid f.reserved l) :
    f.Simulates (List.Forall₂ (f.Locations loose)) (Code.locateAll call c l)
      (Code.locateAll call' c' l) := by
  induction l with
  | nil =>
    simp only [Code.locateAll]
    exact .pure .nil
  | cons e rest ih =>
    simp only [Code.locateAll]
    refine (locate_simulates hcall hc e fun hl => (h hl).1).bind fun l l' hl => ?_
    refine (ih fun hl => (h hl).2).bind fun ls ls' hls => ?_
    exact .pure (.cons hl hls)

mutual

theorem exec_simulates {call call' : Caller} (hcall : f.Callers call call') {loose : Bool}
    {c c' : Chain} {i : Nat} (hc : f.Chains loose (i :: c) (f.image i :: c')) :
    (e : Code) → (loose = true → e.Avoids f.reserved) →
      f.Simulates f.Flows (e.exec call (i :: c)) (e.exec call' (f.image i :: c'))
  | .locals names values, h => by
    simp only [Code.exec]
    refine (evalAll_simulates hcall hc values h).bind fun vs vs' hv => ?_
    refine (Simulates.modify fun _ _ _ hm => hm.declareAll i names hv).bind fun _ _ _ => ?_
    exact .pure .next
  | .localFunction x parameters body, h => by
    simp only [Code.exec]
    refine (Simulates.declare i .nil).bind fun _ _ _ => ?_
    refine (Simulates.newClosure hc h).bind fun v v' hv => ?_
    refine (Simulates.declare i hv).bind fun _ _ _ => ?_
    exact .pure .next
  | .assign targets values, h => by
    simp only [Code.exec]
    refine (locateAll_simulates hcall hc targets fun hl => (h hl).1).bind fun ls ls' hls => ?_
    refine (evalAll_simulates hcall hc values fun hl => (h hl).2).bind fun vs vs' hvs => ?_
    refine (storeAll_simulates hc hls hvs).bind fun _ _ _ => ?_
    exact .pure .next
  | .perform expression, h => by
    simp only [Code.exec]
    refine (eval_simulates hcall hc expression h).bind fun _ _ _ => ?_
    exact .pure .next
  | .returns [], _ => by
    simp only [Code.exec]
    exact .pure (.returned .nil)
  | .returns (value :: _), h => by
    simp only [Code.exec]
    refine (eval_simulates hcall hc value fun hl => (h hl).1).bind fun v v' hv => ?_
    exact .pure (.returned hv)
  | .block body, h => by
    simp only [Code.exec]
    refine (Simulates.openScope _ _).bind fun d d' ⟨j, hd, hd'⟩ => ?_
    subst hd hd'
    exact execAll_simulates hcall (.cons j hc) body h
  | .nil, _ | .boolean _, _ | .number _, _ | .string _, _ | .name _, _ | .index _ _, _
  | .member _ _, _ | .call _ _, _ | .invoke _ _ _, _ | .binary _ _ _, _ | .unary _ _, _
  | .table _, _ | .function _ _, _ | .paren _, _ => by
    simp only [Code.exec]
    exact .fault _

theorem execAll_simulates {call call' : Caller} (hcall : f.Callers call call') {loose : Bool}
    {c c' : Chain} {i : Nat} (hc : f.Chains loose (i :: c) (f.image i :: c')) :
    (l : List Code) → (loose = true → Code.AllAvoid f.reserved l) →
      f.Simulates f.Flows (Code.execAll call (i :: c) l)
        (Code.execAll call' (f.image i :: c') l)
  | [], _ => by
    simp only [Code.execAll]
    exact .pure .next
  | e :: rest, h => by
    simp only [Code.execAll]
    refine (exec_simulates hcall hc e fun hl => (h hl).1).bind fun _ _ hf => ?_
    cases hf with
    | next => exact execAll_simulates hcall hc rest fun hl => (h hl).2
    | returned hv => exact .pure (.returned hv)

end

theorem runBody_simulates {call call' : Caller} (hcall : f.Callers call call') {loose : Bool}
    {c c' : Chain} {i : Nat} (hc : f.Chains loose (i :: c) (f.image i :: c'))
    (body : List Code) (h : loose = true → Code.AllAvoid f.reserved body) :
    f.Simulates f.Values (runBody call (i :: c) body) (runBody call' (f.image i :: c') body) := by
  refine (execAll_simulates hcall hc body h).bind fun _ _ hf => ?_
  cases hf with
  | next => exact .pure .nil
  | returned hv => exact .pure hv

theorem callAt_plain_simulates (room room' : Nat) {v : Value} (hv : ∀ g, v ≠ .function g)
    {args args' : List Value} (ha : List.Forall₂ f.Values args args') :
    f.Simulates f.Values (callAt room v args) (callAt room' v args') := by
  cases v with
  | function g => exact absurd rfl (hv g)
  | builtin b => cases room <;> cases room' <;> exact .pure (builtin_values b ha)
  | _ => cases room <;> cases room' <;> exact .fault _

theorem enter_simulates {call call' : Caller} (hcall : f.Callers call call') {loose : Bool}
    {c c' : Chain} (hc : f.Chains loose c c') (parameters : List String) {body : List Code}
    (hb : loose = true → Code.AllAvoid f.reserved body) {args args' : List Value}
    (ha : List.Forall₂ f.Values args args') :
    f.Simulates f.Values
      (do
        let d ← EvalM.openScope c
        modify fun m => m.declareAll d parameters args
        EvalM.nested (runBody call d body))
      (do
        let d ← EvalM.openScope c'
        modify fun m => m.declareAll d parameters args'
        EvalM.nested (runBody call' d body)) := by
  refine (Simulates.openScope _ _).bind fun d d' ⟨i, hd, hd'⟩ => ?_
  subst hd hd'
  refine (Simulates.modify fun _ _ _ hm => hm.declareAll i parameters ha).bind fun _ _ _ => ?_
  exact (runBody_simulates hcall (.cons i hc) body hb).nested

/-- A call with more room does the same, or the one with less room runs out of it. -/
theorem callAt_simulates {room room' : Nat} (hr : room' ≤ room) :
    f.Callers (callAt room) (callAt room') := by
  induction room' generalizing room with
  | zero =>
    intro v v' args args' hv ha
    cases hv with
    | plain v hv => exact callAt_plain_simulates _ _ hv ha
    | closure => exact .overflow _
  | succ room' ih =>
    intro v v' args args' hv ha
    cases hv with
    | plain v hv => exact callAt_plain_simulates _ _ hv ha
    | @closure loose id parameters body c c' hc hb =>
      obtain ⟨room, rfl⟩ : ∃ r, room = r + 1 := ⟨room - 1, by omega⟩
      have hbody := enter_simulates (ih (Nat.le_of_succ_le_succ hr)) hc parameters hb ha
      intro s m m' hm
      by_cases hd' : maxCallDepth ≤ m'.depth
      · left
        simp only [callAt, EvalM.bind_run, EvalM.get_run, if_pos hd', EvalM.throw_run]
      · have hle : m.depth ≤ m'.depth := by
          rw [hm.depth, hm.depth_add]
          exact Nat.le_add_right _ _
        have hd : ¬ maxCallDepth ≤ m.depth := fun h => hd' (h.trans hle)
        have hrun := hbody s m m' hm
        simpa only [callAt, EvalM.bind_run, EvalM.get_run, if_neg hd', if_neg hd,
          EvalM.pure_run] using hrun

end ScriptToLua.Lua.ScopeMap
