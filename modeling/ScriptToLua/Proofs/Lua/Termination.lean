import Mathlib
import ScriptToLua.Proofs.Lua.CallDepth

/-!
Running code comes to an end, however its closures call each other. `Completes` derives how a call
ends from how the calls inside it end, with no room to count down: every call has such a derivation,
and it never goes deeper than the limit (`halts_within_limit`).
-/

namespace ScriptToLua.Lua

variable {α : Type}

/-- A call that is about to be made. -/
structure Request where
  function : Value
  arguments : List Value
  machine : Machine

/-- A result or a fault, and the machine that is left. -/
abbrev Outcome (α : Type) := Except Fault α × Machine

/-- Makes the call. -/
def Request.run (r : Request) (call : Caller) : Outcome Value :=
  call r.function r.arguments r.machine

/-- The caller ends requests as `known` says. -/
def Caller.Answers (call : Caller) (known : Request → Outcome Value → Prop) : Prop :=
  ∀ r o, known r o → r.run call = o

/-- The known calls are all that a computation depends on: it ends with `o` whatever other calls
do. -/
def SettledBy (known : Request → Outcome Value → Prop) (act : Caller → EvalM α) (m : Machine)
    (o : Outcome α) : Prop :=
  ∀ call : Caller, call.Answers known → act call m = o

/-- Runs the body of a closure whose call has been entered, after `m`. -/
def Closure.runIn (f : Closure) (m : Machine) (call : Caller) : EvalM Value :=
  runBody call (m.scopes.size :: f.chain) f.body

/-- The call ends with the outcome, by a derivation of finite depth; all machines at which a call is
made or entered, and those that it leaves, have `P`. -/
inductive Completes (P : Machine → Prop) : Request → Outcome Value → Prop where
  | builtin (b : Builtin) (args : List Value) {m : Machine} (h : P m) :
    Completes P ⟨.builtin b, args, m⟩ (.ok (b.apply args), m)
  | notCallable {v : Value} (hv : v.kind ≠ .function) (args : List Value) {m : Machine} (h : P m) :
    Completes P ⟨v, args, m⟩ (.error (.notCallable v.kind), m)
  | overflow (f : Closure) (args : List Value) {m : Machine} (h : P m)
    (hd : maxCallDepth ≤ m.depth) :
    Completes P ⟨.function f, args, m⟩ (.error .stackOverflow, m)
  | body (f : Closure) (args : List Value) {m : Machine} {o : Outcome Value} (h : P m)
    (hd : m.depth < maxCallDepth) (henter : P (f.enter args m))
    {known : Request → Outcome Value → Prop} (hknown : ∀ r o, known r o → Completes P r o)
    (hrun : SettledBy known (f.runIn m) (f.enter args m) o) (hend : P o.2) (hleave : P o.2.leave) :
    Completes P ⟨.function f, args, m⟩ (o.1, o.2.leave)

/-- The chunk ends with the outcome, given how the calls in it end. -/
def ChunkCompletes (P : Machine → Prop) (chunk : List Code) (m : Machine) (o : Outcome Value) :
    Prop :=
  P m ∧ P o.2 ∧ SettledBy (Completes P) (fun call => runBody call [m.scopes.size] chunk)
    { m with scopes := m.scopes.push .empty } o

/-- No more calls are under way than may be. -/
def Machine.WithinLimit (m : Machine) : Prop := m.depth ≤ maxCallDepth

variable {P : Machine → Prop}

/-- What is derived is what the interpreter does. -/
theorem Completes.run {r : Request} {o : Outcome Value} (h : Completes P r o) : r.run call = o := by
  induction h with
  | builtin b args => rw [Request.run, call_builtin, EvalM.pure_run]
  | notCallable hv args => rw [Request.run, call_notCallable hv, EvalM.throw_run]
  | overflow f args _ hd => rw [Request.run, call_function, enterWith_overflow call f args hd]
  | body f args _ hd _ _ hrun _ _ ih =>
    have hbody := hrun call ih
    rw [Request.run, call_function, enterWith_run call f args hd]
    unfold Closure.runIn at hbody
    rw [hbody]

theorem ChunkCompletes.run {chunk : List Code} {m : Machine} {o : Outcome Value}
    (h : ChunkCompletes P chunk m o) : runChunk chunk m = o := by
  rw [runChunk_run]
  exact h.2.2 call fun _ _ hr => hr.run

/-- A caller that agrees with `call` one call deeper agrees with it on a body entered there. -/
theorem runBody_of_answers {d : Nat} {inner : Caller}
    (h : inner.Answers fun r o => r.machine.depth = d ∧ o = r.run call) (c : Chain)
    (body : List Code) {m : Machine} (hm : m.depth = d) :
    runBody inner c body m = runBody call c body m := by
  have hsame : Caller.SameAt d call inner := by
    intro f args m' hm'
    have hr := h ⟨f, args, m'⟩ _ ⟨hm', rfl⟩
    exact ⟨hr.symm, (call_depth m' f args).trans hm'⟩
  exact (runBody_sameAt hsame c body m hm).1.symm

theorem Closure.runIn_depth (f : Closure) (args : List Value) (m : Machine) :
    (f.runIn m call (f.enter args m)).2.depth = m.depth + 1 :=
  (runBody_sameAt (call_sameAt _) _ f.body _ (f.enter_depth args m)).2

/-- A call completes if all calls one call deeper do, where there may be any. -/
theorem completes_of_deeper (r : Request) (hr : r.machine.WithinLimit)
    (hdeeper : ∀ r' : Request, r'.machine.depth = r.machine.depth + 1 →
      r'.machine.WithinLimit → Completes Machine.WithinLimit r' (r'.run call)) :
    Completes Machine.WithinLimit r (r.run call) := by
  obtain ⟨v, args, m⟩ := r
  by_cases hv : v.kind = .function
  · cases v with
    | builtin b =>
      rw [Request.run, call_builtin]
      exact .builtin b args hr
    | function f =>
      rw [Request.run, call_function]
      rcases Nat.lt_or_ge m.depth maxCallDepth with hlt | hge
      · have hm : (f.enter args m).depth = m.depth + 1 := f.enter_depth args m
        have hend := f.runIn_depth args m
        have hleave : (f.runIn m call (f.enter args m)).2.leave.depth = m.depth :=
          congrArg (· - 1) hend
        have hknown (r' : Request) (o : Outcome Value)
            (h : r'.machine.depth = m.depth + 1 ∧ o = r'.run call) :
            Completes Machine.WithinLimit r' o := by
          rw [h.2]
          exact hdeeper r' h.1 (h.1.trans_le hlt)
        rw [enterWith_run call f args hlt]
        exact .body (o := f.runIn m call (f.enter args m)) f args hr hlt (hm.trans_le hlt) hknown
          (fun inner hinner => runBody_of_answers hinner _ f.body hm) (hend.trans_le hlt)
          (hleave.trans_le hr)
      · rw [enterWith_overflow call f args hge]
        exact .overflow f args hr hge
    | _ => cases hv
  · rw [Request.run, call_notCallable hv]
    exact .notCallable hv args hr

/-- The depth that is left decreases on the way in, so every call has its derivation. -/
theorem completes_run (r : Request) (h : r.machine.WithinLimit) :
    Completes Machine.WithinLimit r (r.run call) := by
  obtain ⟨left, hleft⟩ : ∃ n, maxCallDepth - r.machine.depth = n := ⟨_, rfl⟩
  induction left generalizing r with
  | zero =>
    refine completes_of_deeper r h fun r' hd hr' => ?_
    unfold Machine.WithinLimit at hr'
    omega
  | succ left ih => exact completes_of_deeper r h fun r' hd hr' => ih r' hr' (by omega)

/-- How a call ends is derived in one way only, the way that the interpreter takes. -/
theorem completes_iff {r : Request} (h : r.machine.WithinLimit) {o : Outcome Value} :
    Completes Machine.WithinLimit r o ↔ r.run call = o := by
  constructor
  · exact Completes.run
  · rintro rfl
    exact completes_run r h

theorem chunkCompletes_iff {m : Machine} (h : m.WithinLimit) {chunk : List Code}
    {o : Outcome Value} :
    ChunkCompletes Machine.WithinLimit chunk m o ↔ runChunk chunk m = o := by
  refine ⟨ChunkCompletes.run, ?_⟩
  rintro rfl
  refine ⟨h, (runChunk_depth m chunk).trans_le h, fun inner hinner => ?_⟩
  rw [runChunk_run]
  refine runBody_of_answers (d := m.depth) (fun r o hr => ?_) [m.scopes.size] chunk rfl
  exact hinner r o ((completes_iff (hr.1.trans_le h)).2 hr.2.symm)

/-- A machine that a host can have: it runs chunks, calls values and sets globals in any order, and
goes on after faults. -/
inductive Machine.Hosted : Machine → Prop where
  | initial : Hosted .initial
  | exec (chunk : List Code) {m : Machine} (h : Hosted m) : Hosted (runChunk chunk m).2
  | call (f : Value) (args : List Value) {m : Machine} (h : Hosted m) :
    Hosted (Lua.call f args m).2
  | setGlobal (x : String) (v : Value) {m : Machine} (h : Hosted m) : Hosted (m.setGlobal x v)

/-- Between its steps a host finds the machine at depth 0. -/
theorem Machine.Hosted.depth {m : Machine} (h : m.Hosted) : m.depth = 0 := by
  induction h with
  | initial => rfl
  | exec chunk _ ih => rw [runChunk_depth, ih]
  | call f args _ ih => rw [call_depth, ih]
  | setGlobal x v _ ih => rw [Machine.setGlobal, Machine.declare_depth, ih]

namespace Table

/-- The search for the border has gone over slots that hold a value, and has stopped at one that does
not unless it ran out of room. -/
theorem borderFrom_spec (t : Table) (room n : Nat) :
    n ≤ t.borderFrom room n ∧
      (∀ i, n ≤ i → i < t.borderFrom room n → t.contains (.int (i + 1 : Nat))) ∧
      (t.borderFrom room n = n + room ∨
        t.contains (.int (t.borderFrom room n + 1 : Nat)) = false) := by
  induction room generalizing n with
  | zero => exact ⟨Nat.le_refl n, fun i h h' => absurd h (Nat.not_le.2 h'), .inl rfl⟩
  | succ room ih =>
    unfold borderFrom
    split
    · next hn =>
      obtain ⟨hle, hmem, hstop⟩ := ih (n + 1)
      refine ⟨Nat.le_of_succ_le hle, fun i hi hi' => ?_, hstop.imp_left fun h => by omega⟩
      rcases Nat.eq_or_lt_of_le hi with rfl | hi
      · exact hn
      · exact hmem i hi hi'
    · next hn =>
      exact ⟨Nat.le_refl n, fun i h h' => absurd h (Nat.not_le.2 h'), .inr (by simpa using hn)⟩

/-- A table has no more filled slots in a row than entries. -/
theorem le_size_of_slots {t : Table} {n : Nat} (h : ∀ i, i < n → t.contains (.int (i + 1 : Nat))) :
    n ≤ t.size := by
  let slots : List Key := (List.range n).map fun i => .int (i + 1 : Nat)
  have hnodup : slots.Nodup := by
    refine List.nodup_range.map fun i j hij => ?_
    have hint : ((i + 1 : Nat) : Int) = (j + 1 : Nat) := by injection hij
    omega
  have hsub : slots ⊆ t.entries.map Prod.fst := by
    intro k hk
    obtain ⟨i, hi, rfl⟩ := List.mem_map.1 hk
    exact (t.contains_iff_mem _).1 (h i (List.mem_range.1 hi))
  have hlen := (List.subperm_of_subset hnodup hsub).length_le
  simpa [slots, OrderedMap.size] using hlen

/-- The search ends at the first slot without a value, and only there. -/
theorem border_eq_iff (t : Table) (n : Nat) :
    t.border = n ↔
      (∀ i, i < n → t.contains (.int (i + 1 : Nat))) ∧ t.contains (.int (n + 1 : Nat)) = false := by
  obtain ⟨-, hmem, hstop⟩ := t.borderFrom_spec t.size 0
  have hslots : ∀ i, i < t.border → t.contains (.int (i + 1 : Nat)) :=
    fun i => hmem i (Nat.zero_le i)
  have hfree : t.contains (.int (t.border + 1 : Nat)) = false := by
    rcases hstop with hfull | hfree
    · by_contra hmore
      have hle : t.border + 1 ≤ t.size := le_size_of_slots fun i hi => by
        rcases Nat.lt_succ_iff_lt_or_eq.1 hi with hi | rfl
        · exact hslots i hi
        · simpa using hmore
      unfold border at hle
      omega
    · exact hfree
  constructor
  · rintro rfl
    exact ⟨hslots, hfree⟩
  · rintro ⟨hn, hn'⟩
    by_contra hne
    rcases Nat.lt_or_gt_of_ne hne with hlt | hgt
    · exact Bool.false_ne_true (hfree.symm.trans (hn _ hlt))
    · exact Bool.false_ne_true (hn'.symm.trans (hslots _ hgt))

end Table

/-- From any machine within the limit every call and every chunk ends, in the one way that can be
derived, without going beyond the limit, and at the depth where it began, whether with a result or
with a fault. The same holds for each piece of code, and for the search for the border of a table.
So a host is at depth 0 before each of its steps. -/
theorem halts_within_limit {m : Machine} (h : m.WithinLimit) :
    (∀ f args o, Completes Machine.WithinLimit ⟨f, args, m⟩ o ↔ call f args m = o) ∧
    (∀ chunk o, ChunkCompletes Machine.WithinLimit chunk m o ↔ runChunk chunk m = o) ∧
    (∀ f args, (call f args m).2.depth = m.depth) ∧
    (∀ chunk, (runChunk chunk m).2.depth = m.depth) ∧
    (∀ c (e : Code), (e.eval call c m).2.depth = m.depth ∧ (e.exec call c m).2.depth = m.depth) ∧
    (∀ (t : Table) n, t.border = n ↔
      (∀ i, i < n → t.contains (.int (i + 1 : Nat))) ∧ t.contains (.int (n + 1 : Nat)) = false) ∧
    ∀ m' : Machine, m'.Hosted → m'.depth = 0 :=
  ⟨fun _ _ _ => completes_iff h, fun _ _ => chunkCompletes_iff h, call_depth m, runChunk_depth m,
    fun c e => ⟨eval_depth m c e, exec_depth m c e⟩, Table.border_eq_iff,
    fun _ => Machine.Hosted.depth⟩

/-- A chunk whose function calls itself forever. -/
def runaway : List Code :=
  [.localFunction "f" [] [.yields (.call (.name "f") [])], .yields (.call (.name "f") [])]

theorem halts_within_limit_runaway :
    Machine.initial.WithinLimit ∧
      ((runChunk runaway .initial).1.map fun _ => ()) = .error .stackOverflow ∧
      (runChunk runaway .initial).2.depth = 0 ∧
      ChunkCompletes Machine.WithinLimit runaway .initial (runChunk runaway .initial) := by
  have h : Machine.initial.WithinLimit := Nat.zero_le _
  obtain ⟨-, hchunk, -, hdepth, -⟩ := halts_within_limit h
  exact ⟨h, by decide +kernel, hdepth runaway, (hchunk runaway _).2 rfl⟩

end ScriptToLua.Lua
