import Mathlib
import ScriptToLua.Proofs.Lowering.WriteOrder

/-!
The code of writes and the order it runs in. Its local variables live in a scope of their own, which
nothing else sees.
-/

namespace ScriptToLua.Lowering

open Lua

/-- Whether settling a place keeps a part of it. -/
def settleKeeps (pin : Bool) (e : Code) : Bool := !e.isPure || (pin && !e.isLiteral)

/-- The code for a part once it is settled. -/
def settledPart (keeps : Code → Bool) (temp : String) (e : Code) : Code :=
  if keeps e then .name temp else e

namespace Place

/-- The place once it is settled. -/
def settled (keeps : Code → Bool) : Place → Place
  | .variable x => .variable x
  | .field t x => .field (settledPart keeps objectTemp t) x
  | .entry t k => .entry (settledPart keeps objectTemp t) (settledPart keeps indexTemp k)

/-- The code of the place that runs when it is located. -/
def parts : Place → List Code
  | .variable _ => []
  | .field t _ => [t]
  | .entry t k => [t, k]

theorem keep_eq (temp : String) (pin : Bool) (e : Code) :
    keep temp pin e =
      (if settleKeeps pin e then [.bindLocal temp e] else [], settledPart (settleKeeps pin) temp e) := by
  change (if settleKeeps pin e then _ else _) = _
  unfold settledPart
  split <;> rfl

/-- Settling keeps nothing of a place only if the place stays as it is. -/
theorem settle_empty {pin : Bool} {p : Place} (h : (p.settle pin).1.isEmpty) :
    ∀ e ∈ p.parts, settleKeeps pin e = false := by
  cases p with
  | «variable» x => nofun
  | field t x =>
    simpa [settle, parts, keep_eq] using h
  | entry t k => simpa [settle, parts, keep_eq] using h

theorem settled_of_unkept {keeps : Code → Bool} {p : Place} (h : ∀ e ∈ p.parts, keeps e = false) :
    p.settled keeps = p := by
  cases p with
  | «variable» x => rfl
  | field t x =>
    have ht := h t List.mem_cons_self
    simp [settled, settledPart, ht]
  | entry t k =>
    have ht := h t List.mem_cons_self
    have hk := h k (List.mem_cons_of_mem t List.mem_cons_self)
    simp [settled, settledPart, ht, hk]

theorem settle_snd (pin : Bool) (p : Place) : (p.settle pin).2 = p.settled (settleKeeps pin) := by
  cases p <;> simp only [settle, settled, keep_eq]

theorem code_eval (call : Caller) (c : Chain) (p : Place) :
    p.code.eval call c = (do let l ← p.code.locate call c; l.read c) := by
  cases p with
  | «variable» x => rfl
  | field t x => simp only [code, Code.eval, Code.locate, Location.read, bind_assoc, pure_bind]
  | entry t k => simp only [code, Code.eval, Code.locate, Location.read, bind_assoc, pure_bind]

theorem newValue_eval (call : Caller) (c : Chain) (p : Place) (w : Write) :
    (p.newValue w.op w.value).eval call c =
      w.newValue call c (do let l ← p.code.locate call c; l.read c) := by
  unfold newValue Write.newValue
  cases w.op with
  | none => rfl
  | some op => simp only [Code.eval, code_eval, BinaryOp.combine]

end Place

section Beside

variable {f : ScopeMap} {s : ScopeMap.Surplus} {n : Nat} {c : Chain} {call call' : Caller}
  {keeps : Code → Bool} {α α' : Type} {V : α → α' → Prop} {fin : Flow → EvalM α'}
  {rest : List Code}

/-- If `e` is kept, the extra scope `n` holds its value `v` in `temp`. -/
def HeldIn (f : ScopeMap) (s : ScopeMap.Surplus) (n : Nat) (keeps : Code → Bool) (temp : String)
    (e : Code) (v : Value) : Prop :=
  keeps e → ∃ v', (s.scopes n).get? temp = some v' ∧ f.Values v v'

theorem HeldIn.declare {temp x : String} {e : Code} {v : Value}
    (h : HeldIn f s n keeps temp e v) (hx : x ≠ temp) (w : Value) :
    HeldIn f (s.declare n x w) n keeps temp e v := by
  intro hk
  obtain ⟨v', hs, hv⟩ := h hk
  refine ⟨v', ?_, hv⟩
  simpa only [ScopeMap.Surplus.declare, if_true, OrderedMap.get?_insert, if_neg hx] using hs

theorem declare_get? (x : String) (w : Value) : ((s.declare n x w).scopes n).get? x = some w := by
  simp only [ScopeMap.Surplus.declare, if_true, OrderedMap.get?_insert]

theorem part_simulatesIn (hcall : f.Callers call call') (hn : f.Extra n)
    (hc : f.Chains true c (n :: c)) {temp : String} {e : Code} {v : Value}
    (he : e.Avoids f.reserved) (h : HeldIn f s n keeps temp e v) :
    f.SimulatesIn s f.Values (partValue call c keeps e v)
      ((settledPart keeps temp e).eval call' (n :: c)) := by
  unfold partValue settledPart
  split
  · next hk =>
    obtain ⟨v', hs, hv⟩ := h hk
    exact ScopeMap.name_simulatesIn hn hs hv
  · exact ScopeMap.eval_simulates hcall hc e (fun _ => he) s

theorem keepPart_ends (hcall : f.Callers call call') (hn : f.Extra n)
    (hc : f.Chains true c (n :: c)) {temp : String} (ht : temp ∈ f.reserved) {pin : Bool} {e : Code}
    (he : e.Avoids f.reserved) {next : Value → EvalM α}
    (hr : ∀ v v', f.Values v v' → settleKeeps pin e → f.EndsIn (s.declare n temp v') V (next v)
      (Code.execAll call' (n :: c) rest >>= fin))
    (hl : settleKeeps pin e = false → f.EndsIn s V (next .nil)
      (Code.execAll call' (n :: c) rest >>= fin)) :
    f.EndsIn s V (keepPart call c (settleKeeps pin) e >>= next)
      (Code.execAll call' (n :: c) ((Place.keep temp pin e).1 ++ rest) >>= fin) := by
  rw [Place.keep_eq]
  unfold keepPart
  split
  · next hk =>
    have hs := ScopeMap.eval_simulates hcall hc e (fun _ => he) s
    exact ScopeMap.bindLocal_ends hn ht hs fun v v' hv => hr v v' hv hk
  · next hk => exact hl (by simpa using hk)

namespace Place

/-- The extra scope holds what is kept of a place. -/
def Held (f : ScopeMap) (s : ScopeMap.Surplus) (n : Nat) (keeps : Code → Bool)
    (held : Value × Value) : Place → Prop
  | .variable _ => True
  | .field t _ => HeldIn f s n keeps objectTemp t held.1
  | .entry t k => HeldIn f s n keeps objectTemp t held.1 ∧ HeldIn f s n keeps indexTemp k held.2

theorem Held.declare_value {held : Value × Value} {p : Place} (h : p.Held f s n keeps held)
    (w : Value) : p.Held f (s.declare n valueTemp w) n keeps held := by
  cases p with
  | «variable» x => trivial
  | field t x => exact HeldIn.declare h (by decide) w
  | entry t k => exact ⟨h.1.declare (by decide) w, h.2.declare (by decide) w⟩

theorem keepParts_ends (hcall : f.Callers call call') (hn : f.Extra n)
    (hc : f.Chains true c (n :: c)) (ht : temps = f.reserved) {pin : Bool} {p : Place}
    (hp : p.code.Avoids f.reserved) {next : Value × Value → EvalM α}
    (hr : ∀ held s', p.Held f s' n (settleKeeps pin) held → f.EndsIn s' V (next held)
      (Code.execAll call' (n :: c) rest >>= fin)) :
    f.EndsIn s V (p.keepParts call c (settleKeeps pin) >>= next)
      (Code.execAll call' (n :: c) ((p.settle pin).1 ++ rest) >>= fin) := by
  have ho : objectTemp ∈ f.reserved := ht ▸ by decide
  have hi : indexTemp ∈ f.reserved := ht ▸ by decide
  match p, hp with
  | .variable x, _ => exact hr _ s trivial
  | .field t x, hp =>
    simp only [keepParts, settle, bind_assoc, pure_bind]
    apply keepPart_ends (e := t) hcall hn hc ho hp
    · intro v v' hv _
      exact hr _ _ fun _ => ⟨v', declare_get? _ _, hv⟩
    · intro hk
      exact hr _ _ fun h => absurd h (by simp [hk])
  | .entry t k, ⟨hp, hq⟩ =>
    simp only [keepParts, settle, bind_assoc, pure_bind, List.append_assoc]
    have hkey (v : Value) (s' : ScopeMap.Surplus)
        (hs : HeldIn f s' n (settleKeeps pin) objectTemp t v) :
        f.EndsIn s' V (keepPart call c (settleKeeps pin) k >>= fun w => next (v, w))
          (Code.execAll call' (n :: c) ((keep indexTemp pin k).1 ++ rest) >>= fin) := by
      apply keepPart_ends hcall hn hc hi hq
      · intro w w' hw _
        exact hr _ _ ⟨hs.declare (by decide) w', fun _ => ⟨w', declare_get? _ _, hw⟩⟩
      · intro hk
        exact hr _ _ ⟨hs, fun h => absurd h (by simp [hk])⟩
    apply keepPart_ends (e := t) hcall hn hc ho hp
    · intro v v' hv _
      exact hkey v _ fun _ => ⟨v', declare_get? _ _, hv⟩
    · intro hk
      exact hkey .nil _ fun h => absurd h (by simp [hk])

theorem locateKept_simulatesIn (hcall : f.Callers call call') (hn : f.Extra n)
    (hc : f.Chains true c (n :: c)) {p : Place} (hp : p.code.Avoids f.reserved)
    {held : Value × Value} (h : p.Held f s n keeps held) :
    f.SimulatesIn s (f.Locations true) (p.locateKept call c keeps held)
      ((p.settled keeps).code.locate call' (n :: c)) := by
  match p, hp, h with
  | .variable x, hp, _ => exact ScopeMap.Simulates.pure (.named x fun _ => hp) s
  | .field t x, hp, h =>
    exact (part_simulatesIn (e := t) hcall hn hc hp h).bind fun v v' hv =>
      ScopeMap.Simulates.pure (.entry hv (.string x)) s
  | .entry t k, ⟨hp, hq⟩, ⟨h, h'⟩ =>
    exact (part_simulatesIn hcall hn hc hp h).bind fun v v' hv =>
      (part_simulatesIn hcall hn hc hq h').bind fun w w' hw =>
        ScopeMap.Simulates.pure (.entry hv hw) s

theorem read_simulates (hc : f.Chains true c (n :: c)) {l l' : Location}
    (hl : f.Locations true l l') : f.Simulates f.Values (l.read c) (l'.read (n :: c)) := by
  cases hl with
  | named x hx =>
    intro s m m' hm
    have hv := hm.lookup? hc hx
    simp only [Location.read, EvalM.bind_run, EvalM.get_run, EvalM.pure_run]
    generalize m.lookup? c x = o, m'.lookup? (n :: c) x = o' at hv
    cases hv with
    | none => exact .inr ⟨hm, .ok .nil⟩
    | some hv => exact .inr ⟨hm, .ok hv⟩
  | entry ht hk => exact .index ht hk

end Place

theorem combine_simulatesIn (op : BinaryOp) {a a' : Value} (ha : f.Values a a')
    {right right' : EvalM Value} (hr : f.SimulatesIn s f.Values right right') :
    f.SimulatesIn s f.Values (op.combine a right) (op.combine a' right') := by
  unfold BinaryOp.combine
  rw [ha.alike.settledBy op]
  split
  · exact ScopeMap.Simulates.pure ha s
  · exact hr.bind fun b b' hb =>
      ScopeMap.Simulates.ofExcept (.apply ScopeMap.Values.alike .plain op ha hb) s

theorem newValue_simulatesIn (hcall : f.Callers call call') (hc : f.Chains true c (n :: c))
    {w : Write} (hw : w.value.Avoids f.reserved) {read read' : EvalM Value}
    (hr : f.SimulatesIn s f.Values read read') :
    f.SimulatesIn s f.Values (w.newValue call c read) (w.newValue call' (n :: c) read') := by
  have hv := ScopeMap.eval_simulates hcall hc w.value (fun _ => hw) s
  unfold Write.newValue
  cases w.op with
  | none => exact hv
  | some op => exact hr.bind fun old old' ho => combine_simulatesIn op ho hv

/-- How a function ends whose statements have run. -/
def finish : Flow → EvalM Value
  | .returned v => return v
  | .next => return .nil

theorem runBody_eq (body : List Code) :
    runBody call' c body = Code.execAll call' c body >>= finish := by
  rfl

/-- The written value, or the old one, passes through a local variable to the place and out. -/
theorem through_ends (hcall : f.Callers call call') (hn : f.Extra n)
    (hc : f.Chains true c (n :: c)) (ht : temps = f.reserved) {p : Place}
    (hp : p.code.Avoids f.reserved) {held : Value × Value} (h : p.Held f s n keeps held)
    {act : EvalM Value} {e : Code} (he : f.SimulatesIn s f.Values act (e.eval call' (n :: c)))
    (act₂ : Value → EvalM Value) (e₂ : Code)
    (he₂ : ∀ s' v v', (s'.scopes n).get? valueTemp = some v' → f.Values v v' →
      f.SimulatesIn s' f.Values (act₂ v) (e₂.eval call' (n :: c))) :
    f.EndsIn s (fun w v' => f.Flows w (.returned v'))
      (do
        let v ← act
        let l ← p.locateKept call c keeps held
        let v₂ ← act₂ v
        store c l v₂
        return .returned v)
      (Code.execAll call' (n :: c) [.bindLocal valueTemp e,
        .store (p.settled keeps).code e₂, .yields (.name valueTemp)] >>= finish) := by
  apply ScopeMap.bindLocal_ends hn (ht ▸ by decide) he
  intro v v' hv
  have hs := declare_get? (s := s) (n := n) valueTemp v'
  apply ScopeMap.store_ends hc (Place.locateKept_simulatesIn hcall hn hc hp (h.declare_value v'))
    (fun _ => he₂ _ v v' hs hv)
  intro _
  have hy : f.EndsIn (s.declare n valueTemp v') (fun w v' => f.Flows w (.returned v'))
      (do let v ← pure v; return Flow.returned v)
      (Code.execAll call' (n :: c) [.yields (.name valueTemp)] >>= finish) :=
    ScopeMap.yields_ends (ScopeMap.name_simulatesIn hn hs hv)
      fun v v' hv => (ScopeMap.Simulates.pure (.returned hv) _).ends
  simpa only [pure_bind] using hy

theorem read_simulatesIn (hcall : f.Callers call call') (hn : f.Extra n)
    (hc : f.Chains true c (n :: c)) {p : Place} (hp : p.code.Avoids f.reserved)
    {held : Value × Value} (h : p.Held f s n keeps held) :
    f.SimulatesIn s f.Values (do let l ← p.locateKept call c keeps held; l.read c)
      ((p.settled keeps).code.eval call' (n :: c)) := by
  rw [Place.code_eval]
  exact (Place.locateKept_simulatesIn hcall hn hc hp h).bind fun _ _ hl =>
    Place.read_simulates hc hl s

theorem settledValue_simulatesIn (hcall : f.Callers call call') (hn : f.Extra n)
    (hc : f.Chains true c (n :: c)) {p : Place} (hp : p.code.Avoids f.reserved) {w : Write}
    (hw : w.value.Avoids f.reserved) {held : Value × Value} (h : p.Held f s n keeps held) :
    f.SimulatesIn s f.Values
      (w.newValue call c (do let l ← p.locateKept call c keeps held; l.read c))
      (((p.settled keeps).newValue w.op w.value).eval call' (n :: c)) := by
  have hr := read_simulatesIn hcall hn hc hp h
  rw [Place.code_eval] at hr
  rw [Place.newValue_eval]
  exact newValue_simulatesIn hcall hc hw hr

namespace Write

variable {p : Place} {w : Write}

theorem keeps_value : w.keeps .value = settleKeeps (!w.value.isPure) := rfl

theorem keeps_statement (hw : w.op.isSome) : w.keeps .statement = settleKeeps false := by
  funext e
  simp only [keeps, settleKeeps, hw, Bool.true_and, Bool.false_and, Bool.or_false]

theorem code_value (hy : w.yield = .new) :
    w.code p .value = .immediate ((p.settle (!w.value.isPure)).1 ++
      [.bindLocal valueTemp ((p.settled (w.keeps .value)).newValue w.op w.value),
        .store (p.settled (w.keeps .value)).code (.name valueTemp),
        .yields (.name valueTemp)]) := by
  rw [keeps_value, ← Place.settle_snd]
  cases w with
  | assign op value => rfl
  | update op yield =>
    cases yield with
    | old => cases hy
    | new => rfl

theorem code_updateOld (op : BinaryOp) :
    (update op .old).code p .value = .immediate ((p.settle false).1 ++
      [.bindLocal valueTemp (p.settled (settleKeeps false)).code,
        .store (p.settled (settleKeeps false)).code
          (.binary (.name valueTemp) op (.integer 1)),
        .yields (.name valueTemp)]) := by
  rw [← Place.settle_snd]
  rfl

theorem asLowered_ends (hcall : f.Callers call call') (hn : f.Extra n)
    (hc : f.Chains true c (n :: c)) (ht : temps = f.reserved) (hp : p.code.Avoids f.reserved)
    (hw : w.value.Avoids f.reserved) (hy : w.yield = .new) {body : List Code}
    (hb : w.code p .value = .immediate body) :
    f.EndsIn s (fun w v' => f.Flows w (.returned v')) (w.asLowered call c p .value)
      (runBody call' (n :: c) body) := by
  cases (code_value hy).symm.trans hb
  rw [runBody_eq]
  apply Place.keepParts_ends hcall hn hc ht hp
  intro held s' h
  have hv := settledValue_simulatesIn hcall hn hc hp hw h
  have he := through_ends hcall hn hc ht hp h hv pure (.name valueTemp)
    fun s' v v' hs hv => ScopeMap.name_simulatesIn hn hs hv
  simpa only [pure_bind, keeps_value] using he

theorem updateAsLowered_ends (hcall : f.Callers call call') (hn : f.Extra n)
    (hc : f.Chains true c (n :: c)) (ht : temps = f.reserved) (hp : p.code.Avoids f.reserved)
    {op : BinaryOp} {body : List Code}
    (hb : (update op .old).code p .value = .immediate body) :
    f.EndsIn s (fun w v' => f.Flows w (.returned v')) (updateAsLowered call c p op)
      (runBody call' (n :: c) body) := by
  cases (code_updateOld op).symm.trans hb
  rw [runBody_eq]
  apply Place.keepParts_ends hcall hn hc ht hp
  intro held s' h
  have he := through_ends hcall hn hc ht hp h (read_simulatesIn hcall hn hc hp h)
    (fun old => op.combine old ((Code.integer 1).eval call c))
    (.binary (.name valueTemp) op (.integer 1)) fun s' v v' hs hv => by
      have hone := ScopeMap.eval_simulates hcall hc (.integer 1) (fun _ => trivial) s'
      exact (ScopeMap.name_simulatesIn hn hs hv).bind fun old old' ho =>
        combine_simulatesIn op ho hone
  rw [bind_assoc] at he
  exact he

theorem code_statement :
    w.code p .statement =
      if w.op.isSome && !(p.settle false).1.isEmpty then
        .block ((p.settle false).1 ++ [.store (p.settled (settleKeeps false)).code
          ((p.settled (settleKeeps false)).newValue w.op w.value)])
      else .store p.code (p.newValue w.op w.value) := by
  have ha (op : Option BinaryOp) (value : Code) : p.assign op value .statement =
      if op.isSome && !(p.settle false).1.isEmpty then
        .block ((p.settle false).1 ++ [.store (p.settled (settleKeeps false)).code
          ((p.settled (settleKeeps false)).newValue op value)])
      else .store p.code (p.newValue op value) := by
    rw [← Place.settle_snd]
    cases op with
    | none => rfl
    | some op =>
      simp only [Place.assign, Option.isSome_some, if_true, Bool.true_and, Bool.not_eq_true']
      cases he : (p.settle false).1.isEmpty with
      | false => rfl
      | true =>
        have hs : (p.settle false).2 = p := by
          rw [Place.settle_snd, Place.settled_of_unkept (Place.settle_empty he)]
        simp only [if_true, hs]
        rfl
  cases w with
  | assign op value => exact ha op value
  | update op yield => cases yield <;> exact ha (some op) (.integer 1)

theorem statement_ends (hcall : f.Callers call call') (hn : f.Extra n)
    (hc : f.Chains true c (n :: c)) (ht : temps = f.reserved) (hp : p.code.Avoids f.reserved)
    (hw : w.value.Avoids f.reserved) (ho : w.op.isSome) :
    f.EndsIn s f.Flows (w.asLowered call c p .statement)
      (Code.execAll call' (n :: c) ((p.settle false).1 ++
        [.store (p.settled (settleKeeps false)).code
          ((p.settled (settleKeeps false)).newValue w.op w.value)])) := by
  have he : f.EndsIn s f.Flows (w.asLowered call c p .statement)
      (Code.execAll call' (n :: c) ((p.settle false).1 ++
        [.store (p.settled (settleKeeps false)).code
          ((p.settled (settleKeeps false)).newValue w.op w.value)]) >>= pure) := by
    simp only [asLowered, keeps_statement ho]
    apply Place.keepParts_ends hcall hn hc ht hp
    intro held s' h
    apply ScopeMap.store_ends hc (Place.locateKept_simulatesIn hcall hn hc hp h)
      (fun _ => settledValue_simulatesIn hcall hn hc hp hw h)
    intro _
    exact (ScopeMap.Simulates.pure .next s').ends
  rwa [bind_pure] at he

/-- A write in one statement runs its parts where they stand. -/
theorem asLowered_of_unkept (h : ∀ e ∈ p.parts, w.keeps .statement e = false) :
    w.asLowered call c p .statement =
      (Code.store p.code (p.newValue w.op w.value)).exec call c := by
  have hk : p.keepParts call c (w.keeps .statement) = pure (.nil, .nil) := by
    cases p with
    | «variable» x => rfl
    | field t x =>
      have ht := h t List.mem_cons_self
      simp [Place.keepParts, keepPart, ht]
    | entry t k =>
      have ht := h t List.mem_cons_self
      have hk := h k (List.mem_cons_of_mem t List.mem_cons_self)
      simp [Place.keepParts, keepPart, ht, hk]
  have hl (held : Value × Value) :
      p.locateKept call c (w.keeps .statement) held = p.code.locate call c := by
    cases p with
    | «variable» x => rfl
    | field t x =>
      have ht := h t List.mem_cons_self
      simp [Place.locateKept, Place.code, Code.locate, partValue, ht]
    | entry t k =>
      have ht := h t List.mem_cons_self
      have hk := h k (List.mem_cons_of_mem t List.mem_cons_self)
      simp [Place.locateKept, Place.code, Code.locate, partValue, ht, hk]
  simp only [asLowered, hk, hl, pure_bind, Code.store, Code.exec, Code.locateAll, Code.evalAll,
    storeAll, bind_assoc, Place.newValue_eval]

end Write

end Beside

namespace Write

/-- The machine in which the parts of a write start to run: the function around a write in the place
of a value has taken a closure number. -/
def start (m : Machine) : Use → Machine
  | .statement => m
  | .value => { m with nextClosure := m.nextClosure + 1 }

variable {room : Nat} {c : Chain} {p : Place} {w : Write} {m : Machine}

theorem run_statement_agrees (hm : m.Sound) (hc : ∀ i ∈ c, i < m.scopes.size)
    (hp : p.code.Avoids temps) (hw : w.value.Avoids temps)
    (ho : (w.run (callAt room) c p .statement m).1 ≠ .error .stackOverflow) :
    Agree m.scopes.size (w.asLowered (callAt room) c p .statement m)
      (w.run (callAt room) c p .statement m) := by
  have hrun : w.run (callAt room) c p .statement =
    (w.code p .statement).exec (callAt room) c := rfl
  rw [hrun, code_statement] at ho ⊢
  split at ho
  · next hb =>
    rw [if_pos hb] 
    rw [Bool.and_eq_true] at hb
    have hn : (ScopeMap.gap m.scopes.size temps).Extra m.scopes.size := ScopeMap.gap_extra_iff.2 rfl
    have hcs := ScopeMap.Chains.extra hn (ScopeMap.gap_chains hc).loosen
    have hend := statement_ends (s := ⟨fun _ => .empty, m.depth, 0⟩)
      (ScopeMap.callAt_simulates (le_refl room)) hn hcs rfl hp hw hb.1
    obtain ⟨scopes, hout⟩ := hend m _ (ScopeMap.Machines.open hm temps 0)
    rcases hout with hover | ⟨hms, hr⟩
    · exact absurd hover ho
    · exact ⟨_, _, fun i hi => ScopeMap.gap_image_of_lt hi, rfl, hms, hr⟩
  · next hb =>
    rw [if_neg hb, ← asLowered_of_unkept]
    · exact .refl _ _
    · intro e he
      cases hop : w.op with
      | none => simp [keeps, hop]
      | some op =>
        have hs : w.op.isSome := by rw [hop]; rfl
        rw [hs, Bool.true_and, Bool.not_eq_true, Bool.not_eq_false'] at hb
        rw [keeps_statement hs]
        exact Place.settle_empty hb e he

/-- Without an overflow there was room for the call of the body. -/
theorem immediate_eval (room : Nat) (c : Chain) (body : List Code) (m : Machine)
    (ho : ((Code.immediate body).eval (callAt room) c m).1 ≠ .error .stackOverflow) :
    ∃ room', room = room' + 1 ∧
      let m₁ := { m with nextClosure := m.nextClosure + 1 }
      let o := runBody (callAt room') (m.scopes.size :: c) body
        { m₁ with scopes := m.scopes.push .empty, depth := m.depth + 1 }
      (Code.immediate body).eval (callAt room) c m = (o.1, { o.2 with depth := o.2.depth - 1 }) := by
  cases room with
  | zero => exact absurd rfl ho
  | succ room =>
    rcases Nat.lt_or_ge m.depth maxCallDepth with hd | hd
    · exact ⟨room, rfl, immediate_run room c body hd⟩
    · rw [immediate_overflow room c body hd] at ho
      exact absurd rfl ho

/-- A computation ends like the function around statements that end like it. -/
theorem immediate_ends {α : Type} {V : α → Value → Prop} {reserved : List String} {act : EvalM α}
    {body : List Code} (hm : m.Sound)
    (hends : ∀ room' ≤ room,
      (ScopeMap.gap m.scopes.size reserved).EndsIn ⟨fun _ => .empty, m.depth, 1⟩ V act
        (runBody (callAt room') (m.scopes.size :: c) body))
    (ho : ((Code.immediate body).eval (callAt room) c m).1 ≠ .error .stackOverflow) :
    ∃ s : ScopeMap.Surplus, s.calls = 0 ∧
      (ScopeMap.gap m.scopes.size reserved).Machines s (act (start m .value)).2
        ((Code.immediate body).eval (callAt room) c m).2 ∧
      ScopeMap.Results V (act (start m .value)).1 ((Code.immediate body).eval (callAt room) c m).1 := by
  obtain ⟨room', rfl, hrun⟩ := immediate_eval room c body m ho
  have hm₁ : Machine.Sound { m with nextClosure := m.nextClosure + 1 } :=
    ⟨hm.globals, hm.scopes, hm.tables⟩
  obtain ⟨scopes, hout⟩ :=
    hends room' (Nat.le_succ room') _ _ (ScopeMap.Machines.open hm₁ reserved 1)
  rw [hrun] at ho ⊢
  dsimp only [start] at ho hout ⊢
  rcases hout with hover | ⟨hms, hr⟩
  · exact absurd hover ho
  · exact ⟨⟨scopes, m.depth, 0⟩, rfl, { hms with depth_add := by rw [hms.depth_add]; rfl }, hr⟩

theorem ends_agrees {act : EvalM Flow} {body : List Code} (hm : m.Sound)
    (hends : ∀ room' ≤ room,
      (ScopeMap.gap m.scopes.size temps).EndsIn ⟨fun _ => .empty, m.depth, 1⟩
        (fun w v' => (ScopeMap.gap m.scopes.size temps).Flows w (.returned v')) act
        (runBody (callAt room') (m.scopes.size :: c) body))
    (ho : ((Code.immediate body).eval (callAt room) c m).1 ≠ .error .stackOverflow) :
    Agree m.scopes.size (act (start m .value))
      ((do let v ← (Code.immediate body).eval (callAt room) c; return .returned v : EvalM Flow)
        m) := by
  obtain ⟨s, hs, hms, hr⟩ := immediate_ends hm hends ho
  rw [EvalM.bind_run]
  generalize (Code.immediate body).eval (callAt room) c m = o' at hms hr ⊢
  generalize act _ = o at hms hr ⊢
  obtain ⟨r, n⟩ := o
  obtain ⟨r', n'⟩ := o'
  cases hr with
  | ok hv => exact ⟨_, s, fun i hi => ScopeMap.gap_image_of_lt hi, hs, hms, .ok hv⟩
  | error e => exact ⟨_, s, fun i hi => ScopeMap.gap_image_of_lt hi, hs, hms, .error e⟩

theorem run_value_overflow (ho : (w.run (callAt room) c p .value m).1 ≠ .error .stackOverflow) :
    ((w.code p .value).eval (callAt room) c m).1 ≠ .error .stackOverflow := by
  intro he
  apply ho
  rw [run, EvalM.bind_run_error (Prod.ext he rfl)]

/-- Running the code of a write is like running the write in order, as long as the parts of the
place that the code leaves where they are do not mind what runs before them. -/
theorem run_agrees (use : Use) (hm : m.Sound) (hc : ∀ i ∈ c, i < m.scopes.size)
    (hp : p.code.Avoids temps) (hw : w.value.Avoids temps)
    (hu : p.Undisturbed (callAt room) c (w.keeps use) (w.ahead use) (start m use))
    (ho : (w.run (callAt room) c p use m).1 ≠ .error .stackOverflow) :
    Agree m.scopes.size (w.inOrder (callAt room) c p use (start m use))
      (w.run (callAt room) c p use m) := by
  have hn : (ScopeMap.gap m.scopes.size temps).Extra m.scopes.size := ScopeMap.gap_extra_iff.2 rfl
  have hcs := ScopeMap.Chains.extra hn (ScopeMap.gap_chains hc).loosen
  cases use with
  | statement =>
    have he : w.asLowered (callAt room) c p .statement m = _ := asLowered_statement hu
    rw [start, ← he]
    exact run_statement_agrees hm hc hp hw ho
  | value =>
    have hov := run_value_overflow ho
    have hv : w.run (callAt room) c p .value = (do
        let v ← (w.code p .value).eval (callAt room) c
        return .returned v) := rfl
    rw [hv]
    generalize hb : w.code p .value = code at hov ⊢
    cases hy : w.yield with
    | new =>
      rw [← asLowered_value hu hy]
      obtain ⟨body, rfl⟩ : ∃ body, code = .immediate body := ⟨_, hb ▸ code_value hy⟩
      apply ends_agrees hm _ hov
      intro room' hr
      exact asLowered_ends (ScopeMap.callAt_simulates hr) hn hcs rfl hp hw hy hb
    | old =>
      obtain ⟨op, rfl⟩ : ∃ op, w = .update op .old := by
        cases w with
        | assign op value => cases hy
        | update op yield =>
          cases hy
          exact ⟨op, rfl⟩
      rw [← updateAsLowered_eq hu]
      obtain ⟨body, rfl⟩ : ∃ body, code = .immediate body := ⟨_, hb ▸ code_updateOld op⟩
      apply ends_agrees hm _ hov
      intro room' hr
      exact updateAsLowered_ends (ScopeMap.callAt_simulates hr) hn hcs rfl hp hb

section Rebinding

/-- The variable `a` is a table that holds `x` under `k`. -/
def holder : Machine :=
  { Machine.initial with
    globals := .ofList [("a", .table 0)]
    tables := #[.ofList [(.string "k", .string "x")]] }

theorem holder_sound : holder.Sound where
  globals e he := by
    obtain rfl : e = ("a", .table 0) := List.mem_singleton.1 he
    trivial
  scopes i e he := by
    have hs : holder.scope i = .empty := rfl
    rw [hs] at he
    cases he
  tables id e he := by
    cases id with
    | zero =>
      obtain rfl : e = (.string "k", .string "x") := List.mem_singleton.1 he
      trivial
    | succ id =>
      have ht : holder.table (id + 1) = .empty := rfl
      rw [ht] at he
      cases he

/-- `a[key] = a[key] .. "!"`, where the key is what `body` returns. -/
def slot (body : List Code) : Place := .entry (.name "a") (.immediate body)

def mark : Write := .assign (some .concat) (.string "!")

theorem slot_avoids {body : List Code} (h : Code.AllAvoid temps body) :
    (slot body).code.Avoids temps :=
  ⟨(by decide : "a" ∉ temps), h, trivial⟩

/-- Makes `a` another table and returns `k`. -/
def rebinding : List Code :=
  [.store (.name "a") (.table [.named "k" (.string "y")]), .yields (.string "k")]

theorem run_agrees_at_fixed_table :
    Agree 0
      (mark.inOrder (callAt maxCallDepth) [] (slot [.yields (.string "k")]) .value
        (start holder .value))
      (mark.run (callAt maxCallDepth) [] (slot [.yields (.string "k")]) .value holder) ∧
    (mark.run (callAt maxCallDepth) [] (slot [.yields (.string "k")]) .value holder).1 =
      .ok (.returned (.string "x!")) := by
  have hrun : (mark.run (callAt maxCallDepth) [] (slot [.yields (.string "k")]) .value holder).1 =
      .ok (.returned (.string "x!")) := by cbv
  refine ⟨?_, hrun⟩
  have hp : (slot [.yields (.string "k")]).code.Avoids temps :=
    slot_avoids ⟨⟨trivial, trivial⟩, trivial⟩
  have hc : ∀ i ∈ ([] : Chain), i < holder.scopes.size := fun i hi => absurd hi List.not_mem_nil
  apply run_agrees (w := mark) .value holder_sound hc hp trivial
  · refine ⟨fun _ => ?_, fun h => absurd h (by decide)⟩
    unfold EvalM.Commute
    cbv
  · rw [hrun]
    rintro ⟨⟩

/-- The code reads `a` after its key has moved it. -/
theorem run_disagrees_at_moved_table :
    holder.Sound ∧ (slot rebinding).code.Avoids temps ∧ mark.value.Avoids temps ∧
      (mark.run (callAt maxCallDepth) [] (slot rebinding) .value holder).1 =
        .ok (.returned (.string "y!")) ∧
      ¬ Agree 0
        (mark.inOrder (callAt maxCallDepth) [] (slot rebinding) .value (start holder .value))
        (mark.run (callAt maxCallDepth) [] (slot rebinding) .value holder) := by
  have hrun : (mark.run (callAt maxCallDepth) [] (slot rebinding) .value holder).1 =
      .ok (.returned (.string "y!")) := by cbv
  have hord : (mark.inOrder (callAt maxCallDepth) [] (slot rebinding) .value
      (start holder .value)).1 = .ok (.returned (.string "x!")) := by cbv
  refine ⟨holder_sound, slot_avoids ?_, trivial, hrun, ?_⟩
  · exact ⟨⟨⟨(by decide : "a" ∉ temps), trivial⟩, ⟨trivial, trivial⟩, trivial⟩, ⟨trivial, trivial⟩, trivial⟩
  · rintro ⟨f, s, -, -, -, hr⟩
    rw [hrun, hord] at hr
    cases hr with
    | ok hf =>
      cases hf with
      | returned hv => exact absurd hv.text (by decide)

end Rebinding

end Write

end ScriptToLua.Lowering
