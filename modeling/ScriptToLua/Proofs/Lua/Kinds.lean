import Mathlib
import ScriptToLua.Lowering.Operator
import ScriptToLua.Lowering.Place
import ScriptToLua.Proofs.Lua.Alike
import ScriptToLua.Proofs.Lua.Variables

/-!
The kinds of the values that code yields, where variables hold values of fixed kinds: `Makes.sound`.
Operators that fault on values of the wrong kind rule these values out for what comes after.
-/

namespace ScriptToLua.Lua

open Lowering (valueTemp textOf)

/-- Values of this kind go into a concatenation as they are. -/
def Kind.joins : Kind → Bool
  | .string | .number => true
  | _ => false

namespace BinaryOp

def isArithmetic : BinaryOp → Bool
  | add | sub | mul | div | mod => true
  | _ => false

def isComparison : BinaryOp → Bool
  | lt | gt | le | ge | ne | eq => true
  | _ => false

def isChoice : BinaryOp → Bool
  | or | and => true
  | _ => false

end BinaryOp

/-- Keeps a value in a local variable, writes what is made of it to `x`, and yields what was kept. -/
def Code.keepAndStore (kept : Code) (x : String) (stored : Code) : Code :=
  .immediate [.bindLocal valueTemp kept, .store (.name x) stored, .yields (.name valueTemp)]

/-- Where each variable in `Γ` holds a value of the kind given there, the code has values of the kinds
`K` only, and leaves every variable in `Γ` with a value of its kind. -/
inductive Code.Makes (Γ : String → Option Kind) : Code → Set Kind → Prop
  | nil : Makes Γ .nil {.nil}
  | boolean (b : Bool) : Makes Γ (.boolean b) {.boolean}
  | number (text : String) : Makes Γ (.number text) {.number}
  | string (s : String) : Makes Γ (.string s) {.string}
  | name {x : String} {k : Kind} (h : Γ x = some k) : Makes Γ (.name x) {k}
  | choice {l r : Code} {op : BinaryOp} {K K' : Set Kind} (hop : op.isChoice) (hl : Makes Γ l K)
    (hr : Makes Γ r K') : Makes Γ (.binary l op r) (K ∪ K')
  | comparison {l r : Code} {op : BinaryOp} {K K' : Set Kind} (hop : op.isComparison)
    (hl : Makes Γ l K) (hr : Makes Γ r K') : Makes Γ (.binary l op r) {.boolean}
  | concat {l r : Code} {K K' : Set Kind} (hl : Makes Γ l K) (hr : Makes Γ r K') :
    Makes Γ (.binary l .concat r) {k | k = .string ∧ ∃ j ∈ K', j.joins}
  | arithmetic {l r : Code} {op : BinaryOp} {K K' : Set Kind} (hop : op.isArithmetic)
    (hl : Makes Γ l K) (hr : Makes Γ r K') :
    Makes Γ (.binary l op r) {k | k = .number ∧ .number ∈ K ∧ .number ∈ K'}
  | neg {e : Code} {K : Set Kind} (h : Makes Γ e K) : Makes Γ (.unary .neg e) {.number}
  | not {e : Code} {K : Set Kind} (h : Makes Γ e K) : Makes Γ (.unary .not e) {.boolean}
  | text {e : Code} {K : Set Kind} (h : Makes Γ e K) : Makes Γ (textOf e) {.string}
  | write {e : Code} {K : Set Kind} {x : String} {k : Kind} (hx : Γ x = some k) (h : Makes Γ e K)
    (hk : K ⊆ {k}) : Makes Γ (e.keepAndStore x (.name valueTemp)) K
  | step {x : String} {k : Kind} {op : BinaryOp} (hx : Γ x = some k) (hop : op.isArithmetic) :
    Makes Γ (Code.keepAndStore (.name x) x (.binary (.name valueTemp) op (.integer 1))) {.number}

/-- The scopes of the chain exist, the variables in `Γ` hold values of their kinds, and `tostring` is
the builtin. -/
structure Machine.Holds (Γ : String → Option Kind) (c : Chain) (m : Machine) : Prop where
  scopes : ∀ i ∈ c, i < m.scopes.size
  kinds : ∀ x k, Γ x = some k → ∃ v, m.lookup? c x = some v ∧ v.kind = k
  tostring : m.lookup? c "tostring" = some (.builtin .tostring)
  unshadowed : Γ "tostring" = none

/-- The scopes of the first machine declare the same names in the second. -/
structure Machine.SameNames (m m' : Machine) : Prop where
  size : m.scopes.size ≤ m'.scopes.size
  contains : ∀ i < m.scopes.size, ∀ x, (m'.scope i).contains x = (m.scope i).contains x

theorem Machine.SameNames.refl (m : Machine) : m.SameNames m := ⟨le_rfl, fun _ _ _ => rfl⟩

theorem Machine.SameNames.trans {m m' m'' : Machine} (h : m.SameNames m') (h' : m'.SameNames m'') :
    m.SameNames m'' where
  size := h.size.trans h'.size
  contains i hi x := (h'.contains i (hi.trans_le h.size) x).trans (h.contains i hi x)

/-- Where the computation ends without a fault, the variables have kept their kinds, and the result
has `V`. -/
structure Sound {α : Type} (Γ : String → Option Kind) (c : Chain) (V : α → Prop) (act : EvalM α) :
    Prop where
  run : ∀ m a m', m.Holds Γ c → act m = (.ok a, m') → V a ∧ m'.Holds Γ c ∧ m.SameNames m'

namespace Sound

variable {Γ : String → Option Kind} {c : Chain} {α β : Type} {V : α → Prop} {W : β → Prop}

theorem pure {a : α} (h : V a) : Sound Γ c V (Pure.pure a) := by
  refine ⟨fun m b m' hm hrun => ?_⟩
  cases hrun
  exact ⟨h, hm, .refl m⟩

theorem bind {act : EvalM α} {next : α → EvalM β} (h : Sound Γ c V act)
    (hn : ∀ a, V a → Sound Γ c W (next a)) : Sound Γ c W (act >>= next) := by
  refine ⟨fun m b m' hm hrun => ?_⟩
  obtain ⟨a, m₁, hact, hnext⟩ := EvalM.of_bind_ok hrun
  obtain ⟨hv, hm₁, hs⟩ := h.run m a m₁ hm hact
  obtain ⟨hw, hm', hs'⟩ := (hn a hv).run m₁ b m' hm₁ hnext
  exact ⟨hw, hm', hs.trans hs'⟩

theorem mono {act : EvalM α} {V' : α → Prop} (h : Sound Γ c V act) (hv : ∀ a, V a → V' a) :
    Sound Γ c V' act := by
  refine ⟨fun m a m' hm hrun => ?_⟩
  obtain ⟨ha, hm', hs⟩ := h.run m a m' hm hrun
  exact ⟨hv a ha, hm', hs⟩

theorem fault {e : Fault} : Sound Γ c V (throw e) := ⟨fun _ _ _ _ hrun => by cases hrun⟩

theorem ofExcept {r : Except Fault α} (h : ∀ a, r = .ok a → V a) :
    Sound Γ c V (EvalM.ofExcept r) := by
  cases r with
  | ok a => exact .pure (h a rfl)
  | error e => exact .fault

theorem name {call : Caller} {x : String} {k : Kind} (h : Γ x = some k) :
    Sound Γ c (·.kind = k) ((Code.name x).eval call c) := by
  refine ⟨fun m v m' hm hrun => ?_⟩
  obtain ⟨w, hw, hk⟩ := hm.kinds x k h
  simp only [Code.eval, EvalM.bind_run, EvalM.get_run, EvalM.pure_run, hw] at hrun
  cases hrun
  exact ⟨hk, hm, .refl m⟩

end Sound

section Operators

variable {op : BinaryOp} {a b v : Value}

theorem apply_choice (hop : op.isChoice) (h : op.apply a b = .ok v) : v = a ∨ v = b := by
  cases op with
  | or | and =>
    simp only [BinaryOp.apply, Except.ok.injEq] at h
    split at h
    · first | exact .inl h.symm | exact .inr h.symm
    · first | exact .inr h.symm | exact .inl h.symm
  | _ => cases hop

/-- What an operator yields is one of its operands or no function. -/
theorem apply_cases (h : op.apply a b = .ok v) : v = a ∨ v = b ∨ ∀ f, v ≠ .function f := by
  by_cases hop : op.isChoice
  · rcases apply_choice hop h with hv | hv
    · exact .inl hv
    · exact .inr (.inl hv)
  · refine .inr (.inr (BinaryOp.apply_ne_function ?_ ?_ h))
    · rintro rfl
      exact hop rfl
    · rintro rfl
      exact hop rfl

/-- All operators but `and` and `or` take both operands. -/
theorem settledBy_of_comparison (hop : op.isComparison) : op.settledBy a = false := by
  cases op <;> first | rfl | cases hop

theorem settledBy_of_arithmetic (hop : op.isArithmetic) : op.settledBy a = false := by
  cases op <;> first | rfl | cases hop

theorem apply_comparison (hop : op.isComparison) (h : op.apply a b = .ok v) : v.kind = .boolean := by
  have hcompare {op : BinaryOp} (h : op.compare a b = .ok v) : v.kind = .boolean := by
    unfold BinaryOp.compare at h
    split at h <;> cases h <;> rfl
  cases op with
  | eq | ne =>
    cases h
    rfl
  | lt | gt | le | ge => exact hcompare h
  | _ => cases hop

theorem apply_concat (h : BinaryOp.concat.apply a b = .ok v) : v.kind = .string ∧ b.kind.joins := by
  simp only [BinaryOp.apply] at h
  cases ha : a.concatText? with
  | error e =>
    rw [ha] at h
    cases h
  | ok s =>
    cases hb : b.concatText? with
    | error e =>
      rw [ha, hb] at h
      cases h
    | ok t =>
      rw [ha, hb] at h
      cases h
      refine ⟨rfl, ?_⟩
      cases b with
      | string _ | number _ => rfl
      | _ => cases hb

theorem kind_of_arithmetic {x : Float} (h : a.arithmetic? = .ok x) : a.kind = .number := by
  cases a with
  | number _ => rfl
  | _ => cases h

theorem apply_arithmetic (hop : op.isArithmetic) (h : op.apply a b = .ok v) :
    v.kind = .number ∧ a.kind = .number ∧ b.kind = .number := by
  have hnumbers (h : (do
      let x ← a.arithmetic?
      let y ← b.arithmetic?
      return Value.number (op.arithmetic x y)) = .ok v) :
      v.kind = .number ∧ a.kind = .number ∧ b.kind = .number := by
    cases ha : a.arithmetic? with
    | error e =>
      rw [ha] at h
      cases h
    | ok x =>
      cases hb : b.arithmetic? with
      | error e =>
        rw [ha, hb] at h
        cases h
      | ok y =>
        rw [ha, hb] at h
        cases h
        exact ⟨rfl, kind_of_arithmetic ha, kind_of_arithmetic hb⟩
  cases op with
  | add | sub | mul | div | mod => exact hnumbers h
  | _ => cases hop

end Operators

namespace Sound

variable {Γ : String → Option Kind} {c : Chain} {call : Caller} {K K' : Set Kind}

theorem binary {l r : Code} {op : BinaryOp} {V : Value → Prop}
    (hl : Sound Γ c (·.kind ∈ K) (l.eval call c)) (hr : Sound Γ c (·.kind ∈ K') (r.eval call c))
    (hsettled : ∀ a, a.kind ∈ K → op.settledBy a → V a)
    (happly : ∀ a b v, a.kind ∈ K → b.kind ∈ K' → op.apply a b = .ok v → V v) :
    Sound Γ c V ((Code.binary l op r).eval call c) := by
  simp only [Code.eval]
  refine hl.bind fun a ha => ?_
  split
  · next h => exact .pure (hsettled a ha h)
  · exact hr.bind fun b hb => .ofExcept fun v hv => happly a b v ha hb hv

theorem neg {e : Code} {V : Value → Prop} (h : Sound Γ c V (e.eval call c)) :
    Sound Γ c (·.kind = .number) ((Code.unary .neg e).eval call c) := by
  simp only [Code.eval]
  refine h.bind fun v _ => ?_
  cases v with
  | number x => exact .pure rfl
  | _ => exact .fault

theorem not {e : Code} {V : Value → Prop} (h : Sound Γ c V (e.eval call c)) :
    Sound Γ c (·.kind = .boolean) ((Code.unary .not e).eval call c) := by
  simp only [Code.eval]
  exact h.bind fun v _ => .pure rfl

/-- The builtin makes a string of everything. -/
theorem text {e : Code} {V : Value → Prop} {room : Nat} (h : Sound Γ c V (e.eval (callAt room) c)) :
    Sound Γ c (·.kind = .string) ((textOf e).eval (callAt room) c) := by
  have hname : Sound Γ c (· = .builtin .tostring)
      ((Code.name "tostring").eval (callAt room) c) := by
    refine ⟨fun m v m' hm hrun => ?_⟩
    simp only [Code.eval, EvalM.bind_run, EvalM.get_run, EvalM.pure_run, hm.tostring] at hrun
    cases hrun
    exact ⟨rfl, hm, .refl m⟩
  rw [textOf, Code.eval]
  refine hname.bind ?_
  rintro _ rfl
  simp only [Code.evalAll, bind_assoc, pure_bind]
  refine h.bind fun v _ => ?_
  unfold callAt
  exact .pure rfl

end Sound

section KeepAndStore

variable {Γ : String → Option Kind} {c : Chain} {m m' : Machine} {n : ScopeId} {x : String}
  {k : Kind} {u v w : Value} {room : Nat} {body : List Code}

theorem immediate_ok (h : (Code.immediate body).eval (callAt room) c m = (.ok v, m')) :
    ∃ room' m₂, runBody (callAt room') (m.scopes.size :: c) body
        { m with
          scopes := m.scopes.push .empty
          nextClosure := m.nextClosure + 1
          depth := m.depth + 1 } = (.ok v, m₂) ∧ m' = { m₂ with depth := m₂.depth - 1 } := by
  cases room with
  | zero => cases h
  | succ room =>
    by_cases hd : m.depth < maxCallDepth
    · rw [immediate_run room c body hd] at h
      obtain ⟨hv, hm⟩ := Prod.mk.inj h
      exact ⟨room, _, Prod.ext hv rfl, hm.symm⟩
    · rw [immediate_overflow room c body (Nat.not_lt.1 hd)] at h
      cases h

theorem keepAndStore_body (call : Caller) (c : Chain) (kept : Code) (x : String) (stored : Code) :
    runBody call c [.bindLocal valueTemp kept, .store (.name x) stored, .yields (.name valueTemp)] =
      (do
        let w ← kept.eval call c
        modify fun m => m.declare c valueTemp w
        let u ← stored.eval call c
        modify fun m => m.assign c x u
        return ((← get).lookup? c valueTemp).getD .nil) := by
  simp only [runBody, Code.bindLocal, Code.store, Code.yields, Code.execAll, Code.exec, Code.evalAll,
    Code.locateAll, Code.locate, storeAll, store, Machine.declareAll, Code.eval, bind_assoc, pure_bind]

namespace Machine.Holds

theorem openScope (h : m.Holds Γ c) (hs : m'.scopes = m.scopes.push .empty)
    (hg : m'.globals = m.globals) : m'.Holds Γ (m.scopes.size :: c) where
  scopes i hi := by
    rw [hs, Array.size_push]
    rcases List.mem_cons.1 hi with rfl | hi
    · exact Nat.lt_succ_self _
    · exact Nat.lt_succ_of_lt (h.scopes i hi)
  kinds x k hx := by
    rw [Machine.lookup?_push hs hg]
    exact h.kinds x k hx
  tostring := by
    rw [Machine.lookup?_push hs hg]
    exact h.tostring
  unshadowed := h.unshadowed

theorem leaveScope (h : m.Holds Γ (n :: c)) (hn : ∀ x, (m.scope n).contains x = false) :
    m.Holds Γ c where
  scopes i hi := h.scopes i (List.mem_cons_of_mem n hi)
  kinds x k hx := by
    rw [← Machine.lookup?_cons (hn x)]
    exact h.kinds x k hx
  tostring := by
    rw [← Machine.lookup?_cons (hn "tostring")]
    exact h.tostring
  unshadowed := h.unshadowed

/-- All that matters of a machine are the scopes of the chain and what they hold. -/
theorem congr (h : m.Holds Γ c) (hsize : m.scopes.size ≤ m'.scopes.size)
    (hl : ∀ x, m'.lookup? c x = m.lookup? c x) : m'.Holds Γ c where
  scopes i hi := (h.scopes i hi).trans_le hsize
  kinds x k hx := by
    rw [hl]
    exact h.kinds x k hx
  tostring := by
    rw [hl]
    exact h.tostring
  unshadowed := h.unshadowed

theorem assign (h : m.Holds Γ c) (hx : Γ x = some k) (hu : u.kind = k) :
    (m.assign c x u).Holds Γ c where
  scopes i hi := by
    rw [Machine.size_assign]
    exact h.scopes i hi
  kinds y k' hy := by
    rw [Machine.lookup?_assign]
    split
    · next he =>
      subst he
      exact ⟨u, rfl, hu.trans (Option.some.inj (hx.symm.trans hy))⟩
    · exact h.kinds y k' hy
  tostring := by
    rw [Machine.lookup?_assign, if_neg]
    · exact h.tostring
    · rintro rfl
      cases h.unshadowed.symm.trans hx
  unshadowed := h.unshadowed

end Machine.Holds

/-- The local variable lives in a scope of its own, so the variables around it see nothing but the
write to `x`. -/
theorem holds_of_keepAndStore (h : m.Holds Γ c) (hn : n ∉ c) (hx : Γ x = some k)
    (hu : u.kind = k) :
    ((m.declare (n :: c) valueTemp w).assign (n :: c) x u).Holds Γ c := by
  have hsize : (m.declare (n :: c) valueTemp w).scopes.size = m.scopes.size := Array.size_modify
  have hdeclared : (m.declare (n :: c) valueTemp w).Holds Γ c :=
    h.congr hsize.ge fun y => Machine.lookup?_declare_of_not_mem hn c
  by_cases howner : (m.declare (n :: c) valueTemp w).owner? (n :: c) x = some n
  · refine hdeclared.congr ?_ fun y => ?_
    · rw [Machine.size_assign]
    · rw [Machine.assign, howner]
      exact Machine.lookup?_declare_of_not_mem hn []
  · have hlets : ((m.declare (n :: c) valueTemp w).scope n).contains x = false := by
      rw [Bool.eq_false_iff]
      intro hc
      apply howner
      rw [Machine.owner?, List.find?_cons, hc]
    have hassign : (m.declare (n :: c) valueTemp w).assign (n :: c) x u =
        (m.declare (n :: c) valueTemp w).assign c x u := by
      rw [Machine.assign, Machine.owner?_cons hlets, Machine.assign]
    rw [hassign]
    exact hdeclared.assign hx hu

namespace Sound

variable {K : Set Kind}

/-- Keeps a value with `V`, stores one of the variable's kind, and yields one of the two. -/
theorem keepAndStore {kept stored : Code} {V : Value → Prop} (hx : Γ x = some k)
    (hkept : ∀ room c, Sound Γ c V (kept.eval (callAt room) c))
    (hstored : ∀ room c m w, m.lookup? c valueTemp = some w → V w → ∀ u m',
      stored.eval (callAt room) c m = (.ok u, m') →
        m' = m ∧ u.kind = k ∧ u.kind ∈ K ∧ w.kind ∈ K) :
    Sound Γ c (·.kind ∈ K) ((kept.keepAndStore x stored).eval (callAt room) c) := by
  refine ⟨fun m v m' hm hrun => ?_⟩
  obtain ⟨room', m₂, hbody, rfl⟩ := immediate_ok hrun
  rw [keepAndStore_body] at hbody
  generalize hinner : ({
    m with
    scopes := m.scopes.push .empty
    nextClosure := m.nextClosure + 1
    depth := m.depth + 1 } : Machine) = inner at hbody
  have hscopes : inner.scopes = m.scopes.push .empty := hinner ▸ rfl
  have hglobals : inner.globals = m.globals := hinner ▸ rfl
  have hsize : inner.scopes.size = m.scopes.size + 1 := by rw [hscopes, Array.size_push]
  obtain ⟨w, m₁, hw, hbody⟩ := EvalM.of_bind_ok hbody
  rw [EvalM.bind_run_ok (EvalM.modify_run _ _)] at hbody
  obtain ⟨u, m₃, hu, hbody⟩ := EvalM.of_bind_ok hbody
  rw [EvalM.bind_run_ok (EvalM.modify_run _ _)] at hbody
  obtain ⟨hV, hholds, hsame⟩ := (hkept room' _).run _ w m₁ (hm.openScope hscopes hglobals) hw
  have hn : m.scopes.size < m₁.scopes.size := Nat.lt_of_lt_of_le (by omega) hsame.size
  have hlet := Machine.lookup?_declare hn c valueTemp w
  obtain ⟨rfl, huk, huK, hwK⟩ := hstored room' _ _ w hlet hV u m₃ hu
  have hout : m.scopes.size ∉ c := fun hmem => (hm.scopes _ hmem).false
  have hnone (y : String) : (m₁.scope m.scopes.size).contains y = false := by
    rw [hsame.contains _ (by omega), Machine.scope, hscopes, Array.getElem?_push_size]
    rfl
  simp only [EvalM.bind_run, EvalM.get_run, EvalM.pure_run, Machine.lookup?_assign, hlet] at hbody
  obtain ⟨hv, rfl⟩ := Prod.mk.inj hbody
  refine ⟨?_, ?_, ?_⟩
  · obtain rfl := Except.ok.inj hv
    split
    · exact huK
    · exact hwK
  · have hend := holds_of_keepAndStore (w := w) (hholds.leaveScope hnone) hout hx huk
    exact hend.congr le_rfl fun _ => rfl
  · have hpush (i : ScopeId) : inner.scope i = m.scope i := by
      rw [Machine.scope, hscopes, Machine.scope_push]
    refine ⟨?_, fun i hi y => ?_⟩
    · change m.scopes.size ≤ ((m₁.declare _ valueTemp w).assign _ x u).scopes.size
      rw [Machine.size_assign]
      exact hn.le.trans_eq Array.size_modify.symm
    · change (((m₁.declare _ valueTemp w).assign _ x u).scope i).contains y = _
      rw [Machine.contains_assign, Machine.scope_declare, if_neg fun h => hi.ne' h.1,
        hsame.contains i (by omega), hpush]

end Sound

end KeepAndStore

/-- Code yields what its rules say, however many calls are still allowed and whatever scopes are
around it. -/
theorem Code.Makes.sound {Γ : String → Option Kind} {e : Code} {K : Set Kind} (h : e.Makes Γ K)
    (room : Nat) (c : Chain) : Sound Γ c (·.kind ∈ K) (e.eval (callAt room) c) := by
  induction h generalizing room c with
  | nil | boolean b | string s =>
    simp only [Code.eval]
    exact .pure rfl
  | number text =>
    simp only [Code.eval]
    cases floatOf? text with
    | some x => exact .pure rfl
    | none => exact .fault
  | name h => exact .name h
  | choice hop _ _ ihl ihr =>
    refine (ihl room c).binary (ihr room c) (fun a ha _ => .inl ha) fun a b v ha hb hv => ?_
    rcases apply_choice hop hv with rfl | rfl
    · exact .inl ha
    · exact .inr hb
  | comparison hop _ _ ihl ihr =>
    refine (ihl room c).binary (ihr room c) (fun a _ hs => ?_) fun a b v _ _ hv =>
      apply_comparison hop hv
    cases (settledBy_of_comparison hop).symm.trans hs
  | concat _ _ ihl ihr =>
    refine (ihl room c).binary (ihr room c) (fun _ _ hs => by cases hs) fun a b v _ hb hv => ?_
    obtain ⟨hk, hj⟩ := apply_concat hv
    exact ⟨hk, b.kind, hb, hj⟩
  | arithmetic hop _ _ ihl ihr =>
    refine (ihl room c).binary (ihr room c) (fun a _ hs => ?_) fun a b v ha hb hv => ?_
    · cases (settledBy_of_arithmetic hop).symm.trans hs
    · obtain ⟨hk, hleft, hright⟩ := apply_arithmetic hop hv
      exact ⟨hk, hleft ▸ ha, hright ▸ hb⟩
  | neg _ ih => exact (ih room c).neg
  | not _ ih => exact (ih room c).not
  | text _ ih => exact (ih room c).text
  | write hx _ hk ih =>
    refine .keepAndStore hx (fun room c => ih room c) fun room c m w hw hK u m' hrun => ?_
    simp only [Code.eval, EvalM.bind_run, EvalM.get_run, EvalM.pure_run, hw] at hrun
    cases hrun
    exact ⟨rfl, hk hK, hK, hK⟩
  | step hx hop =>
    refine .keepAndStore hx (fun room c => .name hx) fun room c m w hw hk u m' hrun => ?_
    simp only [Code.eval, Code.integer, EvalM.bind_run, EvalM.get_run, EvalM.pure_run, hw,
      Option.getD_some, settledBy_of_arithmetic hop, Bool.false_eq_true, if_false] at hrun
    generalize floatOf? (toString (1 : Int)) = one at hrun
    cases one with
    | none => cases hrun
    | some x =>
      simp only [EvalM.pure_run, EvalM.ofExcept_run] at hrun
      obtain ⟨happly, rfl⟩ := Prod.mk.inj hrun
      obtain ⟨hu, hnumber, -⟩ := apply_arithmetic hop happly
      exact ⟨rfl, hu.trans (hnumber.symm.trans hk), hu, hnumber⟩

end ScriptToLua.Lua
