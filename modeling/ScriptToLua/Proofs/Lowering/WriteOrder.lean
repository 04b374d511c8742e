import Mathlib
import ScriptToLua.Lowering.Place
import ScriptToLua.Proofs.Lua.Frame
import ScriptToLua.Proofs.Lua.Purity

/-!
The order in which writes are evaluated. A write ought to evaluate its table, then its key, then for
a compound write the old value, then the value, and then write. The code for it does so, except that
a part of the place which it leaves where it is runs after parts and values that it moves to the
front: `Write.run_agrees`. This makes a difference only to a table that the key may change, or where
two faults change places: `Write.undisturbed`.
-/

namespace ScriptToLua.Lua

/-- What a location holds. -/
def Location.read (c : Chain) : Location → EvalM Value
  | .variable x => return ((← get).lookup? c x).getD .nil
  | .entry t k => EvalM.index t k

/-- The result of an operator; `and` and `or` may not need their right operand. -/
def BinaryOp.combine (op : BinaryOp) (a : Value) (right : EvalM Value) : EvalM Value := do
  if op.settledBy a then return a
  let b ← right
  EvalM.ofExcept (op.apply a b)

namespace EvalM

variable {α β γ : Type} {a : EvalM α} {b : EvalM β} {m : Machine}

/-- From `m` it makes no difference which of two computations runs first. -/
def Commute (a : EvalM α) (b : EvalM β) (m : Machine) : Prop :=
  (do let x ← a; let y ← b; return (x, y)) m = (do let y ← b; let x ← a; return (x, y)) m

theorem Commute.bind (h : Commute a b m) (next : α → β → EvalM γ) :
    (do let x ← a; let y ← b; next x y) m = (do let y ← b; let x ← a; next x y) m := by
  have hl : (do let x ← a; let y ← b; next x y) =
      (do let x ← a; let y ← b; return (x, y)) >>= fun z => next z.1 z.2 := by
    simp only [bind_assoc, pure_bind]
  have hr : (do let y ← b; let x ← a; next x y) =
      (do let y ← b; let x ← a; return (x, y)) >>= fun z => next z.1 z.2 := by
    simp only [bind_assoc, pure_bind]
  rw [hl, hr]
  exact bind_run_congr h fun _ _ _ => rfl

theorem Commute.pure_right (a : EvalM α) (y : β) (m : Machine) : Commute a (pure y) m := by
  simp only [Commute, pure_bind]

theorem Commute.pure_left (x : α) (b : EvalM β) (m : Machine) : Commute (pure x) b m := by
  simp only [Commute, pure_bind]

/-- Two computations that only read may run in either order, unless both fault. -/
theorem Reads.commute {x : α} (ha : Reads a) (hb : Reads b) (hx : (a m).1 = .ok x) :
    Commute a b m := by
  have hrun : a m = (.ok x, m) := Prod.ext hx (ha m)
  rw [Commute, bind_run_ok hrun]
  refine bind_run_congr rfl fun y m' hy => ?_
  have hm : m' = m := (congrArg Prod.snd hy).symm.trans (hb m)
  rw [hm, bind_run_ok hrun]

/-- After `b`, running `a` again would give what it gave before. -/
def Steady (a : EvalM α) (b : α → EvalM β) : Prop :=
  ∀ m m' x, a m = (.ok x, m') → ∀ y n, b x m' = (.ok y, n) → a n = (.ok x, n)

theorem Steady.bind {b : α → EvalM β} (h : Steady a b) (next : α → β → α → EvalM γ) :
    (do let x ← a; let y ← b x; let x' ← a; next x y x') =
      (do let x ← a; let y ← b x; next x y x) := by
  funext m
  refine bind_run_congr rfl fun x m' hx => bind_run_congr rfl fun y n hy => ?_
  rw [bind_run_ok (h m m' x hx y n hy)]

theorem Reads.steady {b : α → EvalM β} (ha : Reads a) (hb : ∀ x, Reads (b x)) : Steady a b := by
  intro m m' x hx y n hy
  have hm : m' = m := by
    have h := ha m
    rwa [hx] at h
  have hn : n = m' := by
    have h := hb x m'
    rwa [hy] at h
  rw [hn, hm]
  exact hm ▸ hx

/-- The computation ends the same on every machine. -/
def Constant (a : EvalM α) : Prop := ∃ r, a = ofExcept r

theorem Constant.pure (x : α) : Constant (pure x) := ⟨.ok x, rfl⟩

theorem Constant.bind {b : α → EvalM β} (ha : Constant a) (hb : ∀ x, Constant (b x)) :
    Constant (a >>= b) := by
  obtain ⟨r, rfl⟩ := ha
  cases r with
  | ok x => exact hb x
  | error e => exact ⟨.error e, rfl⟩

theorem Constant.steady (ha : Constant a) (b : α → EvalM β) : Steady a b := by
  obtain ⟨r, rfl⟩ := ha
  intro m m' x hx y n _
  rw [ofExcept_run, Prod.mk.injEq] at hx
  rw [ofExcept_run, hx.1]

end EvalM

theorem Code.eval_constant (call : Caller) (c : Chain) {e : Code} (h : e.isLiteral) :
    EvalM.Constant (e.eval call c) := by
  cases e with
  | nil => exact ⟨.ok .nil, rfl⟩
  | boolean b => exact ⟨.ok (.boolean b), rfl⟩
  | string s => exact ⟨.ok (.string s), rfl⟩
  | number text =>
    simp only [Code.eval]
    split
    · exact ⟨.ok _, rfl⟩
    · exact ⟨.error _, rfl⟩
  | _ => simp [Code.isLiteral] at h

theorem Code.evalAll_reads (call : Caller) (c : Chain) {es : List Code} (h : ∀ e ∈ es, e.isPure) :
    EvalM.Reads (Code.evalAll call c es) := by
  induction es with
  | nil => exact .pure []
  | cons e es ih =>
    simp only [Code.evalAll]
    refine (Code.eval_reads call c e (h e List.mem_cons_self)).bind fun _ => ?_
    exact (ih fun e' he' => h e' (List.mem_cons_of_mem e he')).bind fun _ => .pure _

/-- Pure code that yields a value may run after code that is pure too; a literal may run after any. -/
theorem Code.eval_commute {call : Caller} {c : Chain} {e : Code} {es : List Code} {m : Machine}
    (h : es = [] ∨ e.isPure ∧ ((∀ e' ∈ es, e'.isPure) ∨ e.isLiteral))
    (hok : e.isPure → ∃ v, (e.eval call c m).1 = .ok v) :
    EvalM.Commute (e.eval call c) (Code.evalAll call c es) m := by
  rcases h with rfl | ⟨hpure, hes | hliteral⟩
  · exact .pure_right _ [] m
  · obtain ⟨v, hv⟩ := hok hpure
    exact (Code.eval_reads call c e hpure).commute (Code.evalAll_reads call c hes) hv
  · obtain ⟨v, hv⟩ := hok hpure
    obtain ⟨r, hr⟩ := Code.eval_constant call c hliteral
    rw [hr, EvalM.ofExcept_run] at hv
    obtain rfl : r = .ok v := hv
    rw [hr]
    exact .pure_left v _ m

end ScriptToLua.Lua

namespace ScriptToLua.Lowering

open Lua

/-- The names of the local variables that writes use. -/
def temps : List String := [objectTemp, indexTemp, valueTemp]

/-- How a write ends that stands for `v`. -/
def Use.flow : Use → Value → Flow
  | .statement, _ => .next
  | .value, v => .returned v

/-- A write without the place it writes to. -/
inductive Write where
  | assign (op : Option BinaryOp) (value : Code)
  | update (op : BinaryOp) (yield : Yield)

namespace Write

variable (call : Caller) (c : Chain) (p : Place) (w : Write) (use : Use)

def op : Write → Option BinaryOp
  | .assign op _ => op
  | .update op _ => some op

def value : Write → Code
  | .assign _ value => value
  | .update _ _ => .integer 1

def yield : Write → Yield
  | .assign _ _ => .new
  | .update _ yield => yield

/-- The code of the write. -/
def code : Code :=
  match w with
  | .assign op value => p.assign op value use
  | .update op yield => p.update op yield use

/-- Runs the code of the write where it stands. -/
def run : EvalM Flow :=
  match use with
  | .statement => (w.code p .statement).exec call c
  | .value => do
    let v ← (w.code p .value).eval call c
    return .returned v

/-- The write in the order in which its parts are written. -/
def inOrder : EvalM Flow := do
  let l ← p.code.locate call c
  match w.op with
  | none =>
    let v ← w.value.eval call c
    store c l v
    return use.flow v
  | some op =>
    let old ← l.read c
    let v ← op.combine old (w.value.eval call c)
    store c l v
    return use.flow (match w.yield with | .old => old | .new => v)

/-- Whether the code of the write keeps a part of its place in a local variable. -/
def keeps (e : Code) : Bool :=
  match use with
  | .statement => w.op.isSome && !e.isPure
  | .value => !e.isPure || (!w.value.isPure && !e.isLiteral)

/-- The code after the place that runs before any part of the place which is not kept. -/
def ahead : List Code :=
  match use, w.op with
  | .value, none => [w.value]
  | _, _ => []

end Write

/-- The parts of a place that stay where they are do the same whether or not what is kept of the
parts after them, and the code in `after`, runs first. -/
def Place.Undisturbed (call : Caller) (c : Chain) (keeps : Code → Bool) (after : List Code)
    (m : Machine) : Place → Prop
  | .variable _ => True
  | .field t _ => !keeps t → EvalM.Commute (t.eval call c) (Code.evalAll call c after) m
  | .entry t k =>
    (!keeps t → EvalM.Commute (t.eval call c)
      (Code.evalAll call c (if keeps k then k :: after else after)) m) ∧
    (!keeps k → ∀ v m', t.eval call c m = (.ok v, m') →
      EvalM.Commute (k.eval call c) (Code.evalAll call c after) m')

/-- The parts of the place that only read yield values where they are reached. -/
def Place.PartsOk (call : Caller) (c : Chain) (m : Machine) : Place → Prop
  | .variable _ => True
  | .field t _ => t.isPure → ∃ v, (t.eval call c m).1 = .ok v
  | .entry t k =>
    (t.isPure → ∃ v, (t.eval call c m).1 = .ok v) ∧
    (k.isPure → ∀ v m', t.eval call c m = (.ok v, m') → ∃ w, (k.eval call c m').1 = .ok w)

/-- The key cannot make the table another one. -/
def Place.TableStays : Place → Prop
  | .entry t k => k.isPure ∨ t.isPure = false ∨ t.isLiteral
  | _ => True

section Kept

variable (call : Caller) (c : Chain) (keeps : Code → Bool)

/-- The value of a part that is kept. -/
def keepPart (e : Code) : EvalM Value := if keeps e then e.eval call c else pure .nil

/-- The value of a part, which is `v` if the part was kept. -/
def partValue (e : Code) (v : Value) : EvalM Value := if keeps e then pure v else e.eval call c

namespace Place

/-- Runs the parts of a place that are kept. -/
def keepParts : Place → EvalM (Value × Value)
  | .variable _ => return (.nil, .nil)
  | .field t _ => do
    let v ← keepPart call c keeps t
    return (v, .nil)
  | .entry t k => do
    let v ← keepPart call c keeps t
    let w ← keepPart call c keeps k
    return (v, w)

/-- Runs the other parts. -/
def locateKept (held : Value × Value) : Place → EvalM Location
  | .variable x => return .variable x
  | .field t x => do
    let v ← partValue call c keeps t held.1
    return .entry v (.string x)
  | .entry t k => do
    let v ← partValue call c keeps t held.1
    let w ← partValue call c keeps k held.2
    return .entry v w

end Place

variable {call c keeps}

/-- Keeping parts first, with `after` before the others, is as good as the written order. -/
theorem locateKept_order {p : Place} {after : List Code} {m : Machine}
    (h : p.Undisturbed call c keeps after m) {α : Type}
    (next : Location → List Value → EvalM α) :
    (do
      let held ← p.keepParts call c keeps
      let ys ← Code.evalAll call c after
      let l ← p.locateKept call c keeps held
      next l ys) m =
    (do
      let l ← p.code.locate call c
      let ys ← Code.evalAll call c after
      next l ys) m := by
  match p, h with
  | .variable x, _ =>
    simp only [Place.keepParts, Place.locateKept, Place.code, Code.locate, pure_bind]
  | .field t x, h =>
    simp only [Place.keepParts, Place.locateKept, Place.code, Code.locate, bind_assoc, pure_bind]
    by_cases ht : keeps t = true
    · simp only [keepPart, partValue, if_pos ht, pure_bind]
    · simp only [keepPart, partValue, if_neg ht, pure_bind]
      exact ((h (by simpa using ht)).bind fun v ys => next (.entry v (.string x)) ys).symm
  | .entry t k, ⟨h1, h2⟩ =>
    simp only [Place.keepParts, Place.locateKept, Place.code, Code.locate, bind_assoc, pure_bind]
    by_cases ht : keeps t = true
    · by_cases hk : keeps k = true
      · simp only [keepPart, partValue, if_pos ht, if_pos hk, pure_bind]
      · simp only [keepPart, partValue, if_pos ht, if_neg hk, pure_bind]
        apply EvalM.bind_run_congr rfl
        intro v m' hv
        exact ((h2 (by simpa using hk) v m' hv).bind fun w ys => next (.entry v w) ys).symm
    · have h1 := h1 (by simpa using ht)
      by_cases hk : keeps k = true
      · rw [if_pos hk] at h1
        have hs := h1.bind fun v ws => next (.entry v (ws.headD .nil)) ws.tail
        simp only [Code.evalAll, bind_assoc, pure_bind, List.headD_cons, List.tail_cons] at hs
        simp only [keepPart, partValue, if_neg ht, if_pos hk, pure_bind]
        exact hs.symm
      · rw [if_neg hk] at h1
        simp only [keepPart, partValue, if_neg ht, if_neg hk, pure_bind]
        have hs := h1.bind fun v ys => do
          let w ← k.eval call c
          next (.entry v w) ys
        refine hs.symm.trans (EvalM.bind_run_congr rfl ?_)
        intro v m' hv
        exact ((h2 (by simpa using hk) v m' hv).bind fun w ys => next (.entry v w) ys).symm

theorem partValue_reads (hk : ∀ e, keeps e = false → e.isPure) (e : Code) (v : Value) :
    EvalM.Reads (partValue call c keeps e v) := by
  unfold partValue
  split
  · exact .pure v
  · next h => exact Code.eval_reads call c e (hk e (by simpa using h))

theorem partValue_constant (hk : ∀ e, keeps e = false → e.isLiteral) (e : Code) (v : Value) :
    EvalM.Constant (partValue call c keeps e v) := by
  unfold partValue
  split
  · exact .pure v
  · next h => exact Code.eval_constant call c (hk e (by simpa using h))

theorem locateKept_reads (hk : ∀ e, keeps e = false → e.isPure) (p : Place)
    (held : Value × Value) : EvalM.Reads (p.locateKept call c keeps held) := by
  match p with
  | .variable x => exact .pure _
  | .field t x => exact (partValue_reads hk t _).bind fun _ => .pure _
  | .entry t k =>
    exact (partValue_reads hk t _).bind fun _ => (partValue_reads hk k _).bind fun _ => .pure _

theorem locateKept_constant (hk : ∀ e, keeps e = false → e.isLiteral) (p : Place)
    (held : Value × Value) : EvalM.Constant (p.locateKept call c keeps held) := by
  match p with
  | .variable x => exact .pure _
  | .field t x => exact (partValue_constant hk t _).bind fun _ => .pure _
  | .entry t k =>
    exact (partValue_constant hk t _).bind fun _ =>
      (partValue_constant hk k _).bind fun _ => .pure _

end Kept

theorem Location.read_reads (c : Chain) (l : Location) : EvalM.Reads (l.read c) := by
  cases l with
  | «variable» x => exact fun _ => rfl
  | entry t k => exact .index t k

theorem combine_reads (op : BinaryOp) (a : Value) {right : EvalM Value} (h : EvalM.Reads right) :
    EvalM.Reads (op.combine a right) := by
  unfold BinaryOp.combine
  split
  · exact .pure a
  · exact h.bind fun _ => .ofExcept _

namespace Write

section Account

variable (call : Caller) (c : Chain) (p : Place) (w : Write)

/-- What the code of the write writes, if it reads the old value by `read`. -/
def newValue (read : EvalM Value) : EvalM Value :=
  match w.op with
  | none => w.value.eval call c
  | some op => do
    let old ← read
    op.combine old (w.value.eval call c)

/-- The write in the order of its code, which runs parts that it does not keep where they stand. -/
def asLowered : Use → EvalM Flow
  | .statement => do
    let held ← p.keepParts call c (w.keeps .statement)
    let l ← p.locateKept call c (w.keeps .statement) held
    let v ← w.newValue call c do
      let l ← p.locateKept call c (w.keeps .statement) held
      l.read c
    store c l v
    return .next
  | .value => do
    let held ← p.keepParts call c (w.keeps .value)
    let v ← w.newValue call c do
      let l ← p.locateKept call c (w.keeps .value) held
      l.read c
    let l ← p.locateKept call c (w.keeps .value) held
    store c l v
    return .returned v

/-- An update in the order of its code, if it stands for the value before. -/
def updateAsLowered (op : BinaryOp) : EvalM Flow := do
  let keeps := (update op .old).keeps .value
  let held ← p.keepParts call c keeps
  let old ← do
    let l ← p.locateKept call c keeps held
    l.read c
  let l ← p.locateKept call c keeps held
  let v ← op.combine old ((Code.integer 1).eval call c)
  store c l v
  return .returned old

end Account

variable {call : Caller} {c : Chain} {p : Place} {w : Write} {m : Machine}

theorem isPure_of_keeps {use : Use} (hw : use = .statement → w.op.isSome) (e : Code)
    (h : w.keeps use e = false) : e.isPure := by
  cases use with
  | statement => simpa [keeps, hw rfl] using h
  | value =>
    simp only [keeps, Bool.or_eq_false_iff] at h
    simpa using h.1

theorem isLiteral_of_keeps (hv : w.value.isPure = false) (e : Code)
    (h : w.keeps .value e = false) : e.isLiteral := by
  simp only [keeps, hv, Bool.or_eq_false_iff] at h
  simpa using h.2

theorem ahead_of_keeps {use : Use} {e : Code} (h : w.keeps use e = false) :
    w.ahead use = [] ∨ e.isPure ∧ ((∀ e' ∈ w.ahead use, e'.isPure) ∨ e.isLiteral) := by
  cases use with
  | statement => exact .inl rfl
  | value =>
    have hpure : e.isPure := isPure_of_keeps (show Use.value = .statement → w.op.isSome from nofun) e h
    refine .inr ⟨hpure, ?_⟩
    cases hv : w.value.isPure with
    | false => exact .inr (isLiteral_of_keeps hv e h)
    | true =>
      refine .inl fun e' he' => ?_
      cases hw : w.op with
      | none =>
        simp only [ahead, hw, List.mem_singleton] at he'
        rw [he', hv]
      | some op =>
        simp only [ahead, hw, List.not_mem_nil] at he'

/-- A table that stays is left in place before a kept key only if it is a literal. -/
theorem literal_of_keeps_key {use : Use} {t k : Code} (hs : (Place.entry t k).TableStays)
    (ht : w.keeps use t = false) (hk : w.keeps use k = true) : t.isPure ∧ t.isLiteral := by
  have hpure : t.isPure := by
    refine isPure_of_keeps ?_ t ht
    rintro rfl
    simp only [keeps, Bool.and_eq_true] at hk
    exact hk.1
  refine ⟨hpure, ?_⟩
  rcases hs with hkey | htable | hliteral
  · cases use with
    | statement => simp [keeps, hkey] at hk
    | value =>
      have hv : w.value.isPure = false := by
        simp only [keeps, hkey, Bool.not_true, Bool.false_or, Bool.and_eq_true] at hk
        simpa using hk.1
      exact isLiteral_of_keeps hv t ht
  · rw [hpure] at htable
    cases htable
  · exact hliteral

/-- An assignment in a statement keeps nothing and runs nothing ahead. -/
theorem undisturbed_plain (hw : w.op = none) :
    p.Undisturbed call c (w.keeps .statement) (w.ahead .statement) m := by
  match p with
  | .variable x => exact trivial
  | .field t x => exact fun _ => .pure_right _ [] m
  | .entry t k =>
    have hk : w.keeps .statement k = false := by
      simp only [keeps, hw, Option.isSome_none, Bool.false_and]
    refine ⟨fun _ => ?_, fun _ v m' _ => .pure_right _ [] m'⟩
    rw [hk]
    exact .pure_right _ [] m

/-- No write disturbs its place where the parts that only read do not fault and the table stays. -/
theorem undisturbed (use : Use) (hs : p.TableStays) (hok : p.PartsOk call c m) :
    p.Undisturbed call c (w.keeps use) (w.ahead use) m := by
  match p, hs, hok with
  | .variable x, _, _ => exact trivial
  | .field t x, _, hok =>
    intro ht
    exact Code.eval_commute (ahead_of_keeps (by simpa using ht)) hok
  | .entry t k, hs, ⟨htable, hkey⟩ =>
    refine ⟨fun ht => ?_, fun hk v m' hrun => ?_⟩
    · have ht : w.keeps use t = false := by simpa using ht
      split
      · next hk =>
        obtain ⟨hpure, hliteral⟩ := literal_of_keeps_key hs ht hk
        exact Code.eval_commute (.inr ⟨hpure, .inr hliteral⟩) htable
      · exact Code.eval_commute (ahead_of_keeps ht) htable
    · exact Code.eval_commute (ahead_of_keeps (by simpa using hk)) fun h => hkey h v m' hrun

/-- What the code runs before it locates the place a second time does not move the place. -/
theorem locateKept_steady (held : Value × Value) {α : Type} (f : Location → EvalM Value → EvalM α)
    (hf : ∀ l v, EvalM.Reads v → EvalM.Reads (f l v)) :
    EvalM.Steady (p.locateKept call c (w.keeps .value) held)
      (fun l => f l (w.value.eval call c)) := by
  cases hv : w.value.isPure with
  | true =>
    have hr := Code.eval_reads call c w.value hv
    have hk : ∀ e, w.keeps .value e = false → e.isPure := isPure_of_keeps nofun
    exact (locateKept_reads hk p held).steady fun l => hf l _ hr
  | false => exact (locateKept_constant (isLiteral_of_keeps hv) p held).steady _

theorem asLowered_statement
    (h : p.Undisturbed call c (w.keeps .statement) (w.ahead .statement) m) :
    w.asLowered call c p .statement m = w.inOrder call c p .statement m := by
  have ha : w.ahead .statement = [] := rfl
  rw [ha] at h
  cases hw : w.op with
  | none =>
    have ho := locateKept_order h fun l _ => do
      let v ← w.value.eval call c
      store c l v
      return Flow.next
    simp only [Code.evalAll, pure_bind] at ho
    simpa only [asLowered, inOrder, newValue, Use.flow, hw] using ho
  | some op =>
    have hk : ∀ e, w.keeps .statement e = false → e.isPure :=
      isPure_of_keeps fun _ => by rw [hw]; rfl
    have ho := locateKept_order h fun l _ => do
      let old ← l.read c
      let v ← op.combine old (w.value.eval call c)
      store c l v
      return Flow.next
    simp only [Code.evalAll, pure_bind] at ho
    have hs (held : Value × Value) :
        EvalM.Steady (p.locateKept call c (w.keeps .statement) held) fun _ => pure () :=
      (locateKept_reads hk p held).steady fun _ => .pure ()
    have ht (held : Value × Value) := (hs held).bind fun l _ l' => do
      let old ← l'.read c
      let v ← op.combine old (w.value.eval call c)
      store c l v
      return Flow.next
    simp only [pure_bind] at ht
    simp only [asLowered, inOrder, newValue, hw, bind_assoc, ht]
    exact ho

theorem asLowered_value (h : p.Undisturbed call c (w.keeps .value) (w.ahead .value) m)
    (hy : w.yield = .new) : w.asLowered call c p .value m = w.inOrder call c p .value m := by
  cases hw : w.op with
  | none =>
    have ha : w.ahead .value = [w.value] := by simp only [ahead, hw]
    rw [ha] at h
    have ho := locateKept_order h fun l ys => do
      store c l (ys.headD .nil)
      return Flow.returned (ys.headD .nil)
    simp only [Code.evalAll, bind_assoc, pure_bind, List.headD_cons] at ho
    simpa only [asLowered, inOrder, newValue, Use.flow, hw] using ho
  | some op =>
    have ha : w.ahead .value = [] := by simp only [ahead, hw]
    rw [ha] at h
    have ho := locateKept_order h fun l _ => do
      let old ← l.read c
      let v ← op.combine old (w.value.eval call c)
      store c l v
      return Flow.returned v
    simp only [Code.evalAll, pure_bind] at ho
    have hs (held : Value × Value) :
        EvalM.Steady (p.locateKept call c (w.keeps .value) held)
          (fun l => do let old ← l.read c; op.combine old (w.value.eval call c)) :=
      locateKept_steady held (fun l right => do let old ← l.read c; op.combine old right)
        fun l _ hr => (Location.read_reads c l).bind fun old => combine_reads op old hr
    have ht (held : Value × Value) := (hs held).bind fun l v l' => do
      store c l' v
      return Flow.returned v
    simp only [bind_assoc] at ht
    simp only [asLowered, inOrder, newValue, hw, hy, bind_assoc, ht]
    exact ho

theorem updateAsLowered_eq {op : BinaryOp}
    (h : p.Undisturbed call c ((update op .old).keeps .value) ((update op .old).ahead .value) m) :
    updateAsLowered call c p op m = (update op .old).inOrder call c p .value m := by
  have ha : (update op .old).ahead .value = [] := rfl
  rw [ha] at h
  have ho := locateKept_order h fun l _ => do
    let old ← l.read c
    let v ← op.combine old ((Code.integer 1).eval call c)
    store c l v
    return Flow.returned old
  simp only [Code.evalAll, pure_bind] at ho
  have hs (held : Value × Value) :
      EvalM.Steady (p.locateKept call c ((update op .old).keeps .value) held) fun l => l.read c :=
    locateKept_steady held (fun l _ => l.read c) fun l _ _ => Location.read_reads c l
  have ht (held : Value × Value) := (hs held).bind fun l old l' => do
    let v ← op.combine old ((Code.integer 1).eval call c)
    store c l' v
    return Flow.returned old
  simp only [updateAsLowered, inOrder, ht]
  exact ho

end Write

end ScriptToLua.Lowering
