import Mathlib
import ScriptToLua.Lowering.Statement
import ScriptToLua.Proofs.Lowering.HybridLiteral
import ScriptToLua.Proofs.Lowering.Independence
import ScriptToLua.Proofs.Lowering.WellFormed
import ScriptToLua.Proofs.Lowering.WriteRun
import ScriptToLua.Proofs.Lua.CallDepth

/-!
Compound assignments and the plain assignments that they stand for. `target op= value` runs like
`target = target op value` as long as both operands of a concatenation are strings or numbers when it
runs, `compound_runs_as_expansion`. Only the sum makes other operands strings, by calling `tostring`.
-/

namespace ScriptToLua

open Source (Arena Node NodeId)
open TypeStore

namespace Lua

variable {room : Nat} {c : Chain} {m : Machine} {e l l' r r' : Code}

/-- The value can be part of a concatenation: it is a string or a number. -/
def Value.Joins (v : Value) : Prop := ∃ s, v.concatText? = .ok s

/-- What joins contributes the text that `tostring` gives. -/
theorem Value.Joins.text {v : Value} (h : v.Joins) :
    (Value.string v.text).concatText? = v.concatText? := by
  obtain ⟨s, hs⟩ := h
  cases v with
  | string s => rfl
  | number x => rfl
  | _ => cases hs

/-- Calling `tostring` where it has not been redeclared. -/
theorem textOf_eval (h : m.lookup? c "tostring" = some (.builtin .tostring)) :
    (Lowering.textOf e).eval (callAt room) c m =
      ((fun v => .string v.text) <$> e.eval (callAt room) c) m := by
  simp only [Lowering.textOf, Code.eval, Code.evalAll, EvalM.bind_run, EvalM.get_run, EvalM.pure_run, h,
    Option.getD_some, EvalM.map_run]
  rcases e.eval (callAt room) c m with ⟨_ | v, m'⟩
  · rfl
  · simp only [callAt_builtin]
    rfl

/-- The second code runs like the first, and its value contributes the same text to a concatenation. -/
def Code.SameText (call : Caller) (c : Chain) (m : Machine) (e e' : Code) : Prop :=
  ∃ f : Value → Value, e'.eval call c m = (f <$> e.eval call c) m ∧
    ∀ v m', e.eval call c m = (.ok v, m') → (f v).concatText? = v.concatText?

theorem Code.SameText.refl (call : Caller) (c : Chain) (m : Machine) (e : Code) :
    SameText call c m e e := by
  refine ⟨id, ?_, fun _ _ _ => rfl⟩
  rw [EvalM.map_run]
  rcases e.eval call c m with ⟨_ | _, _⟩ <;> rfl

theorem Code.SameText.textOf (h : m.lookup? c "tostring" = some (.builtin .tostring))
    (hv : ∀ v m', e.eval (callAt room) c m = (.ok v, m') → v.Joins) :
    SameText (callAt room) c m e (Lowering.textOf e) :=
  ⟨fun v => .string v.text, textOf_eval h, fun v m' he => (hv v m' he).text⟩

/-- A concatenation depends on the texts of its operands only. -/
theorem concat_eval {call : Caller} (hl : Code.SameText call c m l l')
    (hr : Code.SameText call c m r r') (hpure : l.isPure) :
    (Code.binary l' .concat r').eval call c m = (Code.binary l .concat r).eval call c m := by
  have hconcat (l r : Code) : (Code.binary l .concat r).eval call c = (do
      let a ← l.eval call c
      let b ← r.eval call c
      EvalM.ofExcept (BinaryOp.concat.apply a b)) := rfl
  obtain ⟨f, hf, hftext⟩ := hl
  obtain ⟨g, hg, hgtext⟩ := hr
  -- The right operand starts where the left one has left everything as it was.
  have hreads := (Code.eval_reads call c l hpure).run m
  rw [hreads] at hftext
  rw [EvalM.map_run, hreads] at hf
  rw [EvalM.map_run] at hg
  simp only [hconcat, EvalM.bind_run, hf]
  rw [hreads]
  rcases hleft : (l.eval call c m).1 with fault | a
  · rfl
  · have ha := hftext a m (by rw [hleft])
    simp only [Except.map, hg]
    rcases hright : r.eval call c m with ⟨fault | b, m'⟩
    · rfl
    · simp only [BinaryOp.apply, ha, hgtext b m' hright]

end Lua

namespace Lowering

open Lua (Code Caller Chain Machine Value callAt)

section Places

variable {p : Place}

/-- A place whose parts only read is written without keeping any of them. -/
theorem settle_of_isPure (h : ∀ e ∈ p.parts, e.isPure) : p.settle false = ([], p) := by
  cases p with
  | «variable» x => rfl
  | field t x => simp [Place.settle, Place.keep, h t List.mem_cons_self]
  | entry t k =>
    have hk := h k (List.mem_cons_of_mem t List.mem_cons_self)
    simp [Place.settle, Place.keep, h t List.mem_cons_self, hk]

theorem assign_of_isPure (h : ∀ e ∈ p.parts, e.isPure) (op : Option Lua.BinaryOp) (value : Code) :
    p.assign op value .statement = .store p.code (p.newValue op value) := by
  cases op with
  | none => rfl
  | some op =>
    simp only [Place.assign, Option.isSome_some, if_true, settle_of_isPure h, List.isEmpty_nil]

theorem code_isPure (h : ∀ e ∈ p.parts, e.isPure) : p.code.isPure := by
  cases p with
  | «variable» x => rfl
  | field t x => exact h t List.mem_cons_self
  | entry t k =>
    have hk := h k (List.mem_cons_of_mem t List.mem_cons_self)
    exact Bool.and_eq_true_iff.2 ⟨h t List.mem_cons_self, hk⟩

theorem locate_reads (h : ∀ e ∈ p.parts, e.isPure) (call : Caller) (c : Chain) :
    Lua.EvalM.Reads (p.code.locate call c) := by
  cases p with
  | «variable» x => exact .pure _
  | field t x => exact (Code.eval_reads call c t (h t List.mem_cons_self)).bind fun _ => .pure _
  | entry t k =>
    refine (Code.eval_reads call c t (h t List.mem_cons_self)).bind fun _ => ?_
    have hk := h k (List.mem_cons_of_mem t List.mem_cons_self)
    exact (Code.eval_reads call c k hk).bind fun _ => .pure _

/-- A write to such a place depends on how the written value is evaluated from the start only. -/
theorem store_exec {call : Caller} {c : Chain} {m : Machine} {e e' : Code}
    (hp : ∀ part ∈ p.parts, part.isPure) (h : e.eval call c m = e'.eval call c m) :
    (Code.store p.code e).exec call c m = (Code.store p.code e').exec call c m := by
  have hlocate : Lua.EvalM.Reads (Code.locateAll call c [p.code]) :=
    (locate_reads hp call c).bind fun _ => .pure _
  simp only [Code.store, Code.exec, Lua.EvalM.bind_run]
  rw [hlocate.run m]
  rcases (Code.locateAll call c [p.code] m).1 with _ | ls
  · rfl
  · simp only [Code.evalAll, Lua.EvalM.bind_run, h]

/-- A compound assignment and a plain one whose value is the operation run alike. -/
theorem assign_concat_exec {call : Caller} {c : Chain} {m : Machine} {l v v' : Code}
    (hp : ∀ part ∈ p.parts, part.isPure) (hl : Code.SameText call c m p.code l)
    (hv : Code.SameText call c m v v') :
    (p.assign (some .concat) v .statement).exec call c m =
      (p.assign none (.binary l .concat v') .statement).exec call c m := by
  rw [assign_of_isPure hp, assign_of_isPure hp]
  exact store_exec hp (Lua.concat_eval hl hv (code_isPure hp)).symm

theorem entry_isPure {t k : Code} (ht : t.isPure) (hk : k.isPure) :
    ∀ e ∈ (Place.entry t k).parts, e.isPure := by
  intro e he
  rcases List.mem_pair.1 he with rfl | rfl
  · exact ht
  · exact hk

theorem oneBased_isPure (fold : Bool) {e : Code} (h : e.isPure) : (oneBased fold e).isPure := by
  unfold oneBased
  split
  · rfl
  · exact Bool.and_eq_true_iff.2 ⟨h, rfl⟩

variable {a : Access} {s : TypeStore} {fold : Bool}

/-- The operands of the access only read. -/
structure Access.HasPureParts (a : Access) : Prop where
  receiver : a.receiver.isPure
  key : ∀ i t, a.key = .element i t → i.isPure

namespace Access.HasPureParts

theorem plain (h : a.HasPureParts) : ∀ e ∈ a.plain.parts, e.isPure := by
  unfold Access.plain
  split
  · simpa only [Place.parts, List.mem_singleton, forall_eq] using h.receiver
  · next index t hk => exact entry_isPure h.receiver (h.key index t hk)

theorem lands (h : a.HasPureParts) (hl : a.Lands fold (.place p)) : ∀ e ∈ p.parts, e.isPure := by
  cases hl with
  | field _ => simpa only [Place.parts, List.mem_singleton, forall_eq] using h.receiver
  | indexText _ _ => exact entry_isPure h.receiver (oneBased_isPure fold rfl)
  | entry hk => exact entry_isPure h.receiver (h.key _ _ hk)
  | slot hk => exact entry_isPure h.receiver (oneBased_isPure fold (h.key _ _ hk))

theorem place (h : a.HasPureParts) : ∀ e ∈ (a.place s fold).parts, e.isPure := by
  rcases a.place_cases s fold with hplain | hlands
  · rw [hplain]
    exact h.plain
  · exact h.lands hlands

end Access.HasPureParts

/-- What is no length is read from the place that it is written to. -/
theorem read_eq_place (h : a.isLength s fold = false) : a.read s fold = (a.place s fold).code := by
  rcases a.read_cases s fold with ⟨-, hplace⟩ | ⟨-, hlength, -⟩
  · exact hplace
  · rw [h] at hlength
    cases hlength

end Places

/-- In every state whose store has grown out of `s`, the computation adds to the store and gives `a`. -/
def Determined {α : Type} (ctx : Context) (s : TypeStore) (act : LowerM α) (a : α) : Prop :=
  ∀ st : State, s.Grown st.store → st.store.Grown (act ctx st).2.store ∧ (act ctx st).1 = a

namespace Determined

variable {ctx : Context} {base s s' : TypeStore} {α β : Type} {act act' : LowerM α} {a : α} {b : β}
  {next : α → LowerM β}

theorem pure (a : α) : Determined ctx s (Pure.pure a) a :=
  fun st hst => ⟨⟨hst.normal, .refl st.store⟩, rfl⟩

theorem mono (h : Determined ctx s act a) (hs : s.Grown s') : Determined ctx s' act a :=
  fun st hst => h st (hs.trans hst)

theorem bind (h : Determined ctx s act a) (hn : Determined ctx s (next a) b) :
    Determined ctx s (act >>= next) b := by
  intro st hst
  obtain ⟨hgrown, ha⟩ := h st hst
  obtain ⟨hgrown', hb⟩ := hn (act ctx st).2 (hst.trans hgrown)
  rw [← ha] at hgrown' hb
  exact ⟨hgrown.trans hgrown', hb⟩

theorem askTypes {ask : TypeStore → α} (h : ∀ r, s.Grown r → ask r = a) :
    Determined ctx s (askTypes ask) a :=
  fun st hst => ⟨⟨hst.normal, .refl st.store⟩, h st.store hst⟩

/-- What comes after a look at the context. -/
theorem bind_read {next : Context → LowerM β} (h : Determined ctx s (next ctx) b) :
    Determined ctx s (read >>= next) b := h

/-- A computation gives what it coincides with. -/
theorem of_coincide (h : Coincide ctx base base Same act act') {st₀ : State}
    (h₀ : base.Grown st₀.store) : Determined ctx base act (act' ctx st₀).1 := by
  intro st hst
  obtain ⟨hgrown, -, heq⟩ := h st st₀ hst h₀
  exact ⟨hgrown, heq⟩

end Determined

/-- Whether an operand is typed as a string. -/
def typedString (id : NodeId) : LowerM Bool := do
  let type ← typeOf id
  askTypes fun s => s.isStringLike type

/-- Whether an operand is typed as a string or as a number. -/
def typedJoining (id : NodeId) : LowerM Bool := do
  let type ← typeOf id
  askTypes fun s => s.isStringLike type || s.isNumberLike type

section Sums

variable {ctx : Context} {base s : TypeStore} (hb : base.Normal)
  (hf : ctx.facts.Stored ctx.arena base) {st : State} (hst : base.Grown st.store)

include hb hf hst

/-- Asking for a type, and later on whether it is a string or a number, as from the state `st`. -/
theorem Determined.bind_typeOf (hs : base.Grown s) {β : Type} {id : NodeId}
    {next : TypeId → LowerM β} {b : β}
    (h : ∀ t r, s.Grown r →
      (∀ q, r.Grown q → q.isStringLike t = (typedString id ctx st).1 ∧
        (q.isStringLike t || q.isNumberLike t) = (typedJoining id ctx st).1) →
      Determined ctx r (next t) b) :
    Determined ctx s (typeOf id >>= next) b := by
  intro st' hst'
  obtain ⟨hr, hr₀, ht⟩ := typeOf_coincide hb hf hs hst id st' st hst' ⟨hst.normal, .refl st.store⟩
  have hbr := hs.trans (hst'.trans hr)
  have hkind (q : TypeStore) (hq : (typeOf id ctx st').2.store.Grown q) :
      q.isStringLike (typeOf id ctx st').1 = (typedString id ctx st).1 ∧
        (q.isStringLike (typeOf id ctx st').1 || q.isNumberLike (typeOf id ctx st').1) =
          (typedJoining id ctx st).1 := by
    have htype := ht.mono hq ⟨hr₀.normal, .refl _⟩
    have htext := htype.isStringLike_eq hb (hbr.trans hq) (hst.trans hr₀)
    have hnumber := htype.isNumberLike_eq hb (hbr.trans hq) (hst.trans hr₀)
    exact ⟨htext, congrArg₂ _ htext hnumber⟩
  obtain ⟨hgrown, hresult⟩ := h _ _ (hst'.trans hr) hkind _ ⟨hr.normal, .refl _⟩
  exact ⟨hr.trans hgrown, hresult⟩

theorem addsToString_determined (target value : NodeId) :
    Determined ctx base (addsToString target value)
      ((typedString target ctx st).1 || (typedString value ctx st).1) := by
  have hbase : base.Grown base := ⟨hb, .refl base⟩
  refine .bind_typeOf hb hf hst hbase fun t r hr ht => ?_
  refine .bind (.askTypes fun q hq => (ht q hq).1) ?_
  cases (typedString target ctx st).1 with
  | true => exact .pure _
  | false =>
    refine .bind_typeOf hb hf hst hr fun u q hq hu => ?_
    exact .askTypes fun o ho => (hu o ho).1

/-- The operator of a compound assignment. -/
theorem compoundOp_determined {op : Source.AssignOp} {op' : Source.BinaryOp}
    (hop : op.binary? = some op') (target value : NodeId) :
    Determined ctx base (compoundOp op target value)
      (some
        (if op' = .add ∧ ((typedString target ctx st).1 || (typedString value ctx st).1) then .concat
        else luaBinary op')) := by
  cases op with
  | plain => cases hop
  | add =>
    cases hop
    refine .bind (addsToString_determined hb hf hst target value) ?_
    cases ((typedString target ctx st).1 || (typedString value ctx st).1) <;> exact .pure _
  | _ =>
    cases hop
    exact .pure _

/-- What a concatenation makes of the code of an operand. -/
def operandCode (ctx : Context) (st : State) (id : NodeId) (e : Code) : Code :=
  if (typedJoining id ctx st).1 then e else textOf e

variable {lower : Lowerer} {left right : NodeId} {l r : Code} (hl : Determined ctx base (lower left) l)
  (hr : Determined ctx base (lower right) r)

include hl hr

theorem sum_determined :
    Determined ctx base (sum lower left right)
      (if (typedString left ctx st).1 || (typedString right ctx st).1 then
        .binary (operandCode ctx st left l) .concat (operandCode ctx st right r)
      else .binary l .add r) := by
  have hbase : base.Grown base := ⟨hb, .refl base⟩
  have hoperand {s : TypeStore} {id : NodeId} {t : TypeId} {e : Code}
      (he : Determined ctx s (lower id) e)
      (ht : ∀ q, s.Grown q → (q.isStringLike t || q.isNumberLike t) = (typedJoining id ctx st).1) :
      Determined ctx s (concatOperand lower id t) (operandCode ctx st id e) := by
    refine he.bind (.bind (.askTypes ht) ?_)
    unfold operandCode
    split <;> exact .pure _
  refine .bind_typeOf hb hf hst hbase fun t s hs ht => ?_
  refine .bind_typeOf hb hf hst hs fun u q hq hu => ?_
  refine .bind (.askTypes fun o ho => congrArg₂ _ (ht o (hq.trans ho)).1 (hu o ho).1) ?_
  have hl' := hl.mono (hs.trans hq)
  have hr' := hr.mono (hs.trans hq)
  split
  · have hleft := hoperand hl' fun o ho => (ht o (hq.trans ho)).2
    exact hleft.bind (.bind (hoperand hr' fun o ho => (hu o ho).2) (.pure _))
  · exact hl'.bind (hr'.bind (.pure _))

/-- An operation other than a concatenation leaves its operands as they are. -/
theorem binary_determined {op : Source.BinaryOp} :
    Determined ctx base (binary lower left op right)
      (if op = .add ∧ ((typedString left ctx st).1 || (typedString right ctx st).1) then
        .binary (operandCode ctx st left l) .concat (operandCode ctx st right r)
      else .binary l (luaBinary op) r) := by
  unfold binary
  by_cases hop : op = .add
  · subst hop
    simp only [true_and]
    exact sum_determined hb hf hst hl hr
  · simp only [hop, false_and, if_false]
    exact hl.bind (hr.bind (.pure _))

end Sums

/-- The target of an assignment is a variable, or an access whose receiver and key are variables or
literals. -/
inductive IsSimpleTarget (a : Arena) (id : NodeId) : Prop
  | variable {x : String} (h : a.get? id = some (.identifier x))
  | member {receiver : NodeId} {x : String} {n : Node} (h : a.get? id = some (.property receiver x))
    (hr : a.get? receiver = some n) (ha : n.isAtom)
  | entry {receiver key : NodeId} {n k : Node} (h : a.get? id = some (.element receiver key))
    (hr : a.get? receiver = some n) (ha : n.isAtom) (hk : a.get? key = some k) (hka : k.isAtom)

section Targets

variable {ctx : Context} {base : TypeStore} {id target : NodeId} {n : Node}

theorem expressionAt_atom_run (hn : ctx.arena.get? id = some n) (ha : n.isAtom) (room : Nat)
    (st : State) : expressionAt (room + 1) id ctx st = (atomCode n, st) := by
  rw [expressionAt_run hn]
  cases n with
  | number | string | boolean | null | undefined | identifier => rfl
  | _ => cases ha

theorem atomCode_isPure (n : Node) : (atomCode n).isPure := by
  cases n <;> rfl

theorem nestsWithin_of_isAtom {a : Arena} (hn : a.get? id = some n) (ha : n.isAtom) :
    a.nestsWithin 1 id := by
  rw [Arena.nestsWithin, Arena.children_of_get? hn]
  cases n with
  | number | string | boolean | null | undefined | identifier => rfl
  | _ => cases ha

theorem IsSimpleTarget.nestsWithin {a : Arena} (h : IsSimpleTarget a id) : a.nestsWithin 2 id := by
  cases h with
  | «variable» h =>
    rw [Arena.nestsWithin, Arena.children_of_get? h]
    rfl
  | member h hr ha =>
    rw [Arena.nestsWithin, Arena.children_of_get? h]
    simp [Node.children, nestsWithin_of_isAtom hr ha]
  | entry h hr ha hk hka =>
    rw [Arena.nestsWithin, Arena.children_of_get? h]
    simp [Node.children, nestsWithin_of_isAtom hr ha, nestsWithin_of_isAtom hk hka]

theorem IsSimpleTarget.strip_eq {a : Arena} (h : IsSimpleTarget a id) : a.strip id = id := by
  refine Arena.stripLayers_of_peel?_none ?_ a.size
  cases h with
  | «variable» h => simp only [Arena.peel?, h]
  | member h => simp only [Arena.peel?, h]
  | entry h => simp only [Arena.peel?, h]

/-- The code of an expression that is a place, whose parts only read. -/
def IsCodeOf (place : Option Place) (e : Code) : Prop :=
  ∀ p, place = some p → e = p.code ∧ ∀ part ∈ p.parts, part.isPure

variable (hb : base.Normal) (hf : ctx.facts.Stored ctx.arena base)

include hb

/-- An access that can be written is read from the place that it is written to. -/
theorem readAccess_coincide_place {s s' : TypeStore} (hs : base.Grown s) (hs' : base.Grown s')
    {a a' : Access} (h : SameAccess base s s' a a') (ha : a.HasPureParts) (id : NodeId) :
    Coincide ctx s s' (fun _ _ => IsCodeOf)
      (do
        if ← askTypes fun s => a.isLength s ctx.fold then
          report id .lengthAssignment
          return none
        else askTypes fun s => some (a.place s ctx.fold))
      (readAccess a') := by
  intro st st' hst hst'
  have hstay : st.store.Grown st.store := ⟨hst.normal, .refl st.store⟩
  have hstay' : st'.store.Grown st'.store := ⟨hst'.normal, .refl st'.store⟩
  have hread := (h.mono hst hst').read_eq hb (hs.trans hst) (hs'.trans hst') ctx.fold
  change st.store.Grown
    ((if a.isLength st.store ctx.fold then _ else _ : LowerM _) ctx st).2.store ∧ _ ∧
    IsCodeOf ((if a.isLength st.store ctx.fold then _ else _ : LowerM _) ctx st).1
      (a'.read st'.store ctx.fold)
  cases hlength : a.isLength st.store ctx.fold with
  | true => exact ⟨hstay, hstay', nofun⟩
  | false =>
    refine ⟨hstay, hstay', fun p hp => ?_⟩
    obtain rfl := Option.some.inj hp
    exact ⟨hread.symm.trans (read_eq_place hlength), ha.place⟩

include hf

/-- The access that a simple target denotes, and the one that it is lowered to as an expression. -/
theorem accessAt?_coincide_expression (ht : IsSimpleTarget ctx.arena target)
    (hne : ∀ x, ctx.arena.get? target ≠ some (.identifier x)) (room room' : Nat) :
    ∃ act : LowerM Access,
      (∀ st, expressionAt (room' + 2) target ctx st = (act >>= readAccess) ctx st) ∧
      Coincide ctx base base
        (fun r r' o a' => ∃ a, o = some a ∧ SameAccess base r r' a a' ∧ a.HasPureParts)
        (accessAt? (expressionAt (room + 1)) target) act := by
  have hbase : base.Grown base := ⟨hb, .refl base⟩
  have hatom (id : NodeId) (h : ctx.arena.nestsWithin 1 id) :
      Coincide ctx base base Same (expressionAt (room + 1) id) (expressionAt (room' + 1) id) :=
    expressionAt_coincide hb hf h (Nat.le_add_left 1 room) (Nat.le_add_left 1 room')
  have hat {act act' : LowerM Access} (h : Coincide ctx base base (SameAccess base) act act')
      (hact : ∀ st, accessAt? (expressionAt (room + 1)) target ctx st = (some <$> act) ctx st)
      (hpure : ∀ st, (act ctx st).1.HasPureParts) :
      Coincide ctx base base
        (fun r r' o a' => ∃ a, o = some a ∧ SameAccess base r r' a a' ∧ a.HasPureParts)
        (accessAt? (expressionAt (room + 1)) target) act' := by
    intro st st' hst hst'
    obtain ⟨hr, hr', ha⟩ := h st st' hst hst'
    rw [hact st]
    exact ⟨hr, hr', _, rfl, ha, hpure st⟩
  cases ht with
  | «variable» h => exact absurd h (hne _)
  | @member receiver x n h hr ha =>
    refine ⟨namedAccess (expressionAt (room' + 1)) receiver x, fun st => ?_, ?_⟩
    · rw [expressionAt_run h]
      rfl
    · refine hat (namedAccess_coincide hb hf hbase hbase hatom (nestsWithin_of_isAtom hr ha) x)
        (fun st => ?_) fun st => ⟨?_, nofun⟩
      · rw [accessAt?, bind_node?_run, h]
      · change (expressionAt (room + 1) receiver ctx (typeOf receiver ctx st).2).1.isPure
        rw [expressionAt_atom_run hr ha]
        exact atomCode_isPure n
  | @entry receiver key n k h hr ha hk hka =>
    refine ⟨elementAccess (expressionAt (room' + 1)) receiver key, fun st => ?_, ?_⟩
    · rw [expressionAt_run h]
      rfl
    · refine hat (elementAccess_coincide hb hf hbase hbase hatom (nestsWithin_of_isAtom hr ha)
        (nestsWithin_of_isAtom hk hka)) (fun st => ?_) fun st => ⟨?_, fun i t hi => ?_⟩
      · rw [accessAt?, bind_node?_run, h]
      · change (expressionAt (room + 1) receiver ctx (typeOf receiver ctx st).2).1.isPure
        rw [expressionAt_atom_run hr ha]
        exact atomCode_isPure n
      · change AccessKey.element (expressionAt (room + 1) key ctx _).1 _ = _ at hi
        rw [expressionAt_atom_run hk hka] at hi
        cases hi
        exact atomCode_isPure k

/-- A simple target is read from the place that it is written to. -/
theorem target_coincide (ht : IsSimpleTarget ctx.arena target) (id : NodeId) (room room' : Nat) :
    Coincide ctx base base (fun _ _ => IsCodeOf) (placeAt? (expressionAt (room + 1)) id target)
      (expressionAt (room' + 2) target) := by
  by_cases hx : ∃ x, ctx.arena.get? target = some (.identifier x)
  · obtain ⟨x, hx⟩ := hx
    have hplace (st : State) : placeAt? (expressionAt (room + 1)) id target ctx st =
        (some (.variable (Lua.rename x)), st) := by
      unfold placeAt?
      simp only [bind, ReaderT.bind, StateT.bind, read, readThe, MonadReaderOf.read, ReaderT.read, pure,
        StateT.pure, ht.strip_eq, hx]
      rfl
    intro st st' hst hst'
    rw [hplace st, expressionAt_atom_run hx rfl]
    refine ⟨⟨hst.normal, .refl _⟩, ⟨hst'.normal, .refl _⟩, fun p hp => ?_⟩
    obtain rfl := Option.some.inj hp
    exact ⟨rfl, fun _ hpart => absurd hpart List.not_mem_nil⟩
  · have hne (x : String) : ctx.arena.get? target ≠ some (.identifier x) := fun h => hx ⟨x, h⟩
    obtain ⟨act, hact, haccess⟩ := accessAt?_coincide_expression hb hf ht hne room room'
    refine .congr_right (.bind_read_left ?_) hact
    dsimp only
    rw [ht.strip_eq]
    split
    · next x h => exact absurd h (hne x)
    · refine haccess.bind fun o a' r r' hr hr' ha => ?_
      obtain ⟨a, rfl, hsame, hpure⟩ := ha
      exact readAccess_coincide_place hb hr hr' hsame hpure id

end Targets

section Assignments

variable {ctx : Context} {base : TypeStore}

theorem expressionStatement_determined {id target value : NodeId} {op : Source.AssignOp}
    {o : Option Code} (h : ctx.arena.get? id = some (.assign target op value))
    (ho : Determined ctx base (assignment? expression id target op value .statement) o) :
    Determined ctx base (expressionStatement id) o.toList := by
  refine .bind_read ?_
  simp only [strip_eq (show ctx.arena.peel? id = none by simp only [Arena.peel?, h]), h]
  exact ho.bind (.pure _)

theorem expressionAt_determined {room : Nat} {id : NodeId} {n : Node} {e : Code}
    (hn : ctx.arena.get? id = some n)
    (h : Determined ctx base (expressionNode (expressionAt room) id n) e) :
    Determined ctx base (expressionAt (room + 1) id) e := by
  intro st hst
  rw [expressionAt_run hn]
  exact h st hst

/-- The code of an assignment from the code of its parts. -/
def assignmentCode? (o : Option Lua.BinaryOp) (place : Option Place) (v : Code) (use : Use) :
    Option Code :=
  match place with
  | some p => some (p.assign o v use)
  | none => valueOnly v use

theorem assignment?_determined {lower : Lowerer} {id target value : NodeId} {op : Source.AssignOp}
    {o : Option Lua.BinaryOp} {place : Option Place} {v : Code}
    (ho : Determined ctx base (compoundOp op target value) o)
    (hp : Determined ctx base (placeAt? lower id target) place)
    (hv : Determined ctx base (lower value) v) (use : Use) :
    Determined ctx base (assignment? lower id target op value use) (assignmentCode? o place v use) := by
  refine ho.bind (hp.bind (hv.bind ?_))
  cases place <;> exact .pure _

/-- As an operand of a concatenation the expression contributes one text, whether it is made a string
first or not: it is typed as a string or a number, or it is one when it runs. -/
def ContributesText (ctx : Context) (st : State) (room : Nat) (c : Chain) (m : Machine) (id : NodeId) :
    Prop :=
  (typedJoining id ctx st).1 ∨
    m.lookup? c "tostring" = some (.builtin .tostring) ∧
      ∀ v m', (expression id ctx st).1.eval (callAt room) c m = (.ok v, m') → v.Joins

theorem operandCode_sameText {st : State} {room : Nat} {c : Chain} {m : Machine} {id : NodeId}
    (h : ContributesText ctx st room c m id) :
    Code.SameText (callAt room) c m (expression id ctx st).1
      (operandCode ctx st id (expression id ctx st).1) := by
  unfold operandCode
  split
  · exact .refl _ _ _ _
  · next hj =>
    obtain ⟨htostring, hv⟩ := h.resolve_left hj
    exact .textOf htostring hv

/-- A compound assignment runs like the assignment that it stands for. -/
theorem compound_runs_as_expansion {st : State} (hb : st.store.Normal)
    (hf : ctx.facts.Stored ctx.arena st.store) {compound expansion target operation value : NodeId}
    {op : Source.AssignOp} {op' : Source.BinaryOp} (hop : op.binary? = some op')
    (hcompound : ctx.arena.get? compound = some (.assign target op value))
    (hexpansion : ctx.arena.get? expansion = some (.assign target .plain operation))
    (hoperation : ctx.arena.get? operation = some (.binary target op' value))
    (htarget : IsSimpleTarget ctx.arena target)
    (hnest : ctx.arena.nestsWithin (maxNesting - 1) value)
    (hplace : (placeAt? expression compound target ctx st).1.isSome ∨
      (expression value ctx st).1.isCall = false)
    {room : Nat} {c : Chain} {m : Machine}
    (htext : (compoundOp op target value ctx st).1 = some .concat →
      ∀ id ∈ [target, value], ContributesText ctx st room c m id) :
    Code.execAll (callAt room) c (expressionStatement compound ctx st).1 m =
      Code.execAll (callAt room) c (expressionStatement expansion ctx st).1 m := by
  have hst : st.store.Grown st.store := ⟨hb, .refl st.store⟩
  -- Either statement sees the same place, and the operands have one code in both.
  have hvalue {room : Nat} (hroom : maxNesting - 1 ≤ room) :
      Determined ctx st.store (expressionAt room value) (expression value ctx st).1 :=
    .of_coincide (expressionAt_coincide hb hf hnest hroom (Nat.sub_le _ _)) hst
  have htargetCode : Determined ctx st.store (expressionAt (maxNesting - 1) target)
      (expression target ctx st).1 :=
    .of_coincide (expressionAt_coincide hb hf htarget.nestsWithin (by decide) (by decide)) hst
  have hplaceAt (id : NodeId) : Determined ctx st.store (placeAt? expression id target)
      (placeAt? expression compound target ctx st).1 :=
    .of_coincide (placeAt?_coincide hb hf hst hst
      (fun id h => expressionAt_coincide hb hf h (by decide) (by decide)) nestsWithin_of_mem_children
      id compound htarget.nestsWithin) hst
  have hcode : IsCodeOf (placeAt? expression compound target ctx st).1 (expression target ctx st).1 :=
    (target_coincide hb hf htarget compound 499 498 st st hst hst).2.2
  have hop₁ := compoundOp_determined hb hf hst hop target value
  have hsum : Determined ctx st.store (expression operation) _ :=
    expressionAt_determined hoperation
      (binary_determined hb hf hst htargetCode (hvalue (Nat.le_refl _)))
  have hleft := (expressionStatement_determined hcompound
    (assignment?_determined hop₁ (hplaceAt compound) (hvalue (Nat.sub_le _ _)) .statement) st hst).2
  have hright := (expressionStatement_determined hexpansion
    (assignment?_determined (.pure none) (hplaceAt expansion) hsum .statement) st hst).2
  rw [hleft, hright]
  rw [(hop₁ st hst).2] at htext
  cases hp : (placeAt? expression compound target ctx st).1 with
  | none =>
    have hcall := hplace.resolve_left (by simp [hp])
    have hnone {v : Code} (hv : v.isCall = false) (o : Option Lua.BinaryOp) :
        assignmentCode? o none v .statement = none := by
      simp [assignmentCode?, valueOnly, hv]
    rw [hnone hcall, hnone]
    split <;> rfl
  | some p =>
    obtain ⟨hread, hparts⟩ := hcode p hp
    by_cases hconcat : op' = .add ∧ ((typedString target ctx st).1 || (typedString value ctx st).1)
    · rw [if_pos hconcat] at htext
      have hl := operandCode_sameText (htext rfl target List.mem_cons_self)
      have hr := operandCode_sameText (htext rfl value (List.mem_cons_of_mem _ List.mem_cons_self))
      simp only [if_pos hconcat, assignmentCode?, Option.toList_some, Code.execAll,
        Lua.EvalM.bind_run]
      rw [hread] at hl ⊢
      rw [assign_concat_exec hparts hl hr]
    · simp only [if_neg hconcat, assignmentCode?, assign_of_isPure hparts, Place.newValue, hread]

end Assignments

section Strings

/-- `s += value` and `s = s + value`, where `s` is declared as a string. -/
def sumContext (value : Node) : Context where
  arena :=
    let nodes : List Node :=
      [.identifier "s", value, .assign ⟨0⟩ .add ⟨1⟩, .binary ⟨0⟩ .add ⟨1⟩, .assign ⟨0⟩ .plain ⟨3⟩]
    ⟨(nodes.map fun n => (n, ⟨0, 0⟩)).toArray⟩
  facts := TypeFacts.empty.declare "s" .string
  fold := true
  file := "a.ts"

def sumState : State := ⟨.initial, [], false⟩

/-- Two variables, one of them a string. -/
def sumMachine (v : Value) : Machine :=
  { Machine.initial with scopes := #[.ofList [("s", .string "a"), ("v", v)]] }

/-- A number of unknown type that is added to a string. -/
theorem compound_runs_as_expansion_of_number :
    sumState.store.Normal ∧
      (compoundOp .add ⟨0⟩ ⟨1⟩ (sumContext (.identifier "v")) sumState).1 = some .concat ∧
      Code.execAll (callAt 0) [0] (expressionStatement ⟨2⟩ (sumContext (.identifier "v")) sumState).1
          (sumMachine (.number 1)) =
        Code.execAll (callAt 0) [0] (expressionStatement ⟨4⟩ (sumContext (.identifier "v")) sumState).1
          (sumMachine (.number 1)) := by
  have hf : (sumContext (.identifier "v")).facts.Stored (sumContext (.identifier "v")).arena
      sumState.store := .of_entries (by decide) (by decide +kernel) (by decide +kernel)
  refine ⟨initial_normal, by decide +kernel, compound_runs_as_expansion initial_normal hf rfl rfl rfl rfl
    (.variable rfl) (by decide +kernel) (.inl (by decide +kernel)) fun _ id hid => ?_⟩
  rcases List.mem_pair.1 hid with rfl | rfl
  · exact .inl (by decide +kernel)
  · have hrun : (expression ⟨1⟩ (sumContext (.identifier "v")) sumState).1.eval (callAt 0) [0]
        (sumMachine (.number 1)) = (.ok (.number 1), sumMachine (.number 1)) := rfl
    refine .inr ⟨rfl, fun v m' h => ?_⟩
    cases hrun.symm.trans h
    exact ⟨_, rfl⟩

/-- The value of `s += true` is no string, and nothing makes it one; `s = s + true` calls `tostring`. -/
theorem not_compound_runs_as_expansion :
    ((Code.execAll (callAt 0) [0] (expressionStatement ⟨2⟩ (sumContext (.boolean true)) sumState).1
        (sumMachine .nil)).1.map fun _ => ()) = .error (.notConcatenable .boolean) ∧
      ((Code.execAll (callAt 0) [0] (expressionStatement ⟨4⟩ (sumContext (.boolean true)) sumState).1
        (sumMachine .nil)).1.map fun _ => ()) = .ok () := by
  decide +kernel

end Strings

end Lowering

end ScriptToLua
