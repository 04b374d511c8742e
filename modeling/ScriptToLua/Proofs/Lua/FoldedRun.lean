import Mathlib
import ScriptToLua.Proofs.Decimal.Signed
import ScriptToLua.Proofs.Lua.Folding
import ScriptToLua.Proofs.Lua.Simulation
import ScriptToLua.Proofs.Lua.Slot

/-!
Code does the same whether its slots are constants or sums: `eval_folds` for expressions,
`blockFolds_run` for blocks, `runChunk_folds` for chunks.
-/

namespace ScriptToLua.Lua

open Lowering (indexTemp)
open ScopeMap (Results)

variable {α α' β β' : Type} {V : α → α' → Prop} {W : β → β' → Prop} {p q : Pins}

/-- Two runs end alike, on machines that agree. -/
def EndAlike (p : Pins) (V : α → α' → Prop) (o : Except Fault α × Machine)
    (o' : Except Fault α' × Machine) : Prop :=
  o.2.Folds p o'.2 ∧ Results V o.1 o'.1

/-- From machines that agree the computations end alike. -/
def EvalM.Folds (p : Pins) (V : α → α' → Prop) (act : EvalM α) (act' : EvalM α') : Prop :=
  ∀ m m', m.Folds p m' → EndAlike p V (act m) (act' m')

/-- What comes next may end with less known of the scopes. -/
theorem EndAlike.bind {act : EvalM α} {act' : EvalM α'} {m m' : Machine} {next : α → EvalM β}
    {next' : α' → EvalM β'} (h : EndAlike p V (act m) (act' m'))
    (hq : ∀ {m m' : Machine}, m.Folds p m' → m.Folds q m')
    (hn : ∀ a a', V a a' → ∀ m m', m.Folds p m' → EndAlike q W (next a m) (next' a' m')) :
    EndAlike q W ((act >>= next) m) ((act' >>= next') m') := by
  rw [EvalM.bind_run, EvalM.bind_run]
  generalize act m = o at h ⊢
  generalize act' m' = o' at h ⊢
  obtain ⟨r, n⟩ := o
  obtain ⟨r', n'⟩ := o'
  obtain ⟨hm, hr⟩ := h
  cases hr with
  | ok ha => exact hn _ _ ha _ _ hm
  | error e => exact ⟨hq hm, .error e⟩

namespace EvalM.Folds

theorem pure {a : α} {a' : α'} (h : V a a') : EvalM.Folds p V (Pure.pure a) (Pure.pure a') :=
  fun _ _ hm => ⟨hm, .ok h⟩

theorem fault (e : Fault) : EvalM.Folds p V (throw e : EvalM α) (throw e : EvalM α') :=
  fun _ _ hm => ⟨hm, .error e⟩

theorem bind {act : EvalM α} {act' : EvalM α'} {next : α → EvalM β} {next' : α' → EvalM β'}
    (h : EvalM.Folds p V act act') (hn : ∀ a a', V a a' → EvalM.Folds p W (next a) (next' a')) :
    EvalM.Folds p W (act >>= next) (act' >>= next') :=
  fun m m' hm => (h m m' hm).bind id hn

theorem ofExcept {r : Except Fault α} {r' : Except Fault α'} (h : Results V r r') :
    EvalM.Folds p V (EvalM.ofExcept r) (EvalM.ofExcept r') := by
  intro m m' hm
  rw [EvalM.ofExcept_run, EvalM.ofExcept_run]
  exact ⟨hm, h⟩

theorem modify {g g' : Machine → Machine}
    (h : ∀ m m' : Machine, m.Folds p m' → (g m).Folds p (g' m')) :
    EvalM.Folds p (fun _ _ => True) (modify g) (modify g') :=
  fun _ _ hm => ⟨h _ _ hm, .ok trivial⟩

theorem index {t t' k k' : Value} (ht : t.Folds t') (hk : k.Folds k') :
    EvalM.Folds p Value.Folds (EvalM.index t k) (EvalM.index t' k') := by
  intro m m' hm
  rw [EvalM.index_run, EvalM.index_run]
  refine ⟨hm, ?_⟩
  cases ht with
  | plain t _ =>
    cases t with
    | table id =>
      refine .ok ?_
      simp only [Table.get, Table.read, hk.alike.key]
      split
      · exact .getD ((hm.tables id).get? _)
      · exact .nil
    | _ => exact .error _
  | closure => exact .error _

theorem setEntry (id : TableId) {k k' v v' : Value} (hk : k.Folds k') (hv : v.Folds v') :
    EvalM.Folds p (fun _ _ => True) (EvalM.setEntry id k v) (EvalM.setEntry id k' v') := by
  intro m m' hm
  rw [EvalM.setEntry_run, EvalM.setEntry_run]
  simp only [Table.set, hk.alike.key]
  cases Key.ofValue k' with
  | error e => exact ⟨hm, .error e⟩
  | ok k =>
    refine ⟨hm.setTable id ?_, .ok trivial⟩
    simp only [Table.write, hv.alike.isNil]
    split
    · exact (hm.tables id).erase k
    · exact (hm.tables id).insert k hv

theorem newTable : EvalM.Folds p (fun id id' => id = id') EvalM.newTable EvalM.newTable :=
  fun _ _ hm => ⟨hm.newTable, .ok hm.tables_size⟩

theorem newClosure (c : Chain) (xs : List String) {b b' : List Code}
    (hb : Code.BlockFolds .free b b') :
    EvalM.Folds p Value.Folds (EvalM.newClosure xs b c) (EvalM.newClosure xs b' c) := by
  intro m m' hm
  refine ⟨{ hm with nextClosure := congrArg (· + 1) hm.nextClosure }, .ok ?_⟩
  rw [← hm.nextClosure]
  exact .closure hb

/-- Nothing is kept in a scope that has just been opened. -/
theorem openScope (c : Chain) {next : Chain → EvalM α} {next' : Chain → EvalM α'}
    (h : ∀ n (q : Pins), n < q.opened → q.pin n = .free →
      EvalM.Folds q V (next (n :: c)) (next' (n :: c))) :
    EvalM.Folds p V (EvalM.openScope c >>= next) (EvalM.openScope c >>= next') := by
  intro m m' hm
  rw [EvalM.bind_run_ok (EvalM.openScope_run c m), EvalM.bind_run_ok (EvalM.openScope_run c m'),
    ← hm.size]
  obtain ⟨hm', hr⟩ := h m.scopes.size (p.push m.scopes.size) (Nat.lt_succ_self _) hm.pin_fresh
    _ _ hm.openScope
  exact ⟨hm'.pop (hm.opened.trans (Nat.le_succ _)), hr⟩

theorem nested {act : EvalM α} {act' : EvalM α'} (h : EvalM.Folds p V act act') :
    EvalM.Folds p V (EvalM.nested act) (EvalM.nested act') := by
  intro m m' hm
  rw [EvalM.nested_run, EvalM.nested_run]
  obtain ⟨hm', hr⟩ := h { m with depth := m.depth + 1 } { m' with depth := m'.depth + 1 }
    { hm with depth := congrArg (· + 1) hm.depth }
  exact ⟨{ hm' with depth := congrArg (· - 1) hm'.depth }, hr⟩

end EvalM.Folds

/-- What calls of functions do that differ in how they write their slots. -/
def CallersFold (call call' : Caller) : Prop :=
  ∀ {p : Pins} {v v' : Value} {args args' : List Value}, v.Folds v' →
    List.Forall₂ Value.Folds args args' → EvalM.Folds p Value.Folds (call v args) (call' v' args')

/-- Related locations. -/
inductive Location.Folds : Location → Location → Prop where
  | variable {x : String} (hx : x ≠ indexTemp) : Folds (.variable x) (.variable x)
  | entry {t t' k k' : Value} (ht : t.Folds t') (hk : k.Folds k') :
    Folds (.entry t k) (.entry t' k')

/-- Related ends of statements. -/
inductive Flow.Folds : Flow → Flow → Prop where
  | next : Folds .next .next
  | returned {v v' : Value} (h : v.Folds v') : Folds (.returned v) (.returned v')

theorem store_folds (c : Chain) {l l' : Location} (hl : l.Folds l') {v v' : Value}
    (hv : v.Folds v') : EvalM.Folds p (fun _ _ => True) (store c l v) (store c l' v') := by
  cases hl with
  | «variable» hx => exact .modify fun _ _ hm => hm.assign hx hv c
  | @entry t _ _ _ ht hk =>
    cases ht with
    | plain t _ =>
      cases t with
      | table id => exact .setEntry id hk hv
      | _ => exact .fault _
    | closure => exact .fault _

theorem storeAll_folds (c : Chain) {ls ls' : List Location}
    (hl : List.Forall₂ Location.Folds ls ls') {vs vs' : List Value}
    (hv : List.Forall₂ Value.Folds vs vs') :
    EvalM.Folds p (fun _ _ => True) (storeAll c ls vs) (storeAll c ls' vs') := by
  induction hl generalizing vs vs' with
  | nil => exact .pure trivial
  | cons hl _ ih =>
    cases hv with
    | nil => exact (store_folds c hl .nil).bind fun _ _ _ => ih .nil
    | cons hv hvs => exact (store_folds c hl hv).bind fun _ _ _ => ih hvs

theorem applyUnary_folds (op : UnaryOp) {v v' : Value} (hv : v.Folds v') :
    EvalM.Folds p Value.Folds (applyUnary op v) (applyUnary op v') := by
  cases op with
  | not => simpa only [applyUnary, hv.alike.isTruthy] using .pure (.boolean _)
  | neg =>
    cases hv with
    | plain v _ =>
      cases v with
      | number x => exact .pure (.number _)
      | _ => exact .fault _
    | closure => exact .fault _
  | len =>
    cases hv with
    | plain v _ =>
      cases v with
      | table id =>
        intro m m' hm
        refine ⟨hm, .ok ?_⟩
        rw [Table.border_congr (hm.tables id)]
        exact .number _
      | string s => exact .pure (.number _)
      | _ => exact .fault _
    | closure => exact .fault _

theorem builtin_folds (b : Builtin) {args args' : List Value}
    (h : List.Forall₂ Value.Folds args args') : Value.Folds (b.apply args) (b.apply args') := by
  rw [Value.Alike.builtin b (h.imp fun _ _ hv => hv.alike)]
  cases b <;> exact .string _

theorem succeeds_of_integer {text : String} {k : Int} (h : integerOf? text = some k)
    (hk : k.natAbs < 2 ^ 53) : Succeeds (toString (k + 1)) text := by
  refine ⟨Float.ofInt k, floatOf?_integer h (hk.trans (by decide)), ?_⟩
  rw [Decimal.ofInt_add_one hk]
  exact floatOf?_toString_int (by omega)

/-- A sum has the value of the constant that stands for it. -/
theorem eval_slot {slot index : String} (h : Succeeds slot index) :
    ∃ x, floatOf? slot = some x ∧ ∀ (call : Caller) (c : Chain),
      (Code.binary (.number index) .add (.integer 1)).eval call c = pure (.number x) := by
  obtain ⟨x, hx, hs⟩ := h
  have hone : floatOf? (toString (1 : Int)) = some (Float.ofNat 1) :=
    (floatOf?_toString 1).trans
      (congrArg some (Decimal.Scaled.toFloat_natCast (by decide : 1 < 2 ^ 53)))
  refine ⟨x + Float.ofNat 1, hs, fun call c => ?_⟩
  simp only [Code.integer, Code.eval, hx, hone, pure_bind]
  rfl

theorem execAll_bindLocal (call : Caller) (c : Chain) (x : String) (e : Code) (rest : List Code) :
    Code.execAll call c (.bindLocal x e :: rest) = (do
      let v ← e.eval call c
      EvalM.declare c x v
      Code.execAll call c rest) := by
  simp only [Code.bindLocal, Code.execAll, Code.exec, Code.evalAll, Machine.declareAll, bind_assoc,
    pure_bind, EvalM.declare]

section Kept

variable {call call' : Caller} {n : ScopeId} {c : Chain}

/-- A key that both programs keep is the same in both. -/
theorem eval_kept (hp : p.pin n = .shared) :
    EvalM.Folds p Value.Folds (Code.eval call (n :: c) (.name indexTemp))
      (Code.eval call' (n :: c) (.name indexTemp)) := by
  intro m m' hm
  have hpin := hm.pins n
  rw [hp] at hpin
  obtain ⟨v, v', hv, hv', hf⟩ := hpin
  simp only [Code.eval, EvalM.bind_run, EvalM.get_run, EvalM.pure_run, Machine.lookup?_head hv,
    Machine.lookup?_head hv']
  exact ⟨hm, .ok hf⟩

/-- A slot that one program keeps is the constant of the other. -/
theorem eval_pinned {slot : String} (hp : p.pin n = .fixed slot) :
    EvalM.Folds p Value.Folds (Code.eval call (n :: c) (.number slot))
      (Code.eval call' (n :: c) (.name indexTemp)) := by
  intro m m' hm
  have hpin := hm.pins n
  rw [hp] at hpin
  obtain ⟨x, hx, hv⟩ := hpin
  simp only [Code.eval, hx, EvalM.bind_run, EvalM.get_run, EvalM.pure_run, Machine.lookup?_head hv]
  exact ⟨hm, .ok (.number x)⟩

end Kept

mutual

theorem eval_folds {call call' : Caller} (hcall : CallersFold call call') {p : Pins} {n : ScopeId}
    {c : Chain} {pin : Pin} (hn : n < p.opened) (hp : p.pin n = pin) : {e e' : Code} →
    e.Folds pin e' → EvalM.Folds p Value.Folds (e.eval call (n :: c)) (e'.eval call' (n :: c))
  | _, _, .nil => by
    simp only [Code.eval]
    exact .pure .nil
  | _, _, .boolean b => by
    simp only [Code.eval]
    exact .pure (.boolean b)
  | _, _, .number text => by
    simp only [Code.eval]
    cases floatOf? text with
    | some x => exact .pure (.number x)
    | none => exact .fault _
  | _, _, .string s => by
    simp only [Code.eval]
    exact .pure (.string s)
  | _, _, .name hx => by
    simp only [Code.eval]
    exact fun m m' hm => ⟨hm, .ok (.getD (hm.lookup? hx _))⟩
  | _, _, .slot h => by
    obtain ⟨x, hx, hsum⟩ := eval_slot h
    rw [hsum]
    simp only [Code.eval, hx]
    exact .pure (.number x)
  | _, _, .kept => eval_kept hp
  | _, _, .pinned _ => eval_pinned hp
  | _, _, .index ht hk => by
    simp only [Code.eval]
    refine (eval_folds hcall hn hp ht).bind fun t t' ht => ?_
    exact (eval_folds hcall hn hp hk).bind fun k k' hk => .index ht hk
  | _, _, .member ht x => by
    simp only [Code.eval]
    exact (eval_folds hcall hn hp ht).bind fun t t' ht => .index ht (.string x)
  | _, _, .call he ha => by
    simp only [Code.eval]
    refine (eval_folds hcall hn hp he).bind fun v v' hv => ?_
    exact (evalAll_folds hcall hn hp ha).bind fun vs vs' hvs => hcall hv hvs
  | _, _, .invoke he x ha => by
    simp only [Code.eval]
    refine (eval_folds hcall hn hp he).bind fun r r' hr => ?_
    refine (EvalM.Folds.index hr (.string x)).bind fun v v' hv => ?_
    exact (evalAll_folds hcall hn hp ha).bind fun vs vs' hvs => hcall hv (.cons hr hvs)
  | _, _, .binary hl op hr => by
    simp only [Code.eval]
    refine (eval_folds hcall hn hp hl).bind fun a a' ha => ?_
    rw [ha.alike.settledBy op]
    split
    · exact .pure ha
    · exact (eval_folds hcall hn hp hr).bind fun b b' hb => .ofExcept (.apply Value.Folds.alike .plain op ha hb)
  | _, _, .unary op he => by
    simp only [Code.eval]
    exact (eval_folds hcall hn hp he).bind fun v v' hv => applyUnary_folds op hv
  | _, _, .table hf => by
    simp only [Code.eval]
    refine EvalM.Folds.newTable.bind fun id id' hid => ?_
    subst hid
    exact (fillAll_folds hcall hn hp id 1 hf).bind fun _ _ _ => .pure (.table id)
  | _, _, .function hb => by
    simp only [Code.eval]
    exact .newClosure _ _ hb
  | _, _, .paren he => by
    simp only [Code.eval]
    exact eval_folds hcall hn hp he
  | _, _, .locals .. | _, _, .localFunction .. | _, _, .assign .. | _, _, .perform _
  | _, _, .returns _ | _, _, .block _ => by
    simp only [Code.eval]
    exact .fault _

theorem evalAll_folds {call call' : Caller} (hcall : CallersFold call call') {p : Pins}
    {n : ScopeId} {c : Chain} {pin : Pin} (hn : n < p.opened) (hp : p.pin n = pin) :
    {es es' : List Code} → Code.FoldAll pin es es' → EvalM.Folds p (List.Forall₂ Value.Folds)
      (Code.evalAll call (n :: c) es) (Code.evalAll call' (n :: c) es')
  | _, _, .nil => by
    simp only [Code.evalAll]
    exact .pure .nil
  | _, _, .cons h hr => by
    simp only [Code.evalAll]
    refine (eval_folds hcall hn hp h).bind fun v v' hv => ?_
    exact (evalAll_folds hcall hn hp hr).bind fun vs vs' hvs => .pure (.cons hv hvs)

theorem fillAll_folds {call call' : Caller} (hcall : CallersFold call call') {p : Pins}
    {n : ScopeId} {c : Chain} {pin : Pin} (hn : n < p.opened) (hp : p.pin n = pin) (id : TableId)
    (slot : Nat) : {fs fs' : List Field} → Field.FoldAll pin fs fs' →
    EvalM.Folds p (fun _ _ => True) (Field.fillAll call (n :: c) id slot fs)
      (Field.fillAll call' (n :: c) id slot fs')
  | _, _, .nil => by
    simp only [Field.fillAll]
    exact .pure trivial
  | _, _, .item h hr => by
    simp only [Field.fillAll]
    refine (eval_folds hcall hn hp h).bind fun v v' hv => ?_
    refine (EvalM.Folds.setEntry id (.number _) hv).bind fun _ _ _ => ?_
    exact fillAll_folds hcall hn hp id (slot + 1) hr
  | _, _, .named x h hr => by
    simp only [Field.fillAll]
    refine (eval_folds hcall hn hp h).bind fun v v' hv => ?_
    refine (EvalM.Folds.setEntry id (.string x) hv).bind fun _ _ _ => ?_
    exact fillAll_folds hcall hn hp id slot hr
  | _, _, .keyed hk h hr => by
    simp only [Field.fillAll]
    refine (eval_folds hcall hn hp hk).bind fun k k' hk => ?_
    refine (eval_folds hcall hn hp h).bind fun v v' hv => ?_
    refine (EvalM.Folds.setEntry id hk hv).bind fun _ _ _ => ?_
    exact fillAll_folds hcall hn hp id slot hr

end

section Targets

variable {call call' : Caller} (hcall : CallersFold call call') {n : ScopeId} {c : Chain}
  {pin : Pin} (hn : n < p.opened) (hp : p.pin n = pin)
include hcall hn hp

theorem locate_folds {e e' : Code} (h : e.Folds pin e') (hx : e' ≠ .name indexTemp) :
    EvalM.Folds p Location.Folds (e.locate call (n :: c)) (e'.locate call' (n :: c)) := by
  cases h with
  | name hname => exact .pure (.variable hname)
  | kept => exact absurd rfl hx
  | pinned => exact absurd rfl hx
  | index ht hk =>
    simp only [Code.locate]
    refine (eval_folds hcall hn hp ht).bind fun t t' ht => ?_
    exact (eval_folds hcall hn hp hk).bind fun k k' hk => .pure (.entry ht hk)
  | member ht x =>
    simp only [Code.locate]
    exact (eval_folds hcall hn hp ht).bind fun t t' ht => .pure (.entry ht (.string x))
  | _ =>
    simp only [Code.locate]
    exact .fault _

theorem locateAll_folds {es es' : List Code} (h : Code.FoldAll pin es es')
    (hx : Code.name indexTemp ∉ es') :
    EvalM.Folds p (List.Forall₂ Location.Folds) (Code.locateAll call (n :: c) es)
      (Code.locateAll call' (n :: c) es') := by
  induction es generalizing es' with
  | nil =>
    cases h
    simp only [Code.locateAll]
    exact .pure .nil
  | cons e es ih =>
    cases h with
    | cons h hr =>
      simp only [Code.locateAll]
      rw [List.mem_cons, not_or] at hx
      refine (locate_folds hcall hn hp h (Ne.symm hx.1)).bind fun l l' hl => ?_
      exact (ih hr hx.2).bind fun ls ls' hls => .pure (.cons hl hls)

end Targets

mutual

theorem exec_folds {call call' : Caller} (hcall : CallersFold call call') {p : Pins} {n : ScopeId}
    {c : Chain} {pin : Pin} (hn : n < p.opened) (hp : p.pin n = pin) : {e e' : Code} →
    e.Folds pin e' → EvalM.Folds p Flow.Folds (e.exec call (n :: c)) (e'.exec call' (n :: c))
  | _, _, .locals hx he => by
    simp only [Code.exec]
    refine (evalAll_folds hcall hn hp he).bind fun vs vs' hvs => ?_
    have hx' := hx.imp_left hp.trans
    refine (EvalM.Folds.modify fun m m' hm => hm.declareAll hx' hvs c).bind fun _ _ _ => ?_
    exact .pure .next
  | _, _, .localFunction hx hb => by
    simp only [Code.exec]
    have hx' := hx.imp_left hp.trans
    have hdeclare {v v' : Value} (hv : v.Folds v') :=
      EvalM.Folds.modify fun m m' (hm : m.Folds p m') => hm.declare hx' hv c
    refine (hdeclare .nil).bind fun _ _ _ => ?_
    refine (EvalM.Folds.newClosure _ _ hb).bind fun v v' hv => ?_
    exact (hdeclare hv).bind fun _ _ _ => .pure .next
  | _, _, .assign ht hx he => by
    simp only [Code.exec]
    refine (locateAll_folds hcall hn hp ht hx).bind fun ls ls' hls => ?_
    refine (evalAll_folds hcall hn hp he).bind fun vs vs' hvs => ?_
    exact (storeAll_folds _ hls hvs).bind fun _ _ _ => .pure .next
  | _, _, .perform he => by
    simp only [Code.exec]
    exact (eval_folds hcall hn hp he).bind fun _ _ _ => .pure .next
  | _, _, .returns .nil => by
    simp only [Code.exec]
    exact .pure (.returned .nil)
  | _, _, .returns (.cons h _) => by
    simp only [Code.exec]
    exact (eval_folds hcall hn hp h).bind fun v v' hv => .pure (.returned hv)
  | _, _, .block hb => by
    simp only [Code.exec]
    refine EvalM.Folds.openScope _ fun i q hi hq m m' hm => ?_
    rw [← q.set_eq i hq]
    exact blockFolds_run hcall hi hq hb hm
  | _, _, .nil | _, _, .boolean _ | _, _, .number _ | _, _, .string _ | _, _, .name _
  | _, _, .slot _ | _, _, .kept | _, _, .pinned _ | _, _, .index .. | _, _, .member ..
  | _, _, .call .. | _, _, .invoke .. | _, _, .binary .. | _, _, .unary .. | _, _, .table _
  | _, _, .function _ | _, _, .paren _ => by
    simp only [Code.exec]
    exact .fault _

/-- Blocks end alike. What they keep belongs to their own scope and is forgotten in the end. -/
theorem blockFolds_run {call call' : Caller} (hcall : CallersFold call call') {p : Pins}
    {n : ScopeId} {c : Chain} {pin : Pin} (hn : n < p.opened) (hp : p.pin n = pin) :
    {b b' : List Code} → Code.BlockFolds pin b b' → {m m' : Machine} → m.Folds p m' →
      EndAlike (p.set n .free) Flow.Folds (Code.execAll call (n :: c) b m)
        (Code.execAll call' (n :: c) b' m')
  | _, _, .nil, _, _, hm => by
    simp only [Code.execAll]
    exact ⟨hm.release n, .ok .next⟩
  | _, _, .cons h hr, m, m', hm => by
    simp only [Code.execAll]
    refine (exec_folds hcall hn hp h m m' hm).bind (fun hm => hm.release n) ?_
    intro f f' hf m m' hm
    cases hf with
    | next => exact blockFolds_run hcall hn hp hr hm
    | returned hv => exact ⟨hm.release n, .ok (.returned hv)⟩
  | _, _, .keep h hr, m, m', hm => by
    rw [execAll_bindLocal, execAll_bindLocal]
    refine (eval_folds hcall hn hp h m m' hm).bind (fun hm => hm.release n) ?_
    intro v v' hv m m' hm
    rw [← p.set_set n .shared]
    exact blockFolds_run (p := p.set n .shared) hcall hn (p.set_self n .shared) hr (hm.keep hn hv c)
  | _, _, .pin h hr, m, m', hm => by
    obtain ⟨x, hx, hsum⟩ := eval_slot h
    rw [execAll_bindLocal, hsum, pure_bind, ← p.set_set n (.fixed _)]
    exact blockFolds_run (p := p.set n (.fixed _)) hcall hn (p.set_self n _) hr (hm.fix hn hp hx c)

end

theorem runBody_folds {call call' : Caller} (hcall : CallersFold call call') {n : ScopeId}
    (hn : n < p.opened) (hp : p.pin n = .free) (c : Chain) {b b' : List Code}
    (hb : Code.BlockFolds .free b b') :
    EvalM.Folds p Value.Folds (runBody call (n :: c) b) (runBody call' (n :: c) b') := by
  have hrun : EvalM.Folds p Flow.Folds (Code.execAll call (n :: c) b)
      (Code.execAll call' (n :: c) b') := by
    intro m m' hm
    rw [← p.set_eq n hp]
    exact blockFolds_run hcall hn hp hb hm
  refine hrun.bind fun f f' hf => ?_
  cases hf with
  | next => exact .pure .nil
  | returned hv => exact .pure hv

/-- Calls of functions that write their slots differently end alike. -/
theorem callAt_folds (room : Nat) : CallersFold (callAt room) (callAt room) := by
  induction room with
  | zero =>
    intro p v v' args args' hv ha
    cases hv with
    | plain v hv =>
      cases v with
      | function f => exact absurd rfl (hv f)
      | builtin b => exact .pure (builtin_folds b ha)
      | _ => exact .fault _
    | closure => exact .fault _
  | succ room ih =>
    intro p v v' args args' hv ha
    cases hv with
    | plain v hv =>
      cases v with
      | function f => exact absurd rfl (hv f)
      | builtin b => exact .pure (builtin_folds b ha)
      | _ => exact .fault _
    | @closure id xs b b' c hb =>
      have hbody : EvalM.Folds p Value.Folds
          (do
            let d ← EvalM.openScope c
            modify fun m => m.declareAll d xs args
            EvalM.nested (runBody (callAt room) d b))
          (do
            let d ← EvalM.openScope c
            modify fun m => m.declareAll d xs args'
            EvalM.nested (runBody (callAt room) d b')) := by
        refine .openScope c fun n q hn hq => ?_
        refine (EvalM.Folds.modify fun m m' hm => hm.declareAll (.inl hq) ha c).bind
          fun _ _ _ => ?_
        exact (runBody_folds ih hn hq c hb).nested
      intro m m' hm
      simp only [callAt, EvalM.bind_run, EvalM.get_run, ← hm.depth]
      split
      · exact ⟨hm, .error _⟩
      · exact hbody m m' hm

/-- A chunk ends with the same result or fault, and with the same tables and variables, however it
writes its slots. -/
theorem runChunk_folds {b b' : List Code} (hb : Code.BlockFolds .free b b') :
    EvalM.Folds p Value.Folds (runChunk b) (runChunk b') := by
  refine .openScope [] fun n q hn hq m m' hm => ?_
  rw [EvalM.bind_run_ok (EvalM.get_run m), EvalM.bind_run_ok (EvalM.get_run m'), ← hm.depth]
  exact runBody_folds (callAt_folds _) hn hq [] hb m m' hm

end ScriptToLua.Lua
