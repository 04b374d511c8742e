import Mathlib
import ScriptToLua.Proofs.Lua.Declarations
import ScriptToLua.Proofs.Lua.Kinds
import ScriptToLua.Proofs.Lua.Purity

/-!
The tree of scopes. Every scope lies in an older one or right in the globals, so going outwards from a scope
ends, and there is one chain that begins with it: `ScopeTree.exists_isPath`, `ScopeTree.isPath_unique`. Code
runs in such chains, and functions remember such chains. Running code adds scopes to the tree and moves none:
`eval_branches` for expressions, `exec_branches` for statements, `callAt_branches` for calls,
`runChunk_branches` for chunks.
-/

namespace ScriptToLua.Lua

/-- Which scope is right around each scope. -/
structure ScopeTree where
  /-- The scope around each scope, by number, or `none` where only the globals are around it. -/
  around : List (Option ScopeId)
  /-- The scope around a scope was opened before it. -/
  older : ∀ i j : ScopeId, around[i]? = some (some j) → j < i

variable {t t' t'' : ScopeTree} {c c' : Chain} {i : ScopeId}

namespace ScopeTree

/-- The tree without scopes. -/
def empty : ScopeTree := ⟨[], nofun⟩

/-- The chain goes from its first scope outwards through all scopes around it. -/
def IsPath (t : ScopeTree) : Chain → Prop
  | [] => True
  | i :: c => t.around[i]? = some c.head? ∧ t.IsPath c

/-- The second tree has the scopes of the first where they were, and maybe more. -/
def Extends (t t' : ScopeTree) : Prop := t.around <+: t'.around

theorem Extends.refl (t : ScopeTree) : t.Extends t := List.prefix_rfl

theorem Extends.trans (h : t.Extends t') (h' : t'.Extends t'') : t.Extends t'' :=
  List.IsPrefix.trans h h'

theorem Extends.around_eq (h : t.Extends t') {o : Option ScopeId} (ho : t.around[i]? = some o) :
    t'.around[i]? = some o := by
  obtain ⟨l, hl⟩ := h
  have hi : i < t.around.length := (List.getElem?_eq_some_iff.1 ho).1
  rw [← hl, List.getElem?_append_left hi, ho]

theorem IsPath.mono (h : t.IsPath c) (ht : t.Extends t') : t'.IsPath c := by
  induction c with
  | nil => trivial
  | cons i c ih => exact ⟨ht.around_eq h.1, ih h.2⟩

theorem IsPath.lt_length (h : t.IsPath c) (hi : i ∈ c) : i < t.around.length := by
  induction c with
  | nil => cases hi
  | cons j c ih =>
    rcases List.mem_cons.1 hi with rfl | hi
    · exact (List.getElem?_eq_some_iff.1 h.1).1
    · exact ih h.2 hi

/-- Going outwards from a scope ends in the globals. The induction is on its number, as every scope lies
in an older one. -/
theorem exists_isPath (h : i < t.around.length) : ∃ c, t.IsPath (i :: c) := by
  induction i using Nat.strong_induction_on with
  | _ i ih =>
    have ho : t.around[i]? = some t.around[i] := List.getElem?_eq_getElem h
    cases hj : t.around[i] with
    | none =>
      refine ⟨[], ?_, trivial⟩
      rw [ho, hj]
      rfl
    | some j =>
      rw [hj] at ho
      have hlt : j < i := t.older i j ho
      obtain ⟨c, hc⟩ := ih j hlt (hlt.trans h)
      exact ⟨j :: c, ho, hc⟩

/-- From a scope there is one way to the globals. -/
theorem isPath_unique (h : t.IsPath c) (h' : t.IsPath c') (he : c.head? = c'.head?) : c = c' := by
  induction c generalizing c' with
  | nil =>
    cases c' with
    | nil => rfl
    | cons j c' => cases he
  | cons i c ih =>
    cases c' with
    | nil => cases he
    | cons j c' =>
      obtain rfl : i = j := Option.some.inj he
      have hnext : c.head? = c'.head? := Option.some.inj (h.1.symm.trans h'.1)
      rw [ih h.2 h'.2 hnext]

/-- The tree with one more scope, in the innermost scope of a chain. -/
def push (t : ScopeTree) (c : Chain) (hc : t.IsPath c) : ScopeTree where
  around := t.around ++ [c.head?]
  older i j h := by
    rcases Nat.lt_trichotomy i t.around.length with hi | rfl | hi
    · rw [List.getElem?_append_left hi] at h
      exact t.older i j h
    · rw [List.getElem?_concat_length] at h
      exact hc.lt_length (List.mem_of_mem_head? (Option.some.inj h))
    · rw [List.getElem?_eq_none (by simpa using hi)] at h
      cases h

theorem extends_push (hc : t.IsPath c) : t.Extends (t.push c hc) := List.prefix_append _ _

theorem isPath_push (hc : t.IsPath c) : (t.push c hc).IsPath (t.around.length :: c) :=
  ⟨List.getElem?_concat_length, hc.mono (extends_push hc)⟩

end ScopeTree

/-- A function was made in a chain of the tree. -/
def Value.InTree (t : ScopeTree) : Value → Prop
  | .function f => t.IsPath f.chain
  | _ => True

variable {v : Value}

theorem Value.InTree.nil : Value.nil.InTree t := trivial

theorem Value.InTree.plain (h : ∀ f, v ≠ .function f) : v.InTree t := by
  cases v with
  | function f => exact absurd rfl (h f)
  | _ => trivial

theorem Value.InTree.mono (h : v.InTree t) (ht : t.Extends t') : v.InTree t' := by
  cases v with
  | function f => exact ScopeTree.IsPath.mono h ht
  | _ => trivial

/-- The machine has the scopes of the tree, and its functions were made in chains of it. -/
structure Machine.InTree (t : ScopeTree) (m : Machine) : Prop where
  size : m.scopes.size = t.around.length
  stored : ∀ v, m.Stores v → v.InTree t

namespace Machine.InTree

variable {m m' : Machine}

theorem initial : Machine.initial.InTree .empty where
  size := rfl
  stored v hv := by
    cases hv with
    | global hv =>
      have hbuiltin : Machine.initial.globals.AllValues (Value.InTree .empty) := by
        intro e he
        change e ∈ [("tostring", Value.builtin .tostring), ("type", .builtin .type)] at he
        simp only [List.mem_cons, List.not_mem_nil, or_false] at he
        rcases he with rfl | rfl
        · trivial
        · trivial
      exact hbuiltin.get? hv
    | «variable» hv => cases hv
    | entry hv => cases hv

/-- Scopes stay what they are while values move. -/
theorem of_stores (h : m.InTree t) (hs : m'.scopes.size = m.scopes.size)
    (hv : ∀ v, m'.Stores v → m.Stores v ∨ v.InTree t) : m'.InTree t where
  size := hs.trans h.size
  stored v hm := by
    rcases hv v hm with hm | hv
    · exact h.stored v hm
    · exact hv

theorem openScope (h : m.InTree t) (hc : t.IsPath c) :
    ({ m with scopes := m.scopes.push .empty } : Machine).InTree (t.push c hc) where
  size := by
    change (m.scopes.push .empty).size = (t.around ++ [c.head?]).length
    rw [Array.size_push, h.size, List.length_append, List.length_singleton]
  stored v hv := (h.stored v hv.of_openScope).mono (ScopeTree.extends_push hc)

theorem declare (h : m.InTree t) (c : Chain) (x : String) (hv : v.InTree t) :
    (m.declare c x v).InTree t := by
  refine h.of_stores (Machine.size_declare m c x v) fun w hw => ?_
  rcases hw.of_declare with hw | rfl
  · exact .inl hw
  · exact .inr hv

theorem assign (h : m.InTree t) (c : Chain) (x : String) (hv : v.InTree t) :
    (m.assign c x v).InTree t := by
  unfold Machine.assign
  split
  · exact h.declare _ x hv
  · exact h.declare _ x hv

theorem declareAll (h : m.InTree t) (c : Chain) (xs : List String) {vs : List Value}
    (hv : ∀ v ∈ vs, v.InTree t) : (m.declareAll c xs vs).InTree t := by
  induction xs generalizing m vs with
  | nil => exact h
  | cons x xs ih =>
    cases vs with
    | nil => exact ih (h.declare c x .nil) hv
    | cons v vs =>
      obtain ⟨hhead, htail⟩ := List.forall_mem_cons.1 hv
      exact ih (h.declare c x hhead) htail

end Machine.InTree

/-- From a machine with the scopes of the tree, the computation leads to one with the scopes of a tree that
extends it, whether it ends with a value, which then has `V` there, or with a fault. -/
structure EvalM.Branches {α : Type} (t : ScopeTree) (V : ScopeTree → α → Prop) (act : EvalM α) :
    Prop where
  run : ∀ m, m.InTree t → ∃ t', t.Extends t' ∧ (act m).2.InTree t' ∧
    ∀ a, (act m).1 = .ok a → V t' a

namespace EvalM.Branches

open EvalM

variable {α β : Type} {V : ScopeTree → α → Prop} {W : ScopeTree → β → Prop}

/-- The computation opens no scope. -/
theorem level {act : EvalM α} (h : ∀ m, m.InTree t → (act m).2.InTree t ∧
    ∀ a, (act m).1 = .ok a → V t a) : Branches t V act :=
  ⟨fun m hm => ⟨t, .refl t, h m hm⟩⟩

theorem pure {a : α} (h : V t a) : Branches t V (Pure.pure a) := by
  apply level
  intro m hm
  refine ⟨hm, fun b hb => ?_⟩
  cases hb
  exact h

theorem fault {e : Fault} : Branches t V (throw e) := level fun _ hm => ⟨hm, nofun⟩

theorem get : Branches t Machine.InTree (get : EvalM Machine) := by
  apply level
  intro m hm
  refine ⟨hm, fun n hn => ?_⟩
  cases hn
  exact hm

theorem modify {f : Machine → Machine} (h : ∀ m, m.InTree t → (f m).InTree t) :
    Branches t (fun _ _ => True) (modify f) := level fun m hm => ⟨h m hm, fun _ _ => trivial⟩

theorem bind {act : EvalM α} {next : α → EvalM β} (h : Branches t V act)
    (hn : ∀ a t', t.Extends t' → V t' a → Branches t' W (next a)) :
    Branches t W (act >>= next) := by
  constructor
  intro m hm
  obtain ⟨t', ht, hm', hv⟩ := h.run m hm
  rw [bind_run]
  generalize act m = o at hm' hv
  obtain ⟨_ | a, m'⟩ := o
  · exact ⟨t', ht, hm', nofun⟩
  · obtain ⟨t'', ht', hm'', hw⟩ := (hn a t' ht (hv a rfl)).run m' hm'
    exact ⟨t'', ht.trans ht', hm'', hw⟩

theorem ofExcept {r : Except Fault α} (h : ∀ a, r = .ok a → V t a) :
    Branches t V (EvalM.ofExcept r) := by
  cases r with
  | ok a => exact .pure (h a rfl)
  | error e => exact .fault

theorem index (target key : Value) : Branches t Value.InTree (EvalM.index target key) := by
  apply level
  intro m hm
  rw [Reads.index target key m]
  refine ⟨hm, fun v hv => ?_⟩
  rcases Machine.Stores.of_index hv with hv | rfl
  · exact hm.stored v hv
  · exact .nil

theorem setEntry (id : TableId) (key : Value) (hv : v.InTree t) :
    Branches t (fun _ _ => True) (EvalM.setEntry id key v) := by
  apply level
  intro m hm
  have hsize := congrArg Array.size (Machine.scopes_setEntry m id key v)
  have hin := hm.of_stores hsize fun w hw => by
    rcases hw.of_setEntry with hw | rfl
    · exact .inl hw
    · exact .inr hv
  exact ⟨hin, fun _ _ => trivial⟩

theorem newTable : Branches t (fun _ _ => True) EvalM.newTable :=
  level fun _ hm => ⟨hm.of_stores rfl fun _ hw => .inl hw.of_newTable, fun _ _ => trivial⟩

theorem newClosure (parameters : List String) (body : List Code) (hc : t.IsPath c) :
    Branches t Value.InTree (EvalM.newClosure parameters body c) := by
  apply level
  intro m hm
  refine ⟨hm.of_stores rfl fun _ hw => .inl hw.of_counts, fun v hv => ?_⟩
  cases hv
  exact hc

theorem openScope (hc : t.IsPath c) :
    Branches t (fun t' d => t'.IsPath d) (EvalM.openScope c) := by
  constructor
  intro m hm
  refine ⟨t.push c hc, ScopeTree.extends_push hc, hm.openScope hc, fun d hd => ?_⟩
  rw [openScope_run, hm.size] at hd
  cases hd
  exact ScopeTree.isPath_push hc

theorem declare (c : Chain) (x : String) (hv : v.InTree t) :
    Branches t (fun _ _ => True) (EvalM.declare c x v) := modify fun _ hm => hm.declare c x hv

theorem nested {act : EvalM α} (h : Branches t V act) : Branches t V (EvalM.nested act) := by
  constructor
  intro m hm
  have hin : ({ m with depth := m.depth + 1 } : Machine).InTree t :=
    hm.of_stores rfl fun _ hw => .inl hw.of_counts
  obtain ⟨t', ht, hm', hv⟩ := h.run _ hin
  rw [nested_run]
  exact ⟨t', ht, hm'.of_stores rfl fun _ hw => .inl hw.of_counts, hv⟩

end EvalM.Branches

open EvalM (Branches)

/-- Functions of the tree are called with values of the tree. -/
def Caller.Branches (call : Caller) : Prop :=
  ∀ {t : ScopeTree} {f : Value} {args : List Value}, f.InTree t → (∀ v ∈ args, v.InTree t) →
    EvalM.Branches t Value.InTree (call f args)

def Flow.InTree (t : ScopeTree) : Flow → Prop
  | .next => True
  | .returned v => v.InTree t

theorem store_branches (c : Chain) (l : Location) (hv : v.InTree t) :
    Branches t (fun _ _ => True) (store c l v) := by
  cases l with
  | «variable» x => exact .modify fun _ hm => hm.assign c x hv
  | entry target key =>
    cases target with
    | table id => exact .setEntry id key hv
    | _ => exact .fault

theorem storeAll_branches (c : Chain) (ls : List Location) {vs : List Value}
    (hv : ∀ v ∈ vs, v.InTree t) : Branches t (fun _ _ => True) (storeAll c ls vs) := by
  induction ls generalizing t vs with
  | nil => exact .pure trivial
  | cons l ls ih =>
    cases vs with
    | nil => exact (store_branches c l .nil).bind fun _ _ _ _ => ih (List.forall_mem_nil _)
    | cons v vs =>
      obtain ⟨hhead, htail⟩ := List.forall_mem_cons.1 hv
      exact (store_branches c l hhead).bind fun _ _ ht _ => ih fun w hw => (htail w hw).mono ht

theorem applyUnary_branches (op : UnaryOp) (v : Value) :
    Branches t Value.InTree (applyUnary op v) := by
  apply Branches.level
  intro m hm
  rw [applyUnary_reads op v m]
  exact ⟨hm, fun w hw => .plain (applyUnary_ne_function hw)⟩

theorem apply_inTree {op : BinaryOp} {a b : Value} (ha : a.InTree t) (hb : b.InTree t)
    (h : op.apply a b = .ok v) : v.InTree t := by
  rcases apply_cases h with rfl | rfl | hplain
  · exact ha
  · exact hb
  · exact .plain hplain

section Code

variable {call : Caller}

mutual

theorem eval_branches (hcall : call.Branches) :
    (e : Code) → {t : ScopeTree} → t.IsPath c → Branches t Value.InTree (e.eval call c)
  | .nil, _, _ | .boolean _, _, _ | .string _, _, _ => by
    simp only [Code.eval]
    exact .pure trivial
  | .number text, _, _ => by
    simp only [Code.eval]
    cases floatOf? text with
    | some x => exact .pure trivial
    | none => exact .fault
  | .name x, _, _ => by
    simp only [Code.eval]
    refine Branches.get.bind fun m _ _ hm => .pure ?_
    cases hx : m.lookup? c x with
    | none => exact .nil
    | some v => exact hm.stored v (.of_lookup? hx)
  | .index table key, _, hc => by
    simp only [Code.eval]
    refine (eval_branches hcall table hc).bind fun target _ h₁ _ => ?_
    exact (eval_branches hcall key (hc.mono h₁)).bind fun k _ _ _ => .index target k
  | .member table x, _, hc => by
    simp only [Code.eval]
    exact (eval_branches hcall table hc).bind fun target _ _ _ => .index target _
  | .call callee arguments, _, hc => by
    simp only [Code.eval]
    refine (eval_branches hcall callee hc).bind fun f _ h₁ hf => ?_
    exact (evalAll_branches hcall arguments (hc.mono h₁)).bind fun args _ h₂ hargs =>
      hcall (hf.mono h₂) hargs
  | .invoke receiver method arguments, _, hc => by
    simp only [Code.eval]
    refine (eval_branches hcall receiver hc).bind fun r _ h₁ hr => ?_
    refine (Branches.index r (.string method)).bind fun f _ h₂ hf => ?_
    refine (evalAll_branches hcall arguments (hc.mono (h₁.trans h₂))).bind fun args _ h₃ hargs => ?_
    exact hcall (hf.mono h₃) (List.forall_mem_cons.2 ⟨hr.mono (h₂.trans h₃), hargs⟩)
  | .binary left op right, _, hc => by
    simp only [Code.eval]
    refine (eval_branches hcall left hc).bind fun a _ h₁ ha => ?_
    split
    · exact .pure ha
    · refine (eval_branches hcall right (hc.mono h₁)).bind fun b _ h₂ hb => ?_
      exact .ofExcept fun v hv => apply_inTree (ha.mono h₂) hb hv
  | .unary op operand, _, hc => by
    simp only [Code.eval]
    exact (eval_branches hcall operand hc).bind fun v _ _ _ => applyUnary_branches op v
  | .table fields, _, hc => by
    simp only [Code.eval]
    refine Branches.newTable.bind fun id _ h₁ _ => ?_
    exact (fillAll_branches hcall id 1 fields (hc.mono h₁)).bind fun _ _ _ _ => .pure trivial
  | .function parameters body, _, hc => by
    simp only [Code.eval]
    exact .newClosure parameters body hc
  | .paren inner, _, hc => by
    simp only [Code.eval]
    exact eval_branches hcall inner hc
  | .locals _ _, _, _ | .localFunction _ _ _, _, _ | .assign _ _, _, _ | .perform _, _, _
  | .returns _, _, _ | .block _, _, _ => by
    simp only [Code.eval]
    exact .fault

theorem evalAll_branches (hcall : call.Branches) :
    (es : List Code) → {t : ScopeTree} → t.IsPath c →
      Branches t (fun t' vs => ∀ v ∈ vs, v.InTree t') (Code.evalAll call c es)
  | [], _, _ => by
    simp only [Code.evalAll]
    exact .pure nofun
  | e :: rest, _, hc => by
    simp only [Code.evalAll]
    refine (eval_branches hcall e hc).bind fun v _ h₁ hv => ?_
    refine (evalAll_branches hcall rest (hc.mono h₁)).bind fun vs _ h₂ hvs => ?_
    exact .pure (List.forall_mem_cons.2 ⟨hv.mono h₂, hvs⟩)

theorem fillAll_branches (hcall : call.Branches) (id : TableId) (slot : Nat) :
    (fs : List Field) → {t : ScopeTree} → t.IsPath c →
      Branches t (fun _ _ => True) (Field.fillAll call c id slot fs)
  | [], _, _ => by
    simp only [Field.fillAll]
    exact .pure trivial
  | .item value :: rest, _, hc => by
    simp only [Field.fillAll]
    refine (eval_branches hcall value hc).bind fun v _ h₁ hv => ?_
    refine (Branches.setEntry id _ hv).bind fun _ _ h₂ _ => ?_
    exact fillAll_branches hcall id _ rest (hc.mono (h₁.trans h₂))
  | .named x value :: rest, _, hc => by
    simp only [Field.fillAll]
    refine (eval_branches hcall value hc).bind fun v _ h₁ hv => ?_
    refine (Branches.setEntry id _ hv).bind fun _ _ h₂ _ => ?_
    exact fillAll_branches hcall id _ rest (hc.mono (h₁.trans h₂))
  | .keyed key value :: rest, _, hc => by
    simp only [Field.fillAll]
    refine (eval_branches hcall key hc).bind fun k _ h₁ _ => ?_
    refine (eval_branches hcall value (hc.mono h₁)).bind fun v _ h₂ hv => ?_
    refine (Branches.setEntry id k hv).bind fun _ _ h₃ _ => ?_
    exact fillAll_branches hcall id _ rest (hc.mono ((h₁.trans h₂).trans h₃))

end

theorem locate_branches (hcall : call.Branches) (e : Code) (hc : t.IsPath c) :
    Branches t (fun _ _ => True) (e.locate call c) := by
  cases e with
  | name x =>
    simp only [Code.locate]
    exact .pure trivial
  | index table key =>
    simp only [Code.locate]
    refine (eval_branches hcall table hc).bind fun target _ h₁ _ => ?_
    exact (eval_branches hcall key (hc.mono h₁)).bind fun k _ _ _ => .pure trivial
  | member table x =>
    simp only [Code.locate]
    exact (eval_branches hcall table hc).bind fun target _ _ _ => .pure trivial
  | _ =>
    simp only [Code.locate]
    exact .fault

theorem locateAll_branches (hcall : call.Branches) (es : List Code) (hc : t.IsPath c) :
    Branches t (fun _ _ => True) (Code.locateAll call c es) := by
  induction es generalizing t with
  | nil =>
    simp only [Code.locateAll]
    exact .pure trivial
  | cons e rest ih =>
    simp only [Code.locateAll]
    refine (locate_branches hcall e hc).bind fun l _ h₁ _ => ?_
    exact (ih (hc.mono h₁)).bind fun ls _ _ _ => .pure trivial

mutual

theorem exec_branches (hcall : call.Branches) {c : Chain} :
    (s : Code) → {t : ScopeTree} → t.IsPath c → Branches t Flow.InTree (s.exec call c)
  | .locals names values, _, hc => by
    simp only [Code.exec]
    refine (evalAll_branches hcall values hc).bind fun vs _ _ hvs => ?_
    exact (Branches.modify fun m hm => hm.declareAll c names hvs).bind fun _ _ _ _ => .pure trivial
  | .localFunction x parameters body, _, hc => by
    simp only [Code.exec]
    refine (Branches.declare c x .nil).bind fun _ _ h₁ _ => ?_
    refine (Branches.newClosure parameters body (hc.mono h₁)).bind fun f _ h₂ hf => ?_
    exact (Branches.declare c x hf).bind fun _ _ _ _ => .pure trivial
  | .assign targets values, _, hc => by
    simp only [Code.exec]
    refine (locateAll_branches hcall targets hc).bind fun ls _ h₁ _ => ?_
    refine (evalAll_branches hcall values (hc.mono h₁)).bind fun vs _ _ hvs => ?_
    exact (storeAll_branches c ls hvs).bind fun _ _ _ _ => .pure trivial
  | .perform expression, _, hc => by
    simp only [Code.exec]
    exact (eval_branches hcall expression hc).bind fun _ _ _ _ => .pure trivial
  | .returns [], _, _ => by
    simp only [Code.exec]
    exact .pure trivial
  | .returns (value :: _), _, hc => by
    simp only [Code.exec]
    exact (eval_branches hcall value hc).bind fun v _ _ hv => .pure hv
  | .block body, _, hc => by
    simp only [Code.exec]
    exact (Branches.openScope hc).bind fun d _ _ hd => execAll_branches hcall body hd
  | .nil, _, _ | .boolean _, _, _ | .number _, _, _ | .string _, _, _ | .name _, _, _
  | .index _ _, _, _ | .member _ _, _, _ | .call _ _, _, _ | .invoke _ _ _, _, _
  | .binary _ _ _, _, _ | .unary _ _, _, _ | .table _, _, _ | .function _ _, _, _
  | .paren _, _, _ => by
    simp only [Code.exec]
    exact .fault

theorem execAll_branches (hcall : call.Branches) {c : Chain} :
    (body : List Code) → {t : ScopeTree} → t.IsPath c →
      Branches t Flow.InTree (Code.execAll call c body)
  | [], _, _ => by
    simp only [Code.execAll]
    exact .pure trivial
  | s :: rest, _, hc => by
    simp only [Code.execAll]
    refine (exec_branches hcall s hc).bind fun w _ h₁ hw => ?_
    cases w with
    | returned v => exact .pure hw
    | next => exact execAll_branches hcall rest (hc.mono h₁)

end

theorem runBody_branches (hcall : call.Branches) (body : List Code) (hc : t.IsPath c) :
    Branches t Value.InTree (runBody call c body) := by
  refine (execAll_branches hcall body hc).bind fun w _ _ hw => ?_
  cases w with
  | next => exact .pure .nil
  | returned v => exact .pure hw

end Code

/-- A call adds its scopes to the tree, and so do the calls that it leads to. -/
theorem callAt_branches (room : Nat) : Caller.Branches (callAt room) := by
  have hbuiltin (t : ScopeTree) (b : Builtin) (args : List Value) : (b.apply args).InTree t := by
    cases b <;> trivial
  induction room with
  | zero =>
    intro t f args _ _
    cases f with
    | builtin b => exact .pure (hbuiltin t b args)
    | _ => exact .fault
  | succ room ih =>
    intro t f args hf hargs
    cases f with
    | builtin b => exact .pure (hbuiltin t b args)
    | function f =>
      simp only [callAt]
      refine Branches.get.bind fun m _ h₁ _ => ?_
      split
      · exact .fault
      · refine (Branches.openScope (hf.mono h₁)).bind fun d _ h₂ hd => ?_
        have hbound : ∀ v ∈ args, v.InTree _ := fun v hv => (hargs v hv).mono (h₁.trans h₂)
        refine (Branches.modify fun m hm => hm.declareAll d f.parameters hbound).bind
          fun _ _ h₃ _ => ?_
        exact (runBody_branches ih f.body (hd.mono h₃)).nested
    | _ => exact .fault

theorem runChunk_branches (chunk : List Code) : Branches t Value.InTree (runChunk chunk) := by
  have hglobals : t.IsPath [] := trivial
  refine (Branches.openScope hglobals).bind fun d _ _ hd => ?_
  exact Branches.get.bind fun m _ h₁ _ =>
    runBody_branches (callAt_branches _) chunk (hd.mono h₁)

end ScriptToLua.Lua
