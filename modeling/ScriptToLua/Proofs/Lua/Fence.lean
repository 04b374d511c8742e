import Mathlib
import ScriptToLua.Proofs.Lua.Declarations
import ScriptToLua.Proofs.Lua.Frame
import ScriptToLua.Proofs.Lua.Kinds
import ScriptToLua.Proofs.Lua.Purity

/-!
Running code keeps within its fence. It declares names in scopes that it has opened itself, and adds to
the globals only names that no declaration covers: `eval_stays` for expressions, `exec_stays` for
statements, `callAt_stays` for calls, `runChunk_stays` for chunks.
-/

namespace ScriptToLua.Lua

variable {L : Fence} {m m' : Machine} {c : Chain} {A : Set String} {v : Value} {x : String}

/-- Statements declare their names in the innermost scope of the chain, which has to be a new one. -/
def Machine.Opens (L : Fence) (m : Machine) (c : Chain) : Prop :=
  ∃ i d, c = i :: d ∧ L.old ≤ i ∧ i < m.scopes.size

theorem Machine.Opens.mono (h : m.Opens L c) (hg : m.Grows L m') : m'.Opens L c := by
  obtain ⟨i, d, hc, hi, hl⟩ := h
  exact ⟨i, d, hc, hi, hl.trans_le hg.size⟩

/-- The computation keeps within the fence on the machine, whether it ends with a value, which then has
`V`, or with a fault. -/
structure EvalM.Stays {α : Type} (L : Fence) (V : Machine → α → Prop) (act : EvalM α) (m : Machine) :
    Prop where
  grows : m.Grows L (act m).2
  obeys : (act m).2.Obeys L
  result : ∀ a, (act m).1 = .ok a → V (act m).2 a

section Steps

open EvalM

variable {α β : Type} {V : Machine → α → Prop} {W : Machine → β → Prop} {vs : List Value}

namespace EvalM.Stays

theorem step {act : EvalM α} {a : α} (h : m.Obeys L) (hact : act m = (.ok a, m'))
    (hg : m.Grows L m') (hs : ∀ v, m'.Stores v → m.Stores v ∨ v.Obeys L m) (hv : V m' a) :
    Stays L V act m where
  grows := by rwa [hact]
  obeys := by
    rw [hact]
    exact h.of_grows hg hs
  result b hb := by
    rw [hact] at hb ⊢
    cases hb
    exact hv

theorem pure {a : α} (h : m.Obeys L) (hv : V m a) : Stays L V (Pure.pure a) m :=
  .step h rfl (.refl m) (fun _ => .inl) hv

theorem get (h : m.Obeys L) : Stays L (fun _ _ => True) (get : EvalM Machine) m :=
  .step h rfl (.refl m) (fun _ => .inl) trivial

theorem fault {e : Fault} (h : m.Obeys L) : Stays L V (throw e) m where
  grows := .refl m
  obeys := h
  result _ he := by cases he

theorem bind {act : EvalM α} {next : α → EvalM β} (h : Stays L V act m)
    (hn : ∀ a m', m'.Obeys L → m.Grows L m' → V m' a → Stays L W (next a) m') :
    Stays L W (act >>= next) m := by
  obtain ⟨hg, ho, hv⟩ := h
  have hrun := bind_run act next m
  generalize act m = o at hg ho hv hrun
  obtain ⟨_ | a, m'⟩ := o
  · exact ⟨by rwa [hrun], by rwa [hrun], fun b hb => by rw [hrun] at hb; cases hb⟩
  · obtain ⟨hg', ho', hw⟩ := hn a m' ho hg (hv a rfl)
    exact ⟨by rw [hrun]; exact hg.trans hg', by rwa [hrun], by rwa [hrun]⟩

theorem mono {act : EvalM α} {V' : Machine → α → Prop} (h : Stays L V act m)
    (hv : ∀ a m', V m' a → V' m' a) : Stays L V' act m :=
  ⟨h.grows, h.obeys, fun a ha => hv a _ (h.result a ha)⟩

theorem ofExcept {r : Except Fault α} (h : m.Obeys L) (hv : ∀ a, r = .ok a → V m a) :
    Stays L V (EvalM.ofExcept r) m := by
  cases r with
  | ok a => exact .pure h (hv a rfl)
  | error e => exact .fault h

/-- What only reads makes no names. -/
theorem reads {act : EvalM α} (hr : Reads act) (h : m.Obeys L)
    (hv : ∀ a, act m = (.ok a, m) → V m a) : Stays L V act m := by
  have hrun := hr.run m
  cases ha : (act m).1 with
  | error e =>
    rw [ha] at hrun
    exact ⟨by rw [hrun]; exact .refl m, by rwa [hrun], fun b hb => by rw [hrun] at hb; cases hb⟩
  | ok a =>
    rw [ha] at hrun
    exact .step h hrun (.refl m) (fun _ => .inl) (hv a hrun)

theorem index (h : m.Obeys L) (t k : Value) : Stays L (Value.Obeys L) (EvalM.index t k) m := by
  refine .reads (.index t k) h fun v hv => ?_
  rcases Machine.Stores.of_index (congrArg Prod.fst hv) with hv | rfl
  · exact h.stored v hv
  · exact .nil

theorem setEntry (h : m.Obeys L) (id : TableId) (k : Value) (hv : v.Obeys L m) :
    Stays L (fun _ _ => True) (EvalM.setEntry id k v) m := by
  rcases Machine.setEntry_run_cases m id k v with ⟨e, hrun⟩ | ⟨key, hrun⟩
  · exact ⟨by rw [hrun]; exact .refl m, by rwa [hrun], fun _ _ => trivial⟩
  · refine .step h hrun (.of_rest m _ m.nextClosure m.depth) (fun w hw => ?_) trivial
    exact hw.of_write.imp_right (by rintro rfl; exact hv)

theorem newTable (h : m.Obeys L) : Stays L (fun _ _ => True) EvalM.newTable m :=
  .step h (newTable_run m) (.of_rest m _ m.nextClosure m.depth) (fun _ hw => .inl hw.of_newTable)
    trivial

theorem newClosure {parameters : List String} {body : List Code} (h : m.Obeys L)
    (ha : m.Admits L c (Code.function parameters body).assigned) :
    Stays L (Value.Obeys L) (EvalM.newClosure parameters body c) m := by
  have hg : m.Grows L { m with nextClosure := m.nextClosure + 1 } :=
    .of_rest m m.tables _ m.depth
  exact .step h (newClosure_run parameters body c m) hg (fun _ hw => .inl hw.of_counts)
    (ha.mono hg subset_rfl)

/-- The new scope is one that the fence lets the code declare names in. -/
theorem openScope (h : m.Obeys L) (ha : m.Admits L c A) :
    Stays L (fun m' d => m'.Opens L d ∧ m'.Admits L d A) (EvalM.openScope c) m := by
  have hg := Machine.Grows.openScope (L := L) m
  have hlt : m.scopes.size < (m.scopes.push .empty).size := by
    rw [Array.size_push]
    exact Nat.lt_succ_self _
  exact .step h (openScope_run c m) hg (fun _ hw => .inl hw.of_openScope)
    ⟨⟨_, c, rfl, h.old, hlt⟩, (ha.mono hg subset_rfl).inner hlt⟩

theorem nested {act : EvalM Value}
    (h : Stays L (Value.Obeys L) act { m with depth := m.depth + 1 }) :
    Stays L (Value.Obeys L) (EvalM.nested act) m := by
  have hin : m.Grows L { m with depth := m.depth + 1 } := .of_rest m _ _ _
  have hout (m' : Machine) : m'.Grows L { m' with depth := m'.depth - 1 } := .of_rest m' _ _ _
  refine ⟨(hin.trans h.grows).trans (hout _), ?_, fun v hv => (h.result v hv).mono (hout _)⟩
  exact h.obeys.of_grows (hout _) fun _ hw => .inl hw.of_counts

theorem assign (h : m.Obeys L) (ha : m.Admits L c {x}) (hv : v.Obeys L m) :
    Stays L (fun _ _ => True) (modify fun m => m.assign c x v) m :=
  .step h (modify_run _ m) (.assign ha v)
    (fun _ hw => hw.of_assign.imp_right (by rintro rfl; exact hv)) trivial

end EvalM.Stays

/-- Functions that may be called are called with arguments that may be called. -/
def Caller.Stays (L : Fence) (call : Caller) : Prop :=
  ∀ {m : Machine} {f : Value} {args : List Value}, m.Obeys L → f.Obeys L m →
    (∀ v ∈ args, v.Obeys L m) → EvalM.Stays L (Value.Obeys L) (call f args) m

/-- The name at the location is one that may be assigned to. -/
def Location.Obeys (L : Fence) (c : Chain) (m : Machine) : Location → Prop
  | .variable x => m.Admits L c {x}
  | .entry _ _ => True

theorem Location.Obeys.mono {l : Location} (h : l.Obeys L c m) (hg : m.Grows L m') :
    l.Obeys L c m' := by
  cases l with
  | «variable» x => exact Machine.Admits.mono h hg subset_rfl
  | entry t k => trivial

def Flow.Obeys (L : Fence) (m : Machine) : Flow → Prop
  | .next => True
  | .returned v => v.Obeys L m

theorem declareAll_stays (h : m.Obeys L) (hc : m.Opens L c) (xs : List String)
    (hv : ∀ v ∈ vs, v.Obeys L m) :
    Stays L (fun m' _ => ∀ x ∈ xs, x ∈ m'.declared c) (modify fun m => m.declareAll c xs vs) m := by
  obtain ⟨i, d, rfl, hi, hl⟩ := hc
  obtain ⟨hg, ho, hx⟩ := h.declareAll hi hl d xs hv
  exact ⟨hg, ho, fun _ _ => hx⟩

theorem store_stays {l : Location} (h : m.Obeys L) (hl : l.Obeys L c m) (hv : v.Obeys L m) :
    Stays L (fun _ _ => True) (store c l v) m := by
  cases l with
  | «variable» x => exact .assign h hl hv
  | entry t k =>
    cases t with
    | table id => exact .setEntry h id k hv
    | _ => exact .fault h

theorem storeAll_stays {ls : List Location} (h : m.Obeys L) (hl : ∀ l ∈ ls, l.Obeys L c m)
    (hv : ∀ v ∈ vs, v.Obeys L m) : Stays L (fun _ _ => True) (storeAll c ls vs) m := by
  induction ls generalizing m vs with
  | nil => exact .pure h trivial
  | cons l ls ih =>
    obtain ⟨hl, hls⟩ := List.forall_mem_cons.1 hl
    cases vs with
    | nil =>
      refine (store_stays h hl .nil).bind fun _ m' h' hg _ => ?_
      exact ih h' (fun l hl => (hls l hl).mono hg) nofun
    | cons v vs =>
      obtain ⟨hv, hvs⟩ := List.forall_mem_cons.1 hv
      refine (store_stays h hl hv).bind fun _ m' h' hg _ => ?_
      exact ih h' (fun l hl => (hls l hl).mono hg) fun v hv => (hvs v hv).mono hg

theorem applyUnary_stays (h : m.Obeys L) (op : UnaryOp) (v : Value) :
    Stays L (Value.Obeys L) (applyUnary op v) m := by
  refine .reads (applyUnary_reads op v) h fun w hw => .plain ?_
  exact applyUnary_ne_function (congrArg Prod.fst hw)

theorem apply_obeys {op : BinaryOp} {a b : Value} (ha : a.Obeys L m) (hb : b.Obeys L m)
    (h : op.apply a b = .ok v) : v.Obeys L m := by
  rcases apply_cases h with rfl | rfl | hplain
  · exact ha
  · exact hb
  · exact .plain hplain

section Code

variable {call : Caller}

mutual

theorem eval_stays (hcall : Caller.Stays L call) :
    (e : Code) → {m : Machine} → m.Obeys L → m.Admits L c e.assigned →
      Stays L (Value.Obeys L) (e.eval call c) m
  | .nil, _, h, _ | .boolean _, _, h, _ | .string _, _, h, _ => by
    simp only [Code.eval]
    exact .pure h trivial
  | .number text, _, h, _ => by
    simp only [Code.eval]
    cases floatOf? text with
    | some x => exact .pure h trivial
    | none => exact .fault h
  | .name x, m, h, _ => by
    refine .reads (Code.eval_reads call c (.name x) rfl) h fun v hv => ?_
    obtain rfl : (m.lookup? c x).getD .nil = v := Except.ok.inj (congrArg Prod.fst hv)
    cases hx : m.lookup? c x with
    | none => exact .nil
    | some v => exact h.stored v (.of_lookup? hx)
  | .index table key, _, h, ha => by
    simp only [Code.eval]
    refine (eval_stays hcall table h (ha.subset Set.subset_union_left)).bind fun t _ h₁ g₁ _ => ?_
    refine (eval_stays hcall key h₁ (ha.mono g₁ Set.subset_union_right)).bind fun k _ h₂ _ _ => ?_
    exact .index h₂ t k
  | .member table x, _, h, ha => by
    simp only [Code.eval]
    exact (eval_stays hcall table h ha).bind fun t _ h₁ _ _ => .index h₁ t _
  | .call callee arguments, _, h, ha => by
    simp only [Code.eval]
    refine (eval_stays hcall callee h (ha.subset Set.subset_union_left)).bind fun f _ h₁ g₁ hf => ?_
    refine (evalAll_stays hcall arguments h₁ (ha.mono g₁ Set.subset_union_right)).bind
      fun args _ h₂ g₂ hargs => ?_
    exact hcall h₂ (hf.mono g₂) hargs
  | .invoke receiver method arguments, _, h, ha => by
    simp only [Code.eval]
    refine (eval_stays hcall receiver h (ha.subset Set.subset_union_left)).bind
      fun r _ h₁ g₁ hr => ?_
    refine (Stays.index h₁ r (.string method)).bind fun f _ h₂ g₂ hf => ?_
    refine (evalAll_stays hcall arguments h₂
      (ha.mono (g₁.trans g₂) Set.subset_union_right)).bind fun args _ h₃ g₃ hargs => ?_
    exact hcall h₃ (hf.mono g₃) (List.forall_mem_cons.2 ⟨hr.mono (g₂.trans g₃), hargs⟩)
  | .binary left op right, _, h, ha => by
    simp only [Code.eval]
    refine (eval_stays hcall left h (ha.subset Set.subset_union_left)).bind fun a _ h₁ g₁ hl => ?_
    split
    · exact .pure h₁ hl
    · refine (eval_stays hcall right h₁ (ha.mono g₁ Set.subset_union_right)).bind
        fun b _ h₂ g₂ hr => ?_
      exact .ofExcept h₂ fun v hv => apply_obeys (hl.mono g₂) hr hv
  | .unary op operand, _, h, ha => by
    simp only [Code.eval]
    exact (eval_stays hcall operand h ha).bind fun v _ h₁ _ _ => applyUnary_stays h₁ op v
  | .table fields, _, h, ha => by
    simp only [Code.eval]
    refine (Stays.newTable h).bind fun id _ h₁ g₁ _ => ?_
    refine (fillAll_stays hcall id 1 fields h₁ (ha.mono g₁ subset_rfl)).bind fun _ _ h₂ _ _ => ?_
    exact .pure h₂ trivial
  | .function parameters body, _, h, ha => by
    simp only [Code.eval]
    exact .newClosure h ha
  | .paren inner, _, h, ha => by
    simp only [Code.eval]
    exact eval_stays hcall inner h ha
  | .locals _ _, _, h, _ | .localFunction _ _ _, _, h, _ | .assign _ _, _, h, _
  | .perform _, _, h, _ | .returns _, _, h, _ | .block _, _, h, _ => by
    simp only [Code.eval]
    exact .fault h

theorem evalAll_stays (hcall : Caller.Stays L call) :
    (es : List Code) → {m : Machine} → m.Obeys L → m.Admits L c (Code.allAssigned es) →
      Stays L (fun m' vs => ∀ v ∈ vs, v.Obeys L m') (Code.evalAll call c es) m
  | [], _, h, _ => by
    simp only [Code.evalAll]
    exact .pure h nofun
  | e :: rest, _, h, ha => by
    simp only [Code.evalAll]
    refine (eval_stays hcall e h (ha.subset Set.subset_union_left)).bind fun v _ h₁ g₁ hv => ?_
    refine (evalAll_stays hcall rest h₁ (ha.mono g₁ Set.subset_union_right)).bind
      fun vs _ h₂ g₂ hvs => ?_
    exact .pure h₂ (List.forall_mem_cons.2 ⟨hv.mono g₂, hvs⟩)

theorem fillAll_stays (hcall : Caller.Stays L call) (id : TableId) (slot : Nat) :
    (fs : List Field) → {m : Machine} → m.Obeys L → m.Admits L c (Field.allAssigned fs) →
      Stays L (fun _ _ => True) (Field.fillAll call c id slot fs) m
  | [], _, h, _ => by
    simp only [Field.fillAll]
    exact .pure h trivial
  | .item value :: rest, _, h, ha => by
    simp only [Field.fillAll]
    refine (eval_stays hcall value h (ha.subset Set.subset_union_left)).bind fun v _ h₁ g₁ hv => ?_
    refine (Stays.setEntry h₁ id _ hv).bind fun _ _ h₂ g₂ _ => ?_
    exact fillAll_stays hcall id _ rest h₂ (ha.mono (g₁.trans g₂) Set.subset_union_right)
  | .named x value :: rest, _, h, ha => by
    simp only [Field.fillAll]
    refine (eval_stays hcall value h (ha.subset Set.subset_union_left)).bind fun v _ h₁ g₁ hv => ?_
    refine (Stays.setEntry h₁ id _ hv).bind fun _ _ h₂ g₂ _ => ?_
    exact fillAll_stays hcall id _ rest h₂ (ha.mono (g₁.trans g₂) Set.subset_union_right)
  | .keyed key value :: rest, _, h, ha => by
    simp only [Field.fillAll]
    have hkey := ha.subset (Set.subset_union_left.trans Set.subset_union_left)
    have hvalue := ha.subset (Set.subset_union_right.trans Set.subset_union_left)
    refine (eval_stays hcall key h hkey).bind fun k _ h₁ g₁ _ => ?_
    refine (eval_stays hcall value h₁ (hvalue.mono g₁ subset_rfl)).bind fun v _ h₂ g₂ hv => ?_
    refine (Stays.setEntry h₂ id k hv).bind fun _ _ h₃ g₃ _ => ?_
    exact fillAll_stays hcall id _ rest h₃
      (ha.mono ((g₁.trans g₂).trans g₃) Set.subset_union_right)

end

theorem locate_stays (hcall : Caller.Stays L call) (e : Code) (h : m.Obeys L)
    (hx : ∀ x, e = .name x → m.Admits L c {x}) (ha : m.Admits L c e.assigned) :
    Stays L (fun m' l => l.Obeys L c m') (e.locate call c) m := by
  cases e with
  | name x =>
    simp only [Code.locate]
    exact .pure h (hx x rfl)
  | index table key =>
    simp only [Code.locate]
    refine (eval_stays hcall table h (ha.subset Set.subset_union_left)).bind fun t _ h₁ g₁ _ => ?_
    refine (eval_stays hcall key h₁ (ha.mono g₁ Set.subset_union_right)).bind fun k _ h₂ _ _ => ?_
    exact .pure h₂ trivial
  | member table x =>
    simp only [Code.locate]
    exact (eval_stays hcall table h ha).bind fun t _ h₁ _ _ => .pure h₁ trivial
  | _ =>
    simp only [Code.locate]
    exact .fault h

theorem locateAll_stays (hcall : Caller.Stays L call) (es : List Code) (h : m.Obeys L)
    (ha : m.Admits L c ({x | Code.name x ∈ es} ∪ Code.allAssigned es)) :
    Stays L (fun m' ls => ∀ l ∈ ls, l.Obeys L c m') (Code.locateAll call c es) m := by
  induction es generalizing m with
  | nil =>
    simp only [Code.locateAll]
    exact .pure h (List.forall_mem_nil _)
  | cons e rest ih =>
    have hx (x : String) (he : e = .name x) : m.Admits L c {x} :=
      ha.subset (Set.singleton_subset_iff.2 (.inl (by rw [he]; exact List.mem_cons_self)))
    have hrest : {x | Code.name x ∈ rest} ∪ Code.allAssigned rest ⊆
        {x | Code.name x ∈ e :: rest} ∪ Code.allAssigned (e :: rest) :=
      Set.union_subset_union (fun _ hy => List.mem_cons_of_mem e hy) Set.subset_union_right
    simp only [Code.locateAll]
    refine (locate_stays hcall e h hx
      (ha.subset (Set.subset_union_left.trans Set.subset_union_right))).bind fun l _ h₁ g₁ hl => ?_
    refine (ih h₁ (ha.mono g₁ hrest)).bind fun ls _ h₂ g₂ hls => ?_
    exact .pure h₂ (List.forall_mem_cons.2 ⟨hl.mono g₂, hls⟩)

mutual

theorem exec_stays (hcall : Caller.Stays L call) {c : Chain} :
    (s : Code) → {m : Machine} → m.Obeys L → m.Admits L c s.assigned →
      (s.declares ≠ [] → m.Opens L c) →
      Stays L (fun m' w => w.Obeys L m' ∧ ∀ x ∈ s.declares, x ∈ m'.declared c) (s.exec call c) m
  | .locals names values, m, h, ha, hc => by
    simp only [Code.exec]
    refine (evalAll_stays hcall values h ha).bind fun vs m₁ h₁ g₁ hvs => ?_
    cases names with
    | nil => exact .pure h₁ ⟨trivial, nofun⟩
    | cons x xs =>
      refine (declareAll_stays h₁ ((hc nofun).mono g₁) (x :: xs) hvs).bind fun _ _ h₂ _ hx => ?_
      exact .pure h₂ ⟨trivial, hx⟩
  | .localFunction x parameters body, m, h, ha, hc => by
    simp only [Code.exec]
    have hbody : (Code.function parameters body).assigned \ {y | y ∈ [x]} ⊆
        (Code.localFunction x parameters body).assigned := fun y hy =>
      ⟨hy.1.1, fun hm => (List.mem_cons.1 hm).elim (fun he => hy.2 (List.mem_singleton.2 he)) hy.1.2⟩
    have hnone : ∀ v ∈ ([] : List Value), v.Obeys L m := nofun
    have hfirst : Stays L (fun m' _ => ∀ y ∈ [x], y ∈ m'.declared c) (EvalM.declare c x .nil) m :=
      declareAll_stays h (hc nofun) [x] hnone
    refine hfirst.bind fun _ m₁ h₁ g₁ hx => ?_
    refine (Stays.newClosure h₁ ((ha.mono g₁ hbody).covered hx)).bind fun f m₂ h₂ g₂ hf => ?_
    have hone : ∀ v ∈ [f], v.Obeys L m₂ := List.forall_mem_singleton.2 hf
    have hsecond : Stays L (fun m' _ => ∀ y ∈ [x], y ∈ m'.declared c) (EvalM.declare c x f) m₂ :=
      declareAll_stays h₂ ((hc nofun).mono (g₁.trans g₂)) [x] hone
    exact hsecond.bind fun _ _ h₃ _ hx => .pure h₃ ⟨trivial, hx⟩
  | .assign targets values, _, h, ha, _ => by
    simp only [Code.exec]
    refine (locateAll_stays hcall targets h (ha.subset Set.subset_union_left)).bind
      fun ls _ h₁ g₁ hls => ?_
    refine (evalAll_stays hcall values h₁ (ha.mono g₁ Set.subset_union_right)).bind
      fun vs _ h₂ g₂ hvs => ?_
    refine (storeAll_stays h₂ (fun l hl => (hls l hl).mono g₂) hvs).bind fun _ _ h₃ _ _ => ?_
    exact .pure h₃ ⟨trivial, nofun⟩
  | .perform expression, _, h, ha, _ => by
    simp only [Code.exec]
    refine (eval_stays hcall expression h ha).bind fun _ _ h₁ _ _ => ?_
    exact .pure h₁ ⟨trivial, nofun⟩
  | .returns [], _, h, _, _ => by
    simp only [Code.exec]
    exact .pure h ⟨trivial, nofun⟩
  | .returns (value :: _), _, h, ha, _ => by
    simp only [Code.exec]
    refine (eval_stays hcall value h (ha.subset Set.subset_union_left)).bind fun v _ h₁ _ hv => ?_
    exact .pure h₁ ⟨hv, nofun⟩
  | .block body, _, h, ha, _ => by
    simp only [Code.exec]
    refine (Stays.openScope h ha).bind fun d _ h₁ _ ⟨hd, ha⟩ => ?_
    exact (execAll_stays hcall body h₁ ha hd).mono fun _ _ hw => ⟨hw, nofun⟩
  | .nil, _, h, _, _ | .boolean _, _, h, _, _ | .number _, _, h, _, _ | .string _, _, h, _, _
  | .name _, _, h, _, _ | .index _ _, _, h, _, _ | .member _ _, _, h, _, _ | .call _ _, _, h, _, _
  | .invoke _ _ _, _, h, _, _ | .binary _ _ _, _, h, _, _ | .unary _ _, _, h, _, _
  | .table _, _, h, _, _ | .function _ _, _, h, _, _ | .paren _, _, h, _, _ => by
    simp only [Code.exec]
    exact .fault h

theorem execAll_stays (hcall : Caller.Stays L call) {c : Chain} :
    (body : List Code) → {m : Machine} → m.Obeys L → m.Admits L c (Code.blockAssigned body) →
      m.Opens L c → Stays L (fun m' w => w.Obeys L m') (Code.execAll call c body) m
  | [], _, h, _, _ => by
    simp only [Code.execAll]
    exact .pure h trivial
  | s :: rest, _, h, ha, hc => by
    simp only [Code.execAll]
    refine (exec_stays hcall s h (ha.subset Set.subset_union_left) fun _ => hc).bind
      fun w _ h₁ g₁ ⟨hw, hx⟩ => ?_
    cases w with
    | returned v => exact .pure h₁ hw
    | next =>
      exact execAll_stays hcall rest h₁ ((ha.mono g₁ Set.subset_union_right).covered hx) (hc.mono g₁)

end

theorem runBody_stays (hcall : Caller.Stays L call) {body : List Code} (h : m.Obeys L)
    (ha : m.Admits L c (Code.blockAssigned body)) (hc : m.Opens L c) :
    Stays L (Value.Obeys L) (runBody call c body) m := by
  unfold runBody
  refine (execAll_stays hcall body h ha hc).bind fun w _ h₁ _ hw => ?_
  cases w with
  | next => exact .pure h₁ .nil
  | returned v => exact .pure h₁ hw

end Code

/-- A function may be called if its code may run among the scopes where it was made. -/
theorem enter_stays {call : Caller} (hcall : Caller.Stays L call) {parameters : List String}
    {body : List Code} {args : List Value} (h : m.Obeys L)
    (ha : m.Admits L c (Code.function parameters body).assigned) (hargs : ∀ v ∈ args, v.Obeys L m) :
    Stays L (Value.Obeys L)
      (do
        let d ← EvalM.openScope c
        modify fun m => m.declareAll d parameters args
        EvalM.nested (runBody call d body)) m := by
  refine (Stays.openScope h ha).bind fun d m₁ h₁ g₁ ⟨hd, ha₁⟩ => ?_
  refine (declareAll_stays h₁ hd parameters fun v hv => (hargs v hv).mono g₁).bind
    fun _ m₂ h₂ g₂ hx => ?_
  have hdeep : m₂.Grows L { m₂ with depth := m₂.depth + 1 } := .of_rest m₂ _ _ _
  have hbody : m₂.Admits L d (Code.blockAssigned body) := (ha₁.mono g₂ subset_rfl).covered hx
  exact (runBody_stays hcall (h₂.of_grows hdeep fun _ hw => .inl hw.of_counts)
    (hbody.mono hdeep subset_rfl) ((hd.mono g₂).mono hdeep)).nested

/-- A call stays within the fence, however many calls it may still make. -/
theorem callAt_stays (L : Fence) (room : Nat) : Caller.Stays L (callAt room) := by
  have hbuiltin (m : Machine) (b : Builtin) (args : List Value) : (b.apply args).Obeys L m := by
    cases b <;> trivial
  induction room with
  | zero =>
    intro m f args h _ _
    cases f with
    | builtin b => exact .pure h (hbuiltin m b args)
    | _ => exact .fault h
  | succ room ih =>
    intro m f args h hf hargs
    cases f with
    | builtin b => exact .pure h (hbuiltin m b args)
    | function f =>
      simp only [callAt]
      refine (Stays.get h).bind fun _ m₁ h₁ g₁ _ => ?_
      split
      · exact .fault h₁
      · exact enter_stays ih h₁ (hf.mono g₁) fun v hv => (hargs v hv).mono g₁
    | _ => exact .fault h

theorem call_stays (L : Fence) : Caller.Stays L Lua.call := by
  intro m f args h hf hargs
  unfold Lua.call
  exact (Stays.get h).bind fun _ m₁ h₁ g₁ _ =>
    callAt_stays L _ h₁ (hf.mono g₁) fun v hv => (hargs v hv).mono g₁

theorem runChunk_stays {chunk : List Code} (h : m.Obeys L)
    (ha : m.Admits L [] (Code.blockAssigned chunk)) :
    Stays L (Value.Obeys L) (runChunk chunk) m := by
  unfold runChunk
  refine (Stays.openScope h ha).bind fun d m₁ h₁ _ ⟨hd, ha₁⟩ => ?_
  exact (Stays.get h₁).bind fun n m₂ h₂ g₂ _ =>
    runBody_stays (callAt_stays L _) h₂ (ha₁.mono g₂ subset_rfl) (hd.mono g₂)

end Steps

section Sound

/-- The fence that lets all names be added, as long as chains lead to scopes that exist. -/
def Fence.sound : Fence := ⟨Set.univ, 0, True⟩

theorem Value.within_iff : v.Within m.scopes.size ↔ v.Obeys .sound m := by
  cases v with
  | function f => exact ⟨fun h => ⟨Set.subset_univ _, fun _ => h⟩, fun h => h.closed trivial⟩
  | _ => exact Iff.rfl

theorem Machine.sound_iff : m.Sound ↔ m.Obeys .sound := by
  constructor
  · intro h
    refine ⟨Nat.zero_le _, fun v hv => Value.within_iff.1 ?_⟩
    cases hv with
    | global hv => exact OrderedMap.AllValues.get? h.globals hv
    | «variable» hv => exact OrderedMap.AllValues.get? (h.scopes _) hv
    | entry hv => exact OrderedMap.AllValues.get? (h.tables _) hv
  · intro h
    exact ⟨fun e he => Value.within_iff.2 (h.stored _ (.global (OrderedMap.get?_of_mem he))),
      fun i e he => Value.within_iff.2 (h.stored _ (.variable (OrderedMap.get?_of_mem he))),
      fun id e he => Value.within_iff.2 (h.stored _ (.entry (OrderedMap.get?_of_mem he)))⟩

/-- However a chunk ends, it leaves a sound machine sound. -/
theorem runChunk_sound (h : m.Sound) (chunk : List Code) : (runChunk chunk m).2.Sound :=
  Machine.sound_iff.2
    (runChunk_stays (Machine.sound_iff.1 h) ⟨Set.subset_univ _, fun _ => nofun⟩).obeys

theorem eval_sound (h : m.Sound) (hc : ∀ i ∈ c, i < m.scopes.size) (e : Code) :
    (e.eval Lua.call c m).2.Sound :=
  Machine.sound_iff.2
    (eval_stays (call_stays _) e (Machine.sound_iff.1 h) ⟨Set.subset_univ _, fun _ => hc⟩).obeys

end Sound

end ScriptToLua.Lua
