import Mathlib
import ScriptToLua.Proofs.Lowering.WriteOrder
import ScriptToLua.Proofs.Lua.Fence

/-!
The names that running code leaves behind: none in the scopes that were there before, and among the
globals those that it assigns to without a declaration, `names_stay`. So the local variables of writes
and deletions are gone when these have run.
-/

namespace ScriptToLua

namespace Lua

/-- The scopes of the first machine declare the same names in the second, and all globals with names
outside of `P` are as they were. -/
structure Machine.KeepsNames (P : Set String) (m m' : Machine) : Prop extends m.SameNames m' where
  globals : ∀ x ∉ P, m'.globals.get? x = m.globals.get? x

namespace Machine

variable {m m' : Machine} {c : Chain} {A B P Q : Set String}

theorem KeepsNames.mono (h : m.KeepsNames P m') (hP : P ⊆ Q) : m.KeepsNames Q m' :=
  { h with globals := fun x hx => h.globals x fun hp => hx (hP hp) }

/-- All scopes of the machine are old, and the names in `A` and those that its functions assign to may
become global. -/
def fence (m : Machine) (A : Set String) : Fence := ⟨A ∪ m.assigned, m.scopes.size, False⟩

theorem admits_fence (h : B \ m.declared c ⊆ A ∪ m.assigned) : m.Admits (m.fence A) c B := ⟨h, nofun⟩

theorem obeys_fence_of_assigned {v : Value} (h : v.assigned m ⊆ A ∪ m.assigned) :
    v.Obeys (m.fence A) m := by
  cases v with
  | function f => exact admits_fence h
  | _ => trivial

theorem obeys_fence (m : Machine) (A : Set String) : m.Obeys (m.fence A) where
  old := le_rfl
  stored v hv := obeys_fence_of_assigned fun _ hx => .inr ⟨v, hv, hx⟩

theorem Grows.keepsNames (h : m.Grows (m.fence A) m') : m.KeepsNames (A ∪ m.assigned) m' where
  size := h.size
  contains := h.old
  globals := h.globals

end Machine

section Running

variable (m : Machine) (c : Chain)

theorem eval_keepsNames (e : Code) :
    m.KeepsNames (e.assigned \ m.declared c ∪ m.assigned) (e.eval Lua.call c m).2 :=
  (eval_stays (call_stays _) e (m.obeys_fence _)
    (Machine.admits_fence Set.subset_union_left)).grows.keepsNames

theorem call_keepsNames (f : Value) (args : List Value) :
    m.KeepsNames ({x | ∃ v ∈ f :: args, x ∈ v.assigned m} ∪ m.assigned) (Lua.call f args m).2 := by
  have hv (v : Value) (hv : v ∈ f :: args) :
      v.Obeys (m.fence {x | ∃ v ∈ f :: args, x ∈ v.assigned m}) m :=
    Machine.obeys_fence_of_assigned fun _ hx => .inl ⟨v, hv, hx⟩
  exact (call_stays _ (m.obeys_fence _) (hv f List.mem_cons_self) fun v hm =>
    hv v (List.mem_cons_of_mem f hm)).grows.keepsNames

/-- Statements that declare something are left out: they declare it in a scope that is there. -/
theorem exec_keepsNames {s : Code} (h : s.declares = []) :
    m.KeepsNames (s.assigned \ m.declared c ∪ m.assigned) (s.exec Lua.call c m).2 :=
  (exec_stays (call_stays _) s (m.obeys_fence _) (Machine.admits_fence Set.subset_union_left)
    fun hne => absurd h hne).grows.keepsNames

theorem runChunk_keepsNames (chunk : List Code) :
    m.KeepsNames (Code.blockAssigned chunk ∪ m.assigned) (runChunk chunk m).2 :=
  (runChunk_stays (m.obeys_fence _)
    (Machine.admits_fence (Set.sdiff_subset.trans Set.subset_union_left))).grows.keepsNames

/-- A chunk sees no scope of the chunks before it. -/
theorem openScope_lookup? (x : String) :
    (EvalM.openScope [] m).2.lookup? [m.scopes.size] x = m.globals.get? x := by
  have hscopes : (EvalM.openScope [] m).2.scopes = m.scopes.push .empty := rfl
  exact Machine.lookup?_push hscopes rfl [] x

end Running

section Assigned

theorem Code.blockAssigned_cons (s : Code) (rest : List Code) :
    Code.blockAssigned (s :: rest) ⊆ s.assigned ∪ Code.blockAssigned rest :=
  Set.union_subset_union_right _ Set.sdiff_subset

theorem Code.assigned_bindLocal (x : String) (e : Code) : (Code.bindLocal x e).assigned = e.assigned :=
  Set.union_empty _

theorem Code.assigned_yields (e : Code) : (Code.yields e).assigned = e.assigned := Set.union_empty _

theorem Code.assigned_immediate (body : List Code) :
    (Code.immediate body).assigned = Code.blockAssigned body := by
  simp only [Code.immediate, Code.assigned, Code.allAssigned, Set.union_empty, List.not_mem_nil,
    Set.ofPred_false, Set.sdiff_empty]

end Assigned

end Lua

namespace Lowering

open Lua

namespace Place

/-- The names that running the place and writing to it assigns to. -/
def assigned : Place → Set String
  | .variable x => {x}
  | .field t _ => t.assigned
  | .entry t k => t.assigned ∪ k.assigned

theorem code_assigned (p : Place) : p.code.assigned ⊆ p.assigned := by
  cases p with
  | «variable» x => exact Set.empty_subset _
  | field t x => exact subset_rfl
  | entry t k => exact subset_rfl

theorem store_assigned (p : Place) (e : Code) :
    (Code.store p.code e).assigned ⊆ p.assigned ∪ e.assigned := by
  have htarget : {x | Code.name x ∈ [p.code]} ⊆ p.assigned := by
    intro x hx
    have hp : Code.name x = p.code := List.mem_singleton.1 hx
    cases p with
    | «variable» y => exact Code.name.inj hp
    | field t y => cases hp
    | entry t k => cases hp
  have hpart : Code.allAssigned [p.code] ⊆ p.assigned :=
    Set.union_subset p.code_assigned (Set.empty_subset _)
  exact Set.union_subset_union (Set.union_subset htarget hpart) (Set.union_empty _).subset

theorem newValue_assigned (p : Place) (op : Option BinaryOp) (value : Code) :
    (p.newValue op value).assigned ⊆ p.assigned ∪ value.assigned := by
  cases op with
  | none => exact Set.subset_union_right
  | some op => exact Set.union_subset_union_left _ p.code_assigned

/-- What is kept of a part is evaluated before the rest, and in its place is a name. -/
theorem keep_assigned (temp : String) (pin : Bool) (e : Code) (rest : List Code) :
    Code.blockAssigned ((keep temp pin e).1 ++ rest) ⊆ e.assigned ∪ Code.blockAssigned rest ∧
      (keep temp pin e).2.assigned ⊆ e.assigned := by
  unfold keep
  split
  · refine ⟨(Code.blockAssigned_cons _ _).trans ?_, Set.empty_subset _⟩
    rw [Code.assigned_bindLocal]
    exact subset_rfl
  · exact ⟨Set.subset_union_right, subset_rfl⟩

theorem settle_assigned (pin : Bool) (p : Place) (rest : List Code) :
    Code.blockAssigned ((p.settle pin).1 ++ rest) ⊆ p.assigned ∪ Code.blockAssigned rest ∧
      (p.settle pin).2.assigned ⊆ p.assigned := by
  cases p with
  | «variable» x => exact ⟨Set.subset_union_right, subset_rfl⟩
  | field t x => exact keep_assigned objectTemp pin t rest
  | entry t k =>
    obtain ⟨hk, hk'⟩ := keep_assigned indexTemp pin k rest
    obtain ⟨ht, ht'⟩ := keep_assigned objectTemp pin t ((keep indexTemp pin k).1 ++ rest)
    refine ⟨?_, Set.union_subset_union ht' hk'⟩
    simp only [settle, List.append_assoc]
    refine ht.trans ?_
    rw [assigned, Set.union_assoc]
    exact Set.union_subset_union_right _ hk

/-- A value on its way through a local variable. -/
theorem through_assigned (p : Place) (e e' : Code) :
    Code.blockAssigned [.bindLocal valueTemp e, .store p.code e', .yields (.name valueTemp)] ⊆
      p.assigned ∪ (e.assigned ∪ e'.assigned) := by
  refine (Code.blockAssigned_cons _ _).trans (Set.union_subset ?_ ?_)
  · rw [Code.assigned_bindLocal]
    exact Set.subset_union_left.trans Set.subset_union_right
  · refine (Code.blockAssigned_cons _ _).trans (Set.union_subset ?_ ?_)
    · exact (p.store_assigned e').trans (Set.union_subset_union_right _ Set.subset_union_right)
    · refine (Code.blockAssigned_cons _ _).trans (Set.union_subset ?_ (Set.empty_subset _))
      rw [Code.assigned_yields]
      exact Set.empty_subset _

/-- A write to a place that assigns to no more than `p` does. -/
theorem written_assigned {p p' : Place} (h : p'.assigned ⊆ p.assigned) (op : Option BinaryOp)
    (value : Code) :
    (Code.store p'.code (p'.newValue op value)).assigned ⊆ p.assigned ∪ value.assigned := by
  refine (p'.store_assigned _).trans (Set.union_subset (h.trans Set.subset_union_left) ?_)
  exact (p'.newValue_assigned op value).trans (Set.union_subset_union_left _ h)

theorem assign_assigned (p : Place) (op : Option BinaryOp) (value : Code) (use : Use) :
    (p.assign op value use).assigned ⊆ p.assigned ∪ value.assigned := by
  cases use with
  | statement =>
    cases op with
    | none => exact written_assigned subset_rfl none value
    | some op =>
      have hplace := (p.settle_assigned false []).2
      have hblock := (p.settle_assigned false
        [.store (p.settle false).2.code ((p.settle false).2.newValue op value)]).1
      have hwrite := written_assigned hplace op value
      simp only [assign, Option.isSome_some, if_true]
      split
      · exact hwrite
      · refine hblock.trans (Set.union_subset Set.subset_union_left ?_)
        exact (Code.blockAssigned_cons _ _).trans (Set.union_subset hwrite (Set.empty_subset _))
  | value =>
    obtain ⟨hbody, -⟩ := p.settle_assigned (!value.isPure)
      [.bindLocal valueTemp ((p.settle (!value.isPure)).2.newValue op value),
        .store (p.settle (!value.isPure)).2.code (.name valueTemp), .yields (.name valueTemp)]
    have hplace := (p.settle_assigned (!value.isPure) []).2
    have hvalue := ((p.settle (!value.isPure)).2.newValue_assigned op value).trans
      (Set.union_subset_union_left _ hplace)
    simp only [assign, Code.assigned_immediate]
    refine hbody.trans (Set.union_subset Set.subset_union_left ?_)
    refine (through_assigned _ _ _).trans (Set.union_subset (hplace.trans Set.subset_union_left) ?_)
    exact Set.union_subset hvalue (Set.empty_subset _)

theorem update_assigned (p : Place) (op : BinaryOp) (yield : Yield) (use : Use) :
    (p.update op yield use).assigned ⊆ p.assigned := by
  have hassign : (p.assign (some op) (.integer 1) use).assigned ⊆ p.assigned :=
    (p.assign_assigned (some op) (.integer 1) use).trans (Set.union_empty _).subset
  cases yield with
  | new => exact hassign
  | old =>
    cases use with
    | statement => exact hassign
    | value =>
      obtain ⟨hbody, -⟩ := p.settle_assigned false
        [.bindLocal valueTemp (p.settle false).2.code,
          .store (p.settle false).2.code (.binary (.name valueTemp) op (.integer 1)),
          .yields (.name valueTemp)]
      have hplace := (p.settle_assigned false []).2
      simp only [update, Code.assigned_immediate]
      refine hbody.trans (Set.union_subset subset_rfl ?_)
      refine (through_assigned _ _ _).trans (Set.union_subset hplace (Set.union_subset ?_ ?_))
      · exact (code_assigned _).trans hplace
      · exact Set.union_subset (Set.empty_subset _) (Set.empty_subset _)

end Place

/-- Lowering a write adds no names to those that its parts assign to. -/
theorem Write.code_assigned (w : Write) (p : Place) (use : Use) :
    (w.code p use).assigned ⊆ p.assigned ∪ w.value.assigned := by
  cases w with
  | assign op value => exact p.assign_assigned op value use
  | update op yield => exact (p.update_assigned op yield use).trans Set.subset_union_left

theorem deletion_assigned (p : Place) (use : Use) : (deletion p.code use).assigned ⊆ p.assigned := by
  have hstore : (Code.store p.code .nil).assigned ⊆ p.assigned :=
    (p.store_assigned .nil).trans (Set.union_empty _).subset
  cases use with
  | statement => exact hstore
  | value =>
    simp only [deletion, Code.assigned_immediate]
    refine (Code.blockAssigned_cons _ _).trans (Set.union_subset hstore ?_)
    exact (Code.blockAssigned_cons _ _).trans (Set.union_subset
      ((Code.assigned_yields _).trans_subset (Set.empty_subset _)) (Set.empty_subset _))

/-- The code of a write or of a deletion opens a scope of its own for what it declares. -/
theorem Write.code_declares (w : Write) (p : Place) : (w.code p .statement).declares = [] := by
  have hassign (op : Option BinaryOp) (value : Code) :
      (p.assign op value .statement).declares = [] := by
    cases op with
    | none => rfl
    | some op =>
      simp only [Place.assign, Option.isSome_some, if_true]
      split
      · rfl
      · rfl
  cases w with
  | assign op value => exact hassign op value
  | update op yield => cases yield <;> exact hassign (some op) (.integer 1)

section Leaving

variable (m : Machine) (c : Chain)

theorem write_keepsNames (w : Write) (p : Place) (use : Use) :
    m.KeepsNames ((p.assigned ∪ w.value.assigned) \ m.declared c ∪ m.assigned)
      (w.run Lua.call c p use m).2 := by
  have hP : (w.code p use).assigned \ m.declared c ∪ m.assigned ⊆
      (p.assigned ∪ w.value.assigned) \ m.declared c ∪ m.assigned :=
    Set.union_subset_union_left _ (Set.sdiff_subset_sdiff_left (w.code_assigned p use))
  cases use with
  | statement => exact (exec_keepsNames m c (w.code_declares p)).mono hP
  | value =>
    have hrun : (w.run Lua.call c p .value m).2 = ((w.code p .value).eval Lua.call c m).2 := by
      rw [Write.run, EvalM.bind_run]
      generalize (w.code p .value).eval Lua.call c m = o
      obtain ⟨_ | v, n⟩ := o
      · rfl
      · rfl
    rw [hrun]
    exact (eval_keepsNames m c (w.code p .value)).mono hP

theorem deletion_keepsNames (p : Place) :
    m.KeepsNames (p.assigned \ m.declared c ∪ m.assigned)
        ((deletion p.code .statement).exec Lua.call c m).2 ∧
      m.KeepsNames (p.assigned \ m.declared c ∪ m.assigned)
        ((deletion p.code .value).eval Lua.call c m).2 := by
  have hP (use : Use) : (deletion p.code use).assigned \ m.declared c ∪ m.assigned ⊆
      p.assigned \ m.declared c ∪ m.assigned :=
    Set.union_subset_union_left _ (Set.sdiff_subset_sdiff_left (deletion_assigned p use))
  exact ⟨(exec_keepsNames m c rfl).mono (hP .statement), (eval_keepsNames m c _).mono (hP .value)⟩

/-- However it ends, running an expression, a call, a block, a chunk, a write or a deletion declares no
name in a scope that was there before, in the enclosing scope as little as in any other, and changes no
global but those that running code assigns to without a declaration. The next chunk sees nothing but the
globals. -/
theorem names_stay :
    (∀ e : Code, m.KeepsNames (e.assigned \ m.declared c ∪ m.assigned) (e.eval Lua.call c m).2) ∧
    (∀ f args, m.KeepsNames ({x | ∃ v ∈ f :: args, x ∈ v.assigned m} ∪ m.assigned)
      (Lua.call f args m).2) ∧
    (∀ body, m.KeepsNames ((Code.block body).assigned \ m.declared c ∪ m.assigned)
      ((Code.block body).exec Lua.call c m).2) ∧
    (∀ chunk, let m' := (runChunk chunk m).2
      m.KeepsNames (Code.blockAssigned chunk ∪ m.assigned) m' ∧
        ∀ x, (EvalM.openScope [] m').2.lookup? [m'.scopes.size] x = m'.globals.get? x) ∧
    (∀ (w : Write) p use, m.KeepsNames ((p.assigned ∪ w.value.assigned) \ m.declared c ∪ m.assigned)
      (w.run Lua.call c p use m).2) ∧
    ∀ p : Place,
      m.KeepsNames (p.assigned \ m.declared c ∪ m.assigned)
        ((deletion p.code .statement).exec Lua.call c m).2 ∧
      m.KeepsNames (p.assigned \ m.declared c ∪ m.assigned)
        ((deletion p.code .value).eval Lua.call c m).2 :=
  ⟨eval_keepsNames m c, call_keepsNames m, fun _ => exec_keepsNames m c rfl,
    fun chunk => ⟨runChunk_keepsNames m chunk, openScope_lookup? _⟩, write_keepsNames m c,
    deletion_keepsNames m c⟩

end Leaving

end Lowering

end ScriptToLua
