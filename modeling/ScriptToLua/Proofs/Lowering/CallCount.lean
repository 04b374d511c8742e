import Mathlib
import ScriptToLua.Proofs.Lowering.WellFormed
import ScriptToLua.Proofs.Lua.Calls
import ScriptToLua.Proofs.Source.Tree

/-!
How often calls of one name stand in the source and in the code. Peeling a node changes nothing, and
each piece of code that the lowering builds has the calls of its parts: whatever is written twice only
reads.
-/

namespace ScriptToLua

open Lua (Code Field)
open Source (Arena Node NodeId)

/-- The name, if the node is one. -/
def Source.Node.name? : Node → Option String
  | .identifier x => some x
  | _ => none

/-- The node is no name, no call, and nothing that only stands around an expression. -/
def Source.Node.isOrdinary : Node → Bool
  | .identifier _ | .call .. | .parenthesized _ | .asserted .. => false
  | _ => true

/-- The name that stands under parentheses and assertions. -/
def Source.Arena.nameOf? (a : Arena) (id : NodeId) : Option String :=
  (a.get? (a.strip id)).bind Node.name?

/-- The node is a call of a name that is `f` in Lua. -/
def Source.Arena.callsName (a : Arena) (f : String) (id : NodeId) : Bool :=
  match a.get? id with
  | some (.call callee _) => (a.nameOf? callee).map Lua.rename = some f
  | _ => false

/-- How many calls of `f` there are in the tree under a node. -/
def Source.Arena.callsUnder (a : Arena) (f : String) (id : NodeId) : Nat :=
  a.weigh (a.callsName f) id

namespace Lowering

/-- The calls under the key and the value of a property. -/
def propertyCalls (a : Arena) (f : String) (p : Source.Key × NodeId) : Nat :=
  ((p.1.node?.toList ++ [p.2]).map (a.callsUnder f)).sum

section Source

variable {a : Arena} {f : String} {id : NodeId} {n : Node}

theorem callsName_within (a : Arena) (f : String) : a.Within (a.callsName f) := by
  intro id h
  unfold Arena.callsName at h
  split at h
  · next hn => exact Arena.has_of_get? hn
  · cases h

theorem peel?_of_callsName (id : NodeId) (h : a.callsName f id) : a.peel? id = none := by
  unfold Arena.callsName at h
  split at h
  · next hn => simp only [Arena.peel?, hn]
  · cases h

variable (ht : a.IsTree)

include ht

theorem callsUnder_call {callee : NodeId} {args : List NodeId}
    (h : a.get? id = some (.call callee args)) :
    a.callsUnder f id =
      (if (a.nameOf? callee).map Lua.rename = some f then 1 else 0) + a.callsUnder f callee +
        (args.map (a.callsUnder f)).sum := by
  have hname : a.callsName f id = decide ((a.nameOf? callee).map Lua.rename = some f) := by
    simp only [Arena.callsName, h]
  unfold Arena.callsUnder
  rw [ht.weigh_eq (callsName_within a f), Arena.children_of_get? h, hname, Node.children,
    List.map_cons, List.sum_cons, Nat.add_assoc]
  simp only [decide_eq_true_eq]

/-- All calls under a node that is none itself are under its children. -/
theorem callsUnder_eq (h : a.get? id = some n) (hn : ∀ callee args, n ≠ .call callee args) :
    a.callsUnder f id = (n.children.map (a.callsUnder f)).sum := by
  have hname : a.callsName f id = false := by
    unfold Arena.callsName
    rw [h]
    cases n with
    | call callee args => exact absurd rfl (hn callee args)
    | _ => rfl
  unfold Arena.callsUnder
  rw [ht.weigh_eq (callsName_within a f), Arena.children_of_get? h, hname]
  exact Nat.zero_add _

theorem callsUnder_object {properties : List (Source.Key × NodeId)}
    (h : a.get? id = some (.object properties)) :
    a.callsUnder f id = (properties.map (propertyCalls a f)).sum := by
  rw [callsUnder_eq ht h (by rintro _ _ ⟨⟩), Source.Node.children, List.flatMap_def, List.map_flatten,
    List.sum_flatten, List.map_map, List.map_map]
  rfl

theorem callsUnder_of_get?_none (h : a.get? id = none) : a.callsUnder f id = 0 := by
  have hname : a.callsName f id = false := by simp only [Arena.callsName, h]
  unfold Arena.callsUnder
  rw [ht.weigh_eq (callsName_within a f), Arena.children_of_get?_none h, hname]
  rfl

theorem callsUnder_strip (id : NodeId) : a.callsUnder f (a.strip id) = a.callsUnder f id :=
  ht.weigh_strip (callsName_within a f) peel?_of_callsName id

theorem callsUnder_of_peel? {inner : NodeId} (h : a.peel? id = some inner) :
    a.callsUnder f id = a.callsUnder f inner :=
  ht.weigh_of_peel? (callsName_within a f) peel?_of_callsName h

theorem nameOf?_of_peel? {inner : NodeId} (h : a.peel? id = some inner) :
    a.nameOf? id = a.nameOf? inner := by
  rw [Arena.nameOf?, ht.strip_of_peel? h, Arena.nameOf?]

omit ht in
theorem nameOf?_eq (h : a.peel? id = none) : a.nameOf? id = (a.get? id).bind Node.name? := by
  rw [Arena.nameOf?, Arena.strip, Arena.stripLayers_of_peel?_none h]

theorem underParens_eq (layers : Nat) (id : NodeId) :
    a.callsUnder f (underParens a layers id) = a.callsUnder f id ∧
      a.nameOf? (underParens a layers id) = a.nameOf? id := by
  induction layers generalizing id with
  | zero => exact ⟨rfl, rfl⟩
  | succ layers ih =>
    rw [underParens]
    split
    · next inner hn =>
      have hpeel : a.peel? id = some inner := by simp only [Arena.peel?, hn]
      rw [callsUnder_of_peel? ht hpeel, nameOf?_of_peel? ht hpeel]
      exact ih inner
    · exact ⟨rfl, rfl⟩

end Source

section Code

variable (f : String)

/-- The calls in a key. -/
def AccessKey.calls : AccessKey → Nat
  | .named _ => 0
  | .element key _ => key.calls f

/-- The calls in the operands of an access. -/
def Access.calls (a : Access) : Nat := a.receiver.calls f + a.key.calls f

theorem oneBased_calls (fold : Bool) (k : Code) : (oneBased fold k).calls f = k.calls f := by
  unfold oneBased
  split
  · next n hn =>
    obtain ⟨hn, -⟩ := Option.filter_eq_some_iff.1 hn
    obtain ⟨i, hi, -⟩ := Option.map_eq_some_iff.1 hn
    cases k with
    | number text => rfl
    | _ => cases hi
  · simp only [Code.calls, Code.integer, Nat.add_zero]

namespace Access

variable {f}

theorem key_calls_of_names {a : Access} {x : String} (h : a.Names x) : a.key.calls f = 0 := by
  rcases h with h | ⟨t, h⟩
  · rw [h]
    rfl
  · rw [h]
    rfl

theorem plain_calls (a : Access) : a.plain.code.calls f = a.calls f := by
  obtain ⟨receiver, key, shape⟩ := a
  cases key <;> simp only [plain, Place.code, Code.calls, Access.calls, AccessKey.calls,
    Nat.add_zero]

/-- Wherever an access lands, its operands are there once. -/
theorem Lands.calls {a : Access} {fold : Bool} {p : Place} (h : a.Lands fold (.place p)) :
    p.code.calls f = a.calls f := by
  cases h with
  | field h =>
    rw [Access.calls, key_calls_of_names h]
    rfl
  | indexText _ h =>
    simp only [Access.calls, h, AccessKey.calls, Place.code, Code.calls, oneBased_calls]
  | entry h => simp only [Access.calls, h, AccessKey.calls, Place.code, Code.calls]
  | slot h => simp only [Access.calls, h, AccessKey.calls, Place.code, Code.calls, oneBased_calls]

theorem place_calls (a : Access) (s : TypeStore) (fold : Bool) :
    (a.place s fold).code.calls f = a.calls f := by
  rcases a.place_cases s fold with hplain | hlands
  · rw [hplain]
    exact a.plain_calls
  · exact hlands.calls

theorem read_calls (a : Access) (s : TypeStore) (fold : Bool) :
    (a.read s fold).calls f = a.calls f := by
  rcases a.read_cases s fold with ⟨-, hplace⟩ | ⟨hlands, -, hlength⟩
  · rw [hplace]
    exact a.place_calls s fold
  · cases hlands with
    | length hx =>
      rw [hlength, Access.calls, key_calls_of_names hx]
      rfl

/-- An access reads as no name. -/
theorem read_name? (a : Access) (s : TypeStore) (fold : Bool) : (a.read s fold).name? = none := by
  rcases a.read_cases s fold with ⟨-, hplace⟩ | ⟨-, -, hlength⟩
  · rw [hplace]
    rcases a.place_cases s fold with hplain | hlands
    · rw [hplain]
      unfold Access.plain
      cases a.key <;> rfl
    · generalize a.place s fold = p at hlands
      cases hlands <;> rfl
  · rw [hlength]
    rfl

end Access

namespace Place

variable {f}

/-- What is kept is evaluated once, and what is left in the place only reads. -/
theorem keep_calls (temp : String) (pin : Bool) (e : Code) :
    Code.callsAll f (keep temp pin e).1 + (keep temp pin e).2.calls f = e.calls f ∧
      (e.isPure = false → (keep temp pin e).2.calls f = 0) := by
  unfold keep
  split
  · simp only [Code.callsAll, Code.bindLocal, Code.calls, Nat.add_zero, implies_true, and_self]
  · next h =>
    refine ⟨Nat.zero_add _, fun hpure => ?_⟩
    simp only [hpure, Bool.not_false, Bool.true_or, not_true_eq_false] at h

theorem keep_calls_snd (temp : String) (pin : Bool) (e : Code) :
    (keep temp pin e).2.calls f = 0 := by
  cases hpure : e.isPure with
  | false => exact (keep_calls temp pin e).2 hpure
  | true =>
    unfold keep
    split
    · rfl
    · exact Code.calls_of_isPure f e hpure

theorem settle_calls (pin : Bool) (p : Place) :
    Code.callsAll f (p.settle pin).1 = p.code.calls f ∧ (p.settle pin).2.code.calls f = 0 := by
  cases p with
  | «variable» x => exact ⟨rfl, rfl⟩
  | field t x =>
    have h := (keep_calls (f := f) objectTemp pin t).1
    have hzero := keep_calls_snd (f := f) objectTemp pin t
    simp only [settle, Place.code, Code.calls]
    omega
  | entry t k =>
    have h := (keep_calls (f := f) objectTemp pin t).1
    have hzero := keep_calls_snd (f := f) objectTemp pin t
    have h' := (keep_calls (f := f) indexTemp pin k).1
    have hzero' := keep_calls_snd (f := f) indexTemp pin k
    simp only [settle, Place.code, Code.calls, Code.callsAll_append]
    omega

theorem newValue_calls (p : Place) (op : Option Lua.BinaryOp) (value : Code) :
    (p.newValue op value).calls f =
      (if op.isSome then p.code.calls f else 0) + value.calls f := by
  cases op <;> simp [newValue, Code.calls]

theorem immediate_calls (body : List Code) :
    (Code.immediate body).calls f = Code.callsAll f body := by
  simp [Code.immediate, Code.calls, Code.callsAll, Code.name?]

theorem assign_calls (p : Place) (op : Option Lua.BinaryOp) (value : Code) (use : Use) :
    (p.assign op value use).calls f = p.code.calls f + value.calls f := by
  cases use with
  | statement =>
    unfold Place.assign
    cases op with
    | none =>
      simp [newValue, Code.store, Code.calls, Code.callsAll]
    | some op =>
      obtain ⟨hbefore, hzero⟩ := settle_calls (f := f) false p
      simp only [Option.isSome_some, if_true]
      split
      · next hempty =>
        rw [List.isEmpty_iff.1 hempty] at hbefore
        simp only [Code.store, Code.calls, Code.callsAll, newValue, hzero, ← hbefore]
        omega
      · simp only [Code.calls, Code.callsAll_append, Code.store, Code.callsAll, newValue, hzero,
          hbefore]
        omega
  | value =>
    obtain ⟨hbefore, hzero⟩ := settle_calls (f := f) (!value.isPure) p
    simp only [Place.assign, immediate_calls, Code.callsAll_append, hbefore, Code.callsAll,
      Code.bindLocal, Code.store, Code.yields, Code.calls, newValue_calls, hzero]
    split <;> omega

theorem update_calls (p : Place) (op : Lua.BinaryOp) (yield : Yield) (use : Use) :
    (p.update op yield use).calls f = p.code.calls f := by
  have hone : (Code.integer 1).calls f = 0 := rfl
  have hnew (use : Use) : (p.assign (some op) (.integer 1) use).calls f = p.code.calls f := by
    rw [assign_calls, hone, Nat.add_zero]
  cases yield with
  | new => exact hnew use
  | old =>
    cases use with
    | statement => exact hnew .statement
    | value =>
      obtain ⟨hbefore, hzero⟩ := settle_calls (f := f) false p
      simp only [Place.update, immediate_calls, Code.callsAll_append, hbefore, Code.callsAll,
        Code.bindLocal, Code.store, Code.yields, Code.calls, hzero, hone, Nat.add_zero]

end Place

theorem deletion_calls (slot : Code) (use : Use) : (deletion slot use).calls f = slot.calls f := by
  cases use with
  | statement => simp only [deletion, Code.store, Code.calls, Code.callsAll, Nat.add_zero]
  | value =>
    simp only [deletion, Place.immediate_calls, Code.callsAll, Code.store, Code.yields, Code.calls,
      Nat.add_zero]

theorem callMember_calls (receiver : Code) (name : String) (member : Option Property)
    (args : List Code) :
    (callMember receiver name member args).calls f = receiver.calls f + Code.callsAll f args := by
  have hname (t : Code) (x : String) : (Code.member t x).name? ≠ some f := by rintro ⟨⟩
  rcases callMember_cases receiver name member args with h | ⟨-, h⟩ | ⟨hpure, h⟩ | h
  · simp only [h, Code.calls, if_neg (hname _ _), Nat.zero_add]
  · simp only [h, Code.calls]
  · simp only [h, Code.calls, if_neg (hname _ _), Code.callsAll,
      Code.calls_of_isPure f receiver hpure, Nat.zero_add]
  · simp only [h, Place.immediate_calls, Code.callsAll, Code.bindLocal, Code.yields, Code.calls,
      if_neg (hname _ _), Nat.add_zero, Nat.zero_add]

theorem callMember_name? (receiver : Code) (name : String) (member : Option Property)
    (args : List Code) : (callMember receiver name member args).name? = none := by
  rcases callMember_cases receiver name member args with h | ⟨-, h⟩ | ⟨-, h⟩ | h
  all_goals
    rw [h]
    rfl

theorem textOf_calls (hf : f ≠ "tostring") (c : Code) : (textOf c).calls f = c.calls f := by
  have hname : (Code.name "tostring").name? ≠ some f := fun h => hf (Option.some.inj h).symm
  simp only [textOf, Code.calls, if_neg hname, Code.callsAll, Nat.add_zero, Nat.zero_add]

theorem concatenated_calls (cs : List Code) :
    (concatenated cs).calls f = Code.callsAll f cs := by
  induction cs with
  | nil => rfl
  | cons c cs ih =>
    cases cs with
    | nil => rfl
    | cons d cs =>
      rw [concatenated]
      · rw [Code.calls, ih, ← Code.callsAll]
      · exact List.cons_ne_nil d cs

theorem joinTexts_calls (cs : List Code) : (joinTexts cs).calls f = Code.callsAll f cs := by
  rw [joinTexts, concatenated_calls]
  induction cs with
  | nil => rfl
  | cons c cs ih =>
    rw [List.filter_cons]
    split
    · rw [Code.callsAll, ih, Code.callsAll]
    · next h =>
      have hempty : c.calls f = 0 := by
        cases c with
        | string s => rfl
        | _ => exact absurd rfl h
      rw [ih, Code.callsAll, hempty, Nat.zero_add]

theorem joinTexts_name? {cs : List Code} (h : ∀ c ∈ cs, c.name? = none) :
    (joinTexts cs).name? = none := by
  have hfilter : ∀ c ∈ cs.filter fun c => !isEmptyText c, c.name? = none :=
    fun c hc => h c (List.mem_filter.1 hc).1
  unfold joinTexts
  generalize cs.filter (fun c => !isEmptyText c) = ds at hfilter
  cases ds with
  | nil => rfl
  | cons d ds =>
    cases ds with
    | nil => exact hfilter d List.mem_cons_self
    | cons e ds => rfl

theorem sealReturns_calls (cs : List Code) :
    Code.callsAll f (sealReturns cs) = Code.callsAll f cs := by
  induction cs with
  | nil => rfl
  | cons c cs ih =>
    cases cs with
    | nil => rfl
    | cons d cs =>
      rw [sealReturns]
      · have hhead : (if c.isReturn then Code.block [c] else c).calls f = c.calls f := by
          split
          · simp only [Code.calls, Code.callsAll, Nat.add_zero]
          · rfl
        rw [Code.callsAll, ih, hhead, ← Code.callsAll]
      · exact List.cons_ne_nil d cs

theorem asStatement_calls (c : Code) : (asStatement c).calls f = c.calls f := by
  unfold asStatement
  split
  · simp only [Code.calls]
  · simp only [Code.bindLocal, Code.calls, Code.callsAll, Nat.add_zero]

end Code

end Lowering

end ScriptToLua
