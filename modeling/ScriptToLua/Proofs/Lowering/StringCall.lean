import Mathlib
import ScriptToLua.Proofs.Lowering.AccessForms
import ScriptToLua.Proofs.Lowering.SelfCall
import ScriptToLua.Proofs.Lua.CallDepth
import ScriptToLua.Proofs.Lua.Fence

/-!
Calls of what an array-like value has under a string. Reading and calling look the string up in the same
way, and the receiver is passed to a declared method only: `stringCall_callsRead`. Only a declared member
whose name is an index is called as a member and read as a slot.
-/

namespace ScriptToLua.Lowering

open Lua
open Source (NodeId)

/-- What reading a string key of an array-like value finds on it: a slot, the length or a field. -/
def findString (fold : Bool) (shape : Shape) (name : String) (call : Caller) (c : Chain) (r : Value) :
    EvalM Value :=
  if isIndexText name then do
    let slot ← (oneBased fold (.number name)).eval call c
    EvalM.index r slot
  else if name = "length" ∧ shape.member? name = none then applyUnary .len r
  else EvalM.index r (.string name)

/-- Calls what `find` finds on the value of the receiver, with the receiver before the arguments if
`self` is set. -/
def callFound (self : Bool) (find : Value → EvalM Value) (call : Caller) (c : Chain) (receiver : Code)
    (args : List Code) : EvalM Value := do
  let r ← receiver.eval call c
  let f ← find r
  let vs ← Code.evalAll call c args
  call f (if self then r :: vs else vs)

/-- Calls what `find` finds on the value of the receiver, which is kept in a variable and passed before
the arguments. -/
def callKept (find : Value → EvalM Value) (call : Caller) (c : Chain) (receiver : Code)
    (args : List Code) : EvalM Value := do
  let r ← receiver.eval call c
  EvalM.declare c objectTemp r
  let f ← find r
  let vs ← Code.evalAll call c args
  call f (r :: vs)

/-- The machine inside a function that is called at once. -/
def inside (m : Machine) : Machine :=
  { m with scopes := m.scopes.push .empty, nextClosure := m.nextClosure + 1, depth := m.depth + 1 }

section Kept

variable {room : Nat} {c : Chain} {m : Machine}

/-- No scope goes away while an expression is evaluated. -/
theorem scopes_size_le (room : Nat) (c : Chain) (e : Code) (m : Machine) :
    m.scopes.size ≤ (e.eval (callAt room) c m).2.scopes.size := by
  let L : Fence := ⟨Set.univ, 0, False⟩
  have hadmits (m : Machine) (c : Chain) (A : Set String) : m.Admits L c A :=
    ⟨Set.subset_univ _, False.elim⟩
  have hobeys : m.Obeys L := by
    refine ⟨Nat.zero_le _, fun v _ => ?_⟩
    cases v with
    | function f => exact hadmits m _ _
    | _ => trivial
  exact (eval_stays (callAt_stays L room) e hobeys (hadmits m c _)).grows.size

theorem runBody_kept {n : ScopeId} (hn : n < m.scopes.size) {find : Value → EvalM Value}
    {name : String} (hfind : ∀ r, find r = EvalM.index r (.string name)) (receiver : Code)
    (args : List Code) :
    runBody (callAt room) (n :: c) [.bindLocal objectTemp receiver,
        .yields (.call (.member (.name objectTemp) name) (.name objectTemp :: args))] m =
      callKept find (callAt room) (n :: c) receiver args m := by
  obtain rfl : find = fun r => EvalM.index r (.string name) := funext hfind
  simp only [runBody, Code.execAll, Code.bindLocal, Code.yields, Code.exec, Code.evalAll, Code.eval,
    callKept, bind_assoc, pure_bind]
  refine EvalM.bind_run_congr rfl fun r m₁ hr => ?_
  have hsize : n < m₁.scopes.size := by
    have hle := scopes_size_le room (n :: c) receiver m
    rw [hr] at hle
    exact hn.trans_le hle
  -- The look-up of the method changes nothing, so the variable is found before it and after it.
  have hfound := Machine.lookup?_declare hsize c objectTemp r
  simp only [EvalM.bind_run, EvalM.modify_run, EvalM.declare_run, EvalM.get_run, Machine.declareAll,
    hfound, Option.getD_some, bind_pure, EvalM.index_run]
  cases r with
  | table id => simp only [hfound, Option.getD_some]
  | _ => rfl

/-- The call keeps its receiver inside a function of its own, and what it finds there is what is read
outside. -/
structure CallsInside (find : Caller → Chain → Value → EvalM Value) (receiver : Code) (args : List Code)
    (read e : Code) : Prop where
  /-- At the limit nothing is run. -/
  overflow : ∀ room c {m : Machine}, maxCallDepth ≤ m.depth →
    (e.eval (callAt (room + 1)) c m).1 = .error .stackOverflow
  run : ∀ room c {m : Machine}, m.depth < maxCallDepth →
    let d := m.scopes.size :: c
    e.eval (callAt (room + 1)) c m =
      let o := callKept (find (callAt room) d) (callAt room) d receiver args (inside m)
      (o.1, o.2.leave)
  finds : ∀ room c {m : Machine}, m.Sound → (∀ i ∈ c, i < m.scopes.size) →
    let f := ScopeMap.gap m.scopes.size []
    f.Outcomes ⟨fun _ => .empty, m.depth, 1⟩ f.Values
      (read.eval (callAt (room + 1)) c (Write.start m .value))
      (read.eval (callAt room) (m.scopes.size :: c) (inside m))

theorem callsInside_of_kept {find : Caller → Chain → Value → EvalM Value} {name : String}
    (hfind : ∀ call c r, find call c r = EvalM.index r (.string name)) (receiver : Code)
    (args : List Code) (read : Code) :
    CallsInside find receiver args read (.immediate [.bindLocal objectTemp receiver,
      .yields (.call (.member (.name objectTemp) name) (.name objectTemp :: args))]) where
  overflow room c m h := by rw [immediate_overflow room c _ h]
  run room c m h := by
    have hn : m.scopes.size < (inside m).scopes.size := by
      change _ < (m.scopes.push .empty).size
      rw [Array.size_push]
      exact Nat.lt_add_one _
    intro d
    rw [immediate_run room c _ h, ← runBody_kept hn (hfind (callAt room) d)]
    rfl
  finds room c m hm hc := by
    have hm₁ : (Write.start m .value).Sound := ⟨hm.globals, hm.scopes, hm.tables⟩
    have hn : (ScopeMap.gap m.scopes.size []).Extra m.scopes.size := ScopeMap.gap_extra_iff.2 rfl
    have hcs := ScopeMap.Chains.extra hn (ScopeMap.gap_chains hc).loosen
    have hcallers : (ScopeMap.gap m.scopes.size []).Callers (callAt (room + 1)) (callAt room) :=
      ScopeMap.callAt_simulates (Nat.le_succ room)
    exact ScopeMap.eval_simulates hcallers hcs read (fun _ => Code.avoids_nil read) _ _ _
      (ScopeMap.Machines.open hm₁ [] 1)

end Kept

section Reading

variable {receiver : Code} {name : String} {t : TypeId} {shape : Shape} {s : TypeStore} {fold : Bool}

/-- Reading a string key of an array-like value evaluates the receiver and looks the string up. -/
theorem read_eval (h : shape.isArrayLike) (call : Caller) (c : Chain) :
    (Access.read s fold ⟨receiver, .element (.string name) t, shape⟩).eval call c =
      receiver.eval call c >>= findString fold shape name call c := by
  have hland : Access.landing? s fold ⟨receiver, .element (.string name) t, shape⟩ =
      some (Access.landString fold ⟨receiver, .element (.string name) t, shape⟩ name) := if_pos h
  rw [Access.read, Access.read?, hland, Option.map_some, Option.getD_some]
  unfold Access.landString findString
  split_ifs with hindex hlength
  · simp only [Place.code, Code.eval]
  · simp only [Code.eval]
  · simp only [Place.code, Code.eval]

/-- A declared member that is no index is found as a field. -/
theorem findString_member (hindex : isIndexText name = false) (hmember : (shape.member? name).isSome)
    (call : Caller) (c : Chain) (r : Value) :
    findString fold shape name call c r = EvalM.index r (.string name) := by
  have hlength : ¬ (name = "length" ∧ shape.member? name = none) := fun h => by
    rw [h.2] at hmember
    cases hmember
  rw [findString, hindex, if_neg Bool.false_ne_true, if_neg hlength]

variable {args : List Code}

/-- The code of a call through a string key. -/
def stringCall (s : TypeStore) (fold : Bool) (a : Access) (name : String) (args : List Code) : Code :=
  match a.member? with
  | some m => callMember a.receiver name (some m) args
  | none => .call (a.read s fold) args

/-- What is read is called in one of three ways: plainly, as a method of the receiver as it stands, or as
a method of the receiver kept in a variable. -/
theorem stringCall_finds (h : shape.isArrayLike) (hindex : isIndexText name → shape.member? name = none) :
    let a : Access := ⟨receiver, .element (.string name) t, shape⟩
    let self := (shape.member? name).any Property.isMethod
    let find := findString fold shape name
    ((self → isName name ∨ receiver.isPure) → ∀ call c,
      (stringCall s fold a name args).eval call c =
        callFound self (find call c) call c receiver args) ∧
    (self → ¬ (isName name ∨ receiver.isPure) →
      CallsInside find receiver args (a.read s fold) (stringCall s fold a name args)) := by
  intro a self find
  have hcode : stringCall s fold a name args =
      match shape.member? name with
      | some m => callMember receiver name (some m) args
      | none => .call (a.read s fold) args := rfl
  rw [hcode]
  cases hmember : shape.member? name with
  | none =>
    have hself : self = false := by
      change (shape.member? name).any Property.isMethod = false
      rw [hmember, Option.any_none]
    refine ⟨fun _ call c => ?_, fun hmethod => absurd (hself ▸ hmethod) Bool.false_ne_true⟩
    have hread : (a.read s fold).eval call c = receiver.eval call c >>= find call c :=
      read_eval h call c
    simp only [Code.eval, hread, hself, callFound, bind_assoc, Bool.false_eq_true, if_false]
  | some m =>
    have hfind (call : Caller) (c : Chain) (r : Value) :
        find call c r = EvalM.index r (.string name) := by
      refine findString_member ?_ (by rw [hmember]; rfl) call c r
      exact Bool.eq_false_of_not_eq_true fun hi => by cases hmember.symm.trans (hindex hi)
    have hself : self = m.isMethod := by
      change (shape.member? name).any Property.isMethod = _
      rw [hmember, Option.any_some]
    cases hmethod : m.isMethod with
    | false =>
      have hplain : callMember receiver name (some m) args = .call (.member receiver name) args := by
        simp only [callMember, Option.any_some, hmethod, Bool.not_false, if_true]
      rw [hmethod] at hself
      refine ⟨fun _ call c => ?_, fun htrue => absurd (hself ▸ htrue) Bool.false_ne_true⟩
      simp only [hplain, Code.eval, hself, callFound, hfind, bind_assoc, Bool.false_eq_true, if_false]
    | true =>
      rw [hmethod] at hself
      refine ⟨fun hdirect call c => ?_, fun _ hkept => ?_⟩
      · dsimp only
        rw [callMember_direct call c hmethod (hdirect hself)]
        simp only [selfCall, callOn, callFound, hself, hfind, if_true]
      · dsimp only
        rw [callMember_held hmethod hkept]
        exact callsInside_of_kept hfind receiver args _

end Reading

section Lowered

variable {ctx : Context} {st : State} {callee receiver key : NodeId} {name : String}
  {arguments : List NodeId} {room : Nat}

theorem stringCall_run
    (hcallee : ctx.arena.get? (ctx.arena.strip callee) = some (.element receiver key))
    (hkey : ctx.arena.get? key = some (.string name)) :
    let lower := expressionAt room
    let a := elementAccess lower receiver key ctx st
    let args := arguments.mapM lower ctx a.2
    call lower callee arguments ctx st = (stringCall a.2.store ctx.fold a.1 name args.1, args.2) := by
  intro lower a args
  unfold call stringCall
  rw [bind_read_run]
  simp only [hcallee, hkey]
  rw [bind_run]
  cases (elementAccess lower receiver key ctx st).1.member? with
  | none => rfl
  | some m => rfl

/-- A call through a string key of an array-like value calls what reading the key yields. It finds the
function like the read does, and passes the receiver before the arguments just if the key names a declared
method, unless an index is declared as a member. -/
theorem stringCall_callsRead {id : NodeId} (hcall : ctx.arena.get? id = some (.call callee arguments))
    (hcallee : ctx.arena.get? (ctx.arena.strip callee) = some (.element receiver key))
    (hkey : ctx.arena.get? key = some (.string name))
    (harray : (elementAccess (expressionAt (room + 1)) receiver key ctx st).1.shape.isArrayLike)
    (hindex : isIndexText name →
      (elementAccess (expressionAt (room + 1)) receiver key ctx st).1.shape.member? name = none) :
    let lower := expressionAt (room + 1)
    let a := elementAccess lower receiver key ctx st
    let args := arguments.mapM lower ctx a.2
    let read := expressionAt (room + 2) (ctx.arena.strip callee) ctx st
    let lowered := expressionAt (room + 2) id ctx st
    let self := (a.1.shape.member? name).any Property.isMethod
    let find := findString ctx.fold a.1.shape name
    (∀ call c, read.1.eval call c = a.1.receiver.eval call c >>= find call c) ∧
    ((self → isName name ∨ a.1.receiver.isPure) → ∀ call c,
      lowered.1.eval call c = callFound self (find call c) call c a.1.receiver args.1) ∧
    (self → ¬ (isName name ∨ a.1.receiver.isPure) →
      CallsInside find a.1.receiver args.1 read.1 lowered.1) := by
  intro lower a args read lowered self find
  have hread : read = (a.1.read a.2.store ctx.fold, a.2) := expressionAt_run hcallee (room + 1) st
  have hlowered : lowered = (stringCall a.2.store ctx.fold a.1 name args.1, args.2) :=
    (expressionAt_run hcall (room + 1) st).trans (stringCall_run hcallee hkey)
  obtain ⟨t, ha⟩ : ∃ t, a.1 = ⟨a.1.receiver, .element (.string name) t, a.1.shape⟩ := by
    have hlower : (expressionAt (room + 1) key ctx st).1 = .string name := by
      rw [expressionAt_string room hkey]
    obtain ⟨t, ht⟩ := elementAccess_run hkey hlower
    exact ⟨t, by rw [show a = _ from ht]⟩
  rw [hread, hlowered, ha]
  exact ⟨read_eval harray, stringCall_finds harray hindex⟩

end Lowered

section Tagged

/-- `interface Tagged extends Array<number> { 0: unknown, say(): unknown }` -/
def taggedStore : TypeStore :=
  ⟨TypeStore.initial.types ++
    #[.array .number, .interface "Tagged" [⟨7⟩]
      [{ name := "0", type := .unknown }, { name := "say", type := .unknown, isMethod := true }]]⟩

/-- `e["say"]()` and `e["0"]()`, where `e` is tagged. -/
def taggedContext : Context where
  arena :=
    let nodes : List Source.Node :=
      [.identifier "e", .string "say", .element ⟨0⟩ ⟨1⟩, .call ⟨2⟩ [], .string "0", .element ⟨0⟩ ⟨4⟩,
        .call ⟨5⟩ []]
    ⟨(nodes.map fun n => (n, ⟨0, 0⟩)).toArray⟩
  facts := TypeFacts.empty.declare "e" ⟨8⟩
  fold := true
  file := "a.ts"

def taggedState : State := ⟨taggedStore, [], false⟩

/-- The variable `e` is a table with a function in its first slot. -/
def tagged : Machine :=
  { Machine.initial with
    globals := .ofList [("e", .table 0)]
    tables := #[.ofList [(.int 1, .function ⟨0, [], [.yields (.string "slot")], []⟩)]]
    nextClosure := 1 }

/-- The call of a declared method passes the receiver. -/
theorem stringCall_callsRead_of_say :
    let shape := (elementAccess (expressionAt 1) ⟨0⟩ ⟨1⟩ taggedContext taggedState).1.shape
    let lowered := (expressionAt 2 ⟨3⟩ taggedContext taggedState).1
    shape.isArrayLike ∧ lowered = .invoke (.name "e") "say" [] ∧ ∀ call c,
      lowered.eval call c =
        callFound true (findString true shape "say" call c) call c (.name "e") [] := by
  intro shape lowered
  have harray : shape.isArrayLike := rfl
  have hindex : isIndexText "say" = false := rfl
  have hcall : taggedContext.arena.get? ⟨3⟩ = some (.call ⟨2⟩ []) := rfl
  obtain ⟨-, hdirect, -⟩ := stringCall_callsRead hcall rfl rfl harray
    fun h => absurd (hindex ▸ h) Bool.false_ne_true
  exact ⟨harray, rfl, hdirect fun _ => .inl rfl⟩

/-- A member that is named like an index is called, but a slot is read: the one is not there, the other
holds a function. -/
theorem not_stringCall_callsRead :
    let read := (expressionAt 2 ⟨5⟩ taggedContext taggedState).1
    let lowered := (expressionAt 2 ⟨6⟩ taggedContext taggedState).1
    read = .index (.name "e") (.number "1") ∧ lowered = .call (.member (.name "e") "0") [] ∧
      ((Code.call read []).eval (callAt 1) [] tagged).1 = .ok (.string "slot") ∧
      (lowered.eval (callAt 1) [] tagged).1 = .error (.notCallable .nil) :=
  ⟨rfl, rfl, rfl, rfl⟩

end Tagged

end ScriptToLua.Lowering
