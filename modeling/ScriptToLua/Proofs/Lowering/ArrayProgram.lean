import Mathlib
import ScriptToLua.Compile
import ScriptToLua.Lua.Value
import ScriptToLua.Proofs.Numeral
import ScriptToLua.Proofs.Types.Stability

/-!
Programs on one array: a variable that starts as an array literal, writes and deletions of its slots
and of its named members, and a last read or deletion. `ArrayProgram.lowerFile_eq` says what they are lowered
to, whatever array-like type the variable has.
-/

namespace ScriptToLua

open Source (Arena Node NodeId)

/-- A literal of a program. -/
inductive Constant where
  | text (s : String)
  | boolean (b : Bool)
  | null
  | natural (n : Nat)

namespace Constant

def node : Constant → Node
  | text s => .string s
  | boolean b => .boolean b
  | null => .null
  | natural n => .number (toString n)

def code : Constant → Lua.Code
  | text s => .string s
  | boolean b => .boolean b
  | null => .nil
  | natural n => .number (toString n)

/-- The value of the literal; a numeral stands for the nearest double. -/
def value : Constant → Lua.Value
  | text s => .string s
  | boolean b => .boolean b
  | null => .nil
  | natural n => .number (Decimal.Scaled.toFloat ⟨n, 0⟩)

end Constant

namespace ArrayProgram

/-- What a program reads, writes or deletes of its array. -/
inductive Target where
  /-- `array[k]` -/
  | slot (k : Nat)
  /-- `array.name` -/
  | member (name : String)
  deriving DecidableEq

inductive Step where
  | write (target : Target) (value : Constant)
  | delete (target : Target)

/-- The expression whose value a program returns. -/
inductive Probe where
  | read (target : Target)
  | delete (target : Target)

/-- The index is below `2 ^ 53 - 1`, and the member is declared. -/
def Target.Allowed (shape : Shape) : Target → Prop
  | slot k => k + 1 < 2 ^ 53
  | member name => (shape.member? name).isSome

instance (shape : Shape) : (target : Target) → Decidable (target.Allowed shape)
  | .slot k => inferInstanceAs (Decidable (k + 1 < 2 ^ 53))
  | .member name => inferInstanceAs (Decidable ((shape.member? name).isSome = true))

def Step.target : Step → Target
  | write target _ => target
  | delete target => target

def Probe.target : Probe → Target
  | read target => target
  | delete target => target

section Source

variable (a : Arena) (x : String)

/-- What is recorded agrees with the syntax: `x` has the type `t` wherever it stands, and numerals
have number types. -/
structure IsTyped (store : TypeStore) (facts : TypeFacts) (t : TypeId) : Prop where
  declared : facts.declaredType x = t
  identifier : ∀ id u, a.get? id = some (.identifier x) → facts.nodes.get? id = some u → u = t
  number : ∀ id text u, a.get? id = some (.number text) → facts.nodes.get? id = some u →
    (store.get? u).any TypeData.isNumber

/-- The node is `x[k]` or `x.name`. -/
def IsTarget (id : NodeId) : Target → Prop
  | .slot k => ∃ r i, a.get? id = some (.element r i) ∧ a.get? r = some (.identifier x) ∧
      a.get? i = some (.number (toString k))
  | .member name => ∃ r, a.get? id = some (.property r name) ∧ a.get? r = some (.identifier x)

/-- The node is the statement `target = value;` or `delete target;`. -/
def IsStep (id : NodeId) : Step → Prop
  | .write target value => ∃ e t v, a.get? id = some (.expressionStatement e) ∧
      a.get? e = some (.assign t .plain v) ∧ IsTarget a x t target ∧ a.get? v = some value.node
  | .delete target => ∃ e t, a.get? id = some (.expressionStatement e) ∧
      a.get? e = some (.delete t) ∧ IsTarget a x t target

def IsProbe (id : NodeId) : Probe → Prop
  | .read target => IsTarget a x id target
  | .delete target => ∃ t, a.get? id = some (.delete t) ∧ IsTarget a x t target

/-- The node is a file that declares `x` with an array literal, goes through `steps` and returns the
value of `probe`. -/
def IsProgram (root : NodeId) (elements : List Constant) (steps : List Step) (probe : Probe) : Prop :=
  ∃ name d array es ss r e, a.get? root = some (.file name (d :: ss ++ [r])) ∧
    a.get? d = some (.variableDecl x (some array)) ∧ a.get? array = some (.array es) ∧
    List.Forall₂ (fun id c => a.get? id = some c.node) es elements ∧
    List.Forall₂ (IsStep a x) ss steps ∧
    a.get? r = some (.returns (some e)) ∧ IsProbe a x e probe

end Source

section Code

open Lua (Code)
open Lowering (Place)

variable (fold : Bool) (x : String)

/-- Where a target of the variable `x` is. -/
def Target.place : Target → Place
  | slot k => .entry (.name x) (Lowering.oneBased fold (.number (toString k)))
  | member name => .field (.name x) name

def Step.code : Step → Code
  | write target value => .store (target.place fold x).code value.code
  | delete target => .store (target.place fold x).code .nil

def Probe.code : Probe → Code
  | read target => (target.place fold x).code
  | delete target => Lowering.deletion (target.place fold x).code .value

/-- The Lua code of a program. -/
def chunk (elements : List Constant) (steps : List Step) (probe : Probe) : List Code :=
  .bindLocal x (Lowering.arrayLiteral (elements.map Constant.code)) ::
    steps.map (Step.code fold x) ++ [.yields (probe.code fold x)]

end Code

end ArrayProgram

namespace Lowering

open Lua (Code)
open ArrayProgram

/-- The store has grown from `base`. -/
structure State.From (base : TypeStore) (st : State) : Prop where
  wellFormed : st.store.WellFormed
  extends_ : base.Extends st.store

/-- In every state that comes from `base`, the computation leads to one and to a result with `P`. -/
def Lowers {α : Type} (ctx : Context) (base : TypeStore) (P : α → Prop) (act : LowerM α) : Prop :=
  ∀ st, State.From base st → P (act ctx st).1 ∧ State.From base (act ctx st).2

namespace Lowers

variable {ctx : Context} {base : TypeStore} {α β : Type} {P : α → Prop} {Q : β → Prop}

theorem pure {a : α} (h : P a) : Lowers ctx base P (Pure.pure a) := fun _ hst => ⟨h, hst⟩

theorem bind {act : LowerM α} {next : α → LowerM β} (h : Lowers ctx base P act)
    (hn : ∀ a, P a → Lowers ctx base Q (next a)) : Lowers ctx base Q (act >>= next) := by
  intro st hst
  obtain ⟨hp, hst'⟩ := h st hst
  exact hn _ hp _ hst'

theorem map {act : LowerM α} {f : α → β} (h : Lowers ctx base P act) (hf : ∀ a, P a → Q (f a)) :
    Lowers ctx base Q (f <$> act) := by
  intro st hst
  obtain ⟨hp, hst'⟩ := h st hst
  exact ⟨hf _ hp, hst'⟩

theorem read : Lowers ctx base (· = ctx) read := fun _ hst => ⟨rfl, hst⟩

theorem node? {id : NodeId} {n : Option Node} (h : ctx.arena.get? id = n) :
    Lowers ctx base (· = n) (node? id) := fun _ hst => ⟨h, hst⟩

theorem askTypes {ask : TypeStore → α}
    (h : ∀ s, s.WellFormed → base.Extends s → P (ask s)) : Lowers ctx base P (askTypes ask) :=
  fun st hst => ⟨h st.store hst.wellFormed hst.extends_, hst⟩

theorem withTypes {act : TypeM α}
    (h : ∀ s, s.WellFormed → base.Extends s → Grows s (fun _ a => P a) act) :
    Lowers ctx base P (withTypes act) := by
  intro st hst
  obtain ⟨hw, he, hp⟩ := h st.store hst.wellFormed hst.extends_
  exact ⟨hp, hw, hst.extends_.trans he⟩

theorem mapM {f : NodeId → LowerM α} {ids : List NodeId} {as : List α}
    (h : List.Forall₂ (fun id a => Lowers ctx base (· = a) (f id)) ids as) :
    Lowers ctx base (· = as) (ids.mapM f) := by
  induction h with
  | nil => exact .pure rfl
  | cons h _ ih =>
    rw [List.mapM_cons]
    apply h.bind
    rintro _ rfl
    apply ih.bind
    rintro _ rfl
    exact .pure rfl

end Lowers

/-- Parentheses and assertions are all there is to strip. -/
theorem strip_eq {a : Arena} {id : NodeId} (h : a.peel? id = none) : a.strip id = id := by
  unfold Arena.strip
  cases a.size with
  | zero => rfl
  | succ size => simp only [Arena.stripLayers, h]

/-- Where no statement but the last is a return, all stay as they are. -/
theorem sealReturns_eq {cs : List Code} (h : ∀ c ∈ cs, c.isReturn = false) (last : Code) :
    sealReturns (cs ++ [last]) = cs ++ [last] := by
  induction cs with
  | nil => rfl
  | cons c cs ih =>
    have hc : c.isReturn = false := h c List.mem_cons_self
    have hcs := ih fun c' hc' => h c' (List.mem_cons_of_mem c hc')
    cases cs with
    | nil => simp only [List.cons_append, List.nil_append, sealReturns, hc, Bool.false_eq_true,
        if_false]
    | cons c' cs =>
      change sealReturns (c :: c' :: (cs ++ [last])) = _
      rw [sealReturns, if_neg (by rw [hc]; exact Bool.false_ne_true)]
      · exact congrArg (c :: ·) hcs
      · exact nofun

section Program

variable {ctx : Context} {base : TypeStore} {x : String} {t : TypeId}

/-- A node that needs no other for its type has this type, if no other one is recorded. -/
theorem typeOf_leaf {id : NodeId} {n : Node} {u : TypeId} {P : TypeId → Prop}
    (hn : ctx.arena.get? id = some n)
    (hu : ∀ typeOf, Typing.nodeType ctx.arena ctx.facts typeOf n = pure u)
    (h : P ((ctx.facts.nodes.get? id).getD u)) : Lowers ctx base P (typeOf id) := by
  apply Lowers.read.bind
  rintro ctx rfl
  apply Lowers.withTypes
  intro s hs _
  change Grows s _ (Typing.typeAt ctx.arena ctx.facts (499 + 1) id)
  cases hid : ctx.facts.nodes.get? id with
  | some t =>
    rw [hid] at h
    rw [Typing.typeAt_recorded hid]
    exact .pure hs h
  | none =>
    rw [hid] at h
    rw [Typing.typeAt_node hid hn, hu]
    exact .pure hs h

theorem typeOf_identifier (hx : IsTyped ctx.arena x base ctx.facts t) {id : NodeId}
    (h : ctx.arena.get? id = some (.identifier x)) : Lowers ctx base (· = t) (typeOf id) := by
  apply typeOf_leaf h fun _ => rfl
  cases hu : ctx.facts.nodes.get? id with
  | some u => exact hx.identifier id u h hu
  | none => exact hx.declared

theorem typeOf_number (hb : base.WellFormed) (hx : IsTyped ctx.arena x base ctx.facts t)
    {id : NodeId} {text : String} (h : ctx.arena.get? id = some (.number text)) :
    Lowers ctx base (fun u => (base.get? u).any TypeData.isNumber) (typeOf id) := by
  apply typeOf_leaf h fun _ => rfl
  cases hu : ctx.facts.nodes.get? id with
  | some u => exact hx.number id text u h hu
  | none =>
    rw [Option.getD_none, hb.intrinsics.get? (by decide : TypeId.number.index < Intrinsic.all.length)]
    rfl

theorem expressionAt_lowers {room : Nat} {id : NodeId} {n : Node} {P : Code → Prop}
    (h : ctx.arena.get? id = some n)
    (hn : Lowers ctx base P (expressionNode (expressionAt room) id n)) :
    Lowers ctx base P (expressionAt (room + 1) id) := by
  apply (Lowers.node? h).bind
  rintro _ rfl
  exact hn

theorem expressionAt_identifier (room : Nat) {id : NodeId}
    (h : ctx.arena.get? id = some (.identifier x)) :
    Lowers ctx base (· = .name (Lua.rename x)) (expressionAt (room + 1) id) :=
  expressionAt_lowers h (.pure rfl)

theorem expressionAt_constant (room : Nat) {id : NodeId} {c : Constant}
    (h : ctx.arena.get? id = some c.node) :
    Lowers ctx base (· = c.code) (expressionAt (room + 1) id) := by
  apply expressionAt_lowers h
  cases c with
  | natural n => exact .pure (congrArg Code.number (luaNumeral_toString n))
  | _ => exact .pure rfl

/-- The key names the target; that of a slot is typed as a number. -/
def IsKey (base : TypeStore) : Target → AccessKey → Prop
  | .slot k, .element index u => index = .number (toString k) ∧ (base.get? u).any TypeData.isNumber
  | .member name, .named name' => name' = name
  | _, _ => False

/-- The access is to the target of `x`, which is typed `t`. -/
structure IsAccess (base : TypeStore) (x : String) (t : TypeId) (target : Target) (a : Access) :
    Prop where
  receiver : a.receiver = .name (Lua.rename x)
  key : IsKey base target a.key
  outline : a.shape.outline = (shapeOf t base).1.outline

theorem ofType_isAccess (hb : base.WellFormed) (ht : base.Has t) {target : Target} {key : AccessKey}
    (h : IsKey base target key) :
    Lowers ctx base (IsAccess base x t target)
      (withTypes (Access.ofType (.name (Lua.rename x)) key t)) := by
  apply Lowers.withTypes
  intro s hs he
  obtain ⟨hw, hg, -⟩ := shapeOf_grows hs (he.has ht)
  exact ⟨hw, hg, rfl, h, shapeOf_outline hb hs he ht⟩

theorem IsAccess.landing?_eq {s : TypeStore} {target : Target} {a : Access}
    (ha : IsAccess base x t target a) (he : base.Extends s)
    (hl : (shapeOf t base).1.isArrayLike) (hw : target.Allowed (shapeOf t base).1) (fold : Bool) :
    a.landing? s fold = some (.place (target.place fold (Lua.rename x))) := by
  obtain ⟨hr, hk, ho⟩ := ha
  unfold Access.landing?
  rw [if_pos ((Shape.isArrayLike_of_outline ho).trans hl)]
  cases target with
  | slot k =>
    cases hc : a.key with
    | named name => simp only [hc, IsKey] at hk
    | element index u =>
      rw [hc] at hk
      obtain ⟨rfl, hu⟩ := hk
      have hs : (s.get? u).any TypeData.isNumber := by
        cases hb : base.get? u with
        | none => simp only [hb, Option.any_none, Bool.false_eq_true] at hu
        | some d => rw [he.get? (TypeStore.has_of_get? hb), hu]
      simp only [Access.landComputed, isStringLike_of_isNumber hs, hr]
      rfl
  | member name =>
    cases hc : a.key with
    | element index u => simp only [hc, IsKey] at hk
    | named name' =>
      rw [hc] at hk
      obtain rfl : name' = name := hk
      have hm : (a.shape.member? name').isSome := by
        rw [Shape.member?_of_outline ho]
        exact hw
      simp only [Access.landNamed, hm, if_true, hr]
      rfl

theorem readAccess_lowers {target : Target} {a : Access} (ha : IsAccess base x t target a)
    (hl : (shapeOf t base).1.isArrayLike) (hw : target.Allowed (shapeOf t base).1) :
    Lowers ctx base (· = (target.place ctx.fold (Lua.rename x)).code) (readAccess a) := by
  apply Lowers.read.bind
  rintro _ rfl
  apply Lowers.askTypes
  intro s _ he
  simp only [Access.read, Access.read?, ha.landing?_eq he hl hw, Option.map_some,
    Option.getD_some]

theorem strip_target {id : NodeId} {target : Target} (h : IsTarget ctx.arena x id target) :
    ctx.arena.strip id = id := by
  apply strip_eq
  cases target with
  | slot k =>
    obtain ⟨r, i, hid, -, -⟩ := h
    simp only [Arena.peel?, hid]
  | member name =>
    obtain ⟨r, hid, -⟩ := h
    simp only [Arena.peel?, hid]

section Target

variable (hb : base.WellFormed) (ht : base.Has t) (hx : IsTyped ctx.arena x base ctx.facts t)

include hb ht hx

theorem namedAccess_isAccess (room : Nat) {r : NodeId} (name : String)
    (hr : ctx.arena.get? r = some (.identifier x)) :
    Lowers ctx base (IsAccess base x t (.member name))
      (namedAccess (expressionAt (room + 1)) r name) := by
  apply (typeOf_identifier hx hr).bind
  rintro _ rfl
  apply (expressionAt_identifier room hr).bind
  rintro _ rfl
  exact ofType_isAccess hb ht rfl

theorem elementAccess_isAccess (room : Nat) {r i : NodeId} {k : Nat}
    (hr : ctx.arena.get? r = some (.identifier x))
    (hi : ctx.arena.get? i = some (.number (toString k))) :
    Lowers ctx base (IsAccess base x t (.slot k)) (elementAccess (expressionAt (room + 1)) r i) := by
  apply (typeOf_identifier hx hr).bind
  rintro _ rfl
  apply (expressionAt_identifier room hr).bind
  rintro _ rfl
  apply (typeOf_number hb hx hi).bind
  intro u hu
  have hc : Lowers ctx base (· = (Constant.natural k).code) (expressionAt (room + 1) i) :=
    expressionAt_constant room hi
  apply hc.bind
  rintro _ rfl
  exact ofType_isAccess hb ht ⟨rfl, hu⟩

/-- A target is found to be an access. -/
theorem accessAt?_lowers (room : Nat) {id : NodeId} {target : Target}
    (h : IsTarget ctx.arena x id target) :
    Lowers ctx base (fun o => ∃ a, o = some a ∧ IsAccess base x t target a)
      (accessAt? (expressionAt (room + 1)) id) := by
  cases target with
  | slot k =>
    obtain ⟨r, i, hid, hr, hi⟩ := h
    apply (Lowers.node? hid).bind
    rintro _ rfl
    exact (elementAccess_isAccess hb ht hx room hr hi).map fun a ha => ⟨a, rfl, ha⟩
  | member name =>
    obtain ⟨r, hid, hr⟩ := h
    apply (Lowers.node? hid).bind
    rintro _ rfl
    exact (namedAccess_isAccess hb ht hx room name hr).map fun a ha => ⟨a, rfl, ha⟩

section Allowed

variable {target : Target} (hl : (shapeOf t base).1.isArrayLike)
  (hw : target.Allowed (shapeOf t base).1)

include hl hw

theorem placeAt?_lowers (room : Nat) (id : NodeId) {id' : NodeId}
    (h : IsTarget ctx.arena x id' target) :
    Lowers ctx base (· = some (target.place ctx.fold (Lua.rename x)))
      (placeAt? (expressionAt (room + 1)) id id') := by
  have hacc := accessAt?_lowers hb ht hx room h
  have hlast (a : Access) (ha : IsAccess base x t target a) :
      Lowers ctx base (· = some (target.place ctx.fold (Lua.rename x)))
        (do
          if ← askTypes fun s => a.isLength s ctx.fold then
            report id .lengthAssignment
            return none
          else askTypes fun s => some (a.place s ctx.fold)) := by
    have hlen : Lowers ctx base (· = false) (askTypes fun s => a.isLength s ctx.fold) := by
      apply Lowers.askTypes
      intro s _ he
      simp only [Access.isLength, ha.landing?_eq he hl hw]
    apply hlen.bind
    rintro _ rfl
    rw [if_neg Bool.false_ne_true]
    apply Lowers.askTypes
    intro s _ he
    simp only [Access.place, Access.place?, ha.landing?_eq he hl hw, Option.getD_some]
  apply Lowers.read.bind
  rintro _ rfl
  rw [strip_target h]
  cases target with
  | slot k =>
    obtain ⟨r, i, hid, -, -⟩ := h
    simp only [hid]
    apply hacc.bind
    rintro _ ⟨a, rfl, ha⟩
    exact hlast a ha
  | member name =>
    obtain ⟨r, hid, -⟩ := h
    simp only [hid]
    apply hacc.bind
    rintro _ ⟨a, rfl, ha⟩
    exact hlast a ha

theorem deletion?_lowers (room : Nat) (id : NodeId) {id' : NodeId}
    (h : IsTarget ctx.arena x id' target) (use : Use) :
    Lowers ctx base (· = some (deletion (target.place ctx.fold (Lua.rename x)).code use))
      (deletion? (expressionAt (room + 1)) id id' use) := by
  apply Lowers.read.bind
  rintro _ rfl
  rw [strip_target h]
  apply (accessAt?_lowers hb ht hx room h).bind
  rintro _ ⟨a, rfl, ha⟩
  apply Lowers.askTypes
  intro s _ he
  simp only [Access.delete, Access.place, Access.place?, ha.landing?_eq he hl hw,
    Option.getD_some]

end Allowed

theorem expressionStatement_assign (hl : (shapeOf t base).1.isArrayLike) {e id v : NodeId}
    {target : Target} {value : Constant} (he : ctx.arena.get? e = some (.assign id .plain v))
    (hid : IsTarget ctx.arena x id target) (hv : ctx.arena.get? v = some value.node)
    (hw : target.Allowed (shapeOf t base).1) :
    Lowers ctx base (· = [(Step.write target value).code ctx.fold (Lua.rename x)])
      (expressionStatement e) := by
  have hs : ctx.arena.strip e = e := strip_eq (by simp only [Arena.peel?, he])
  have hp := placeAt?_lowers hb ht hx hl hw 499 e hid
  have hc : Lowers ctx base (· = value.code) (expression v) := expressionAt_constant 499 hv
  have ha : Lowers ctx base (· = some (.store (target.place ctx.fold (Lua.rename x)).code value.code))
      (assignment? expression e id .plain v .statement) := by
    have hop : Lowers ctx base (· = none) (compoundOp .plain id v) := .pure rfl
    apply hop.bind
    rintro _ rfl
    apply hp.bind
    rintro _ rfl
    apply hc.bind
    rintro _ rfl
    exact .pure rfl
  apply Lowers.read.bind
  rintro _ rfl
  simp only [hs, he]
  exact ha.map fun o ho => ho ▸ rfl

theorem expressionStatement_delete (hl : (shapeOf t base).1.isArrayLike) {e id : NodeId}
    {target : Target} (he : ctx.arena.get? e = some (.delete id))
    (hid : IsTarget ctx.arena x id target) (hw : target.Allowed (shapeOf t base).1) :
    Lowers ctx base (· = [(Step.delete target).code ctx.fold (Lua.rename x)])
      (expressionStatement e) := by
  have hs : ctx.arena.strip e = e := strip_eq (by simp only [Arena.peel?, he])
  apply Lowers.read.bind
  rintro _ rfl
  simp only [hs, he]
  exact (deletion?_lowers hb ht hx hl hw 499 e hid .statement).map fun o ho => ho ▸ rfl

theorem statementAt_step (hl : (shapeOf t base).1.isArrayLike) (room : Nat) {id : NodeId}
    {step : Step} (h : IsStep ctx.arena x id step)
    (hw : step.target.Allowed (shapeOf t base).1) :
    Lowers ctx base (· = [step.code ctx.fold (Lua.rename x)]) (statementAt (room + 1) id) := by
  cases step with
  | write target value =>
    obtain ⟨e, i, v, hid, he, hi, hv⟩ := h
    apply (Lowers.node? hid).bind
    rintro _ rfl
    exact expressionStatement_assign hb ht hx hl he hi hv hw
  | delete target =>
    obtain ⟨e, i, hid, he, hi⟩ := h
    apply (Lowers.node? hid).bind
    rintro _ rfl
    exact expressionStatement_delete hb ht hx hl he hi hw

theorem expression_probe (hl : (shapeOf t base).1.isArrayLike) {id : NodeId} {probe : Probe}
    (h : IsProbe ctx.arena x id probe) (hw : probe.target.Allowed (shapeOf t base).1) :
    Lowers ctx base (· = probe.code ctx.fold (Lua.rename x)) (expression id) := by
  cases probe with
  | read target =>
    cases target with
    | slot k =>
      obtain ⟨r, i, hid, hr, hi⟩ := h
      apply expressionAt_lowers hid
      apply (elementAccess_isAccess hb ht hx 498 hr hi).bind
      intro a ha
      exact readAccess_lowers ha hl hw
    | member name =>
      obtain ⟨r, hid, hr⟩ := h
      apply expressionAt_lowers hid
      apply (namedAccess_isAccess hb ht hx 498 name hr).bind
      intro a ha
      exact readAccess_lowers ha hl hw
  | delete target =>
    obtain ⟨i, hid, hi⟩ := h
    apply expressionAt_lowers hid
    apply (deletion?_lowers hb ht hx hl hw 498 id hi .value).bind
    rintro _ rfl
    exact .pure rfl

end Target

theorem initialValue_array {name : String} {array : NodeId} {es : List NodeId}
    {elements : List Constant} (h : ctx.arena.get? array = some (.array es))
    (hes : List.Forall₂ (fun id c => ctx.arena.get? id = some c.node) es elements) :
    Lowers ctx base (· = arrayLiteral (elements.map Constant.code)) (initialValue name array) := by
  have hs : underParens ctx.arena ctx.arena.size array = array := by
    cases ctx.arena.size with
    | zero => rfl
    | succ size => simp only [underParens, h]
  have hm : List.Forall₂ (fun id c => Lowers ctx base (· = c) (expressionAt (498 + 1) id)) es
      (elements.map Constant.code) := by
    rw [List.forall₂_map_right_iff]
    exact hes.imp fun id c hc => expressionAt_constant 498 hc
  have he : Lowers ctx base (· = arrayLiteral (elements.map Constant.code)) (expression array) := by
    apply expressionAt_lowers h
    apply (Lowers.mapM hm).bind
    rintro _ rfl
    exact .pure rfl
  apply Lowers.read.bind
  rintro _ rfl
  apply Lowers.read.bind
  rintro ctx rfl
  simp only [hs, h]
  exact he

/-- Statements that give one Lua statement each, the last one a return at most. -/
theorem statements_lowers {lower : NodeId → LowerM (List Code)} {ids : List NodeId}
    {cs : List Code} {last : Code} (hc : ∀ c ∈ cs, c.isReturn = false)
    (h : List.Forall₂ (fun id c => Lowers ctx base (· = [c]) (lower id)) ids (cs ++ [last])) :
    Lowers ctx base (· = cs ++ [last]) (statements lower ids) := by
  have hm : List.Forall₂ (fun id c => Lowers ctx base (· = c) (lower id)) ids
      ((cs ++ [last]).map fun c => [c]) := List.forall₂_map_right_iff.2 h
  apply (Lowers.mapM hm).bind
  rintro _ rfl
  apply Lowers.pure
  have hflat : ((cs ++ [last]).map fun c => [c]).flatten = cs ++ [last] := List.flatMap_singleton' _
  rw [hflat, sealReturns_eq hc]

theorem size_of_program {a : Arena} {root : NodeId} {elements : List Constant} {steps : List Step}
    {probe : Probe} (h : IsProgram a x root elements steps probe) : 1 < a.size := by
  obtain ⟨name, d, array, es, ss, r, e, hroot, hd, -⟩ := h
  have hlt {id : NodeId} {n : Node} (h : a.get? id = some n) : id.index < a.size := by
    obtain ⟨entry, he, -⟩ := Option.map_eq_some_iff.1 h
    exact (Array.getElem?_eq_some_iff.1 he).1
  have hne : root.index ≠ d.index := by
    intro heq
    have hsame : a.get? root = a.get? d := by rw [Arena.get?, Arena.get?, heq]
    rw [hroot, hd] at hsame
    cases hsame
  have h₁ := hlt hroot
  have h₂ := hlt hd
  omega

section Chunk

variable (hb : base.WellFormed) (ht : base.Has t) (hx : IsTyped ctx.arena x base ctx.facts t)
  (hl : (shapeOf t base).1.isArrayLike)

include hb ht hx hl

/-- A program is lowered to its code. -/
theorem chunk_lowers {root : NodeId} {elements : List Constant} {steps : List Step} {probe : Probe}
    (h : IsProgram ctx.arena x root elements steps probe)
    (hs : ∀ step ∈ steps, step.target.Allowed (shapeOf t base).1)
    (hp : probe.target.Allowed (shapeOf t base).1) :
    Lowers ctx base (· = ArrayProgram.chunk ctx.fold (Lua.rename x) elements steps probe)
      (Lowering.chunk root) := by
  obtain ⟨room, hsize⟩ := Nat.exists_eq_add_of_le' (size_of_program h)
  obtain ⟨name, d, array, es, ss, r, e, hroot, hd, harray, hes, hss, hr, he⟩ := h
  have hdecl : Lowers ctx base
      (· = [.bindLocal (Lua.rename x) (arrayLiteral (elements.map Constant.code))])
      (statementAt (room + 1) d) := by
    apply (Lowers.node? hd).bind
    rintro _ rfl
    apply (initialValue_array harray hes).bind
    rintro _ rfl
    exact .pure rfl
  have hlast : Lowers ctx base (· = [.yields (probe.code ctx.fold (Lua.rename x))])
      (statementAt (room + 1) r) := by
    apply (Lowers.node? hr).bind
    rintro _ rfl
    apply (expression_probe hb ht hx hl he hp).bind
    rintro _ rfl
    exact .pure rfl
  have hsteps : List.Forall₂ (fun id c => Lowers ctx base (· = [c]) (statementAt (room + 1) id)) ss
      (steps.map (Step.code ctx.fold (Lua.rename x))) := by
    rw [List.forall₂_map_right_iff]
    have hboth := ((List.forall₂_and_left _ _).2 ⟨hs, hss.flip⟩).flip
    exact hboth.imp fun id step h => statementAt_step hb ht hx hl room h.2 h.1
  have hkeep : ∀ c ∈ Code.bindLocal (Lua.rename x) (arrayLiteral (elements.map Constant.code)) ::
      steps.map (Step.code ctx.fold (Lua.rename x)), c.isReturn = false := by
    intro c hc
    rcases List.mem_cons.1 hc with rfl | hc
    · rfl
    · obtain ⟨step, -, rfl⟩ := List.mem_map.1 hc
      cases step <;> rfl
  apply Lowers.read.bind
  rintro ctx rfl
  rw [hsize]
  apply (Lowers.node? hroot).bind
  rintro _ rfl
  apply statements_lowers hkeep
  apply List.rel_append
  · exact List.Forall₂.cons hdecl hsteps
  · exact List.Forall₂.cons hlast .nil

end Chunk

end Program

end Lowering

/-- A file with a program on an array is lowered to the code of the program. -/
theorem ArrayProgram.lowerFile_eq {a : Arena} {x : String} {store : TypeStore} {facts : TypeFacts}
    {t : TypeId} (hb : store.WellFormed) (ht : store.Has t) (hx : IsTyped a x store facts t)
    (hl : (shapeOf t store).1.isArrayLike) {root : NodeId} {elements : List Constant}
    {steps : List Step} {probe : Probe} (h : IsProgram a x root elements steps probe)
    (hs : ∀ step ∈ steps, step.target.Allowed (shapeOf t store).1)
    (hp : probe.target.Allowed (shapeOf t store).1) (fold : Bool) :
    (lowerFile a root store facts fold).1 = chunk fold (Lua.rename x) elements steps probe := by
  let ctx : Lowering.Context := ⟨a, facts, fold, fileName a root⟩
  have hc : Lowering.Lowers ctx store (· = chunk fold (Lua.rename x) elements steps probe)
      (Lowering.chunk root) := Lowering.chunk_lowers hb ht hx hl h hs hp
  exact (hc ⟨store, [], false⟩ ⟨hb, .refl store⟩).1

end ScriptToLua
