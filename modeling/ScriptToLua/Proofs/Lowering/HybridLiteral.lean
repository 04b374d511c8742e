import Mathlib
import ScriptToLua.Proofs.Lowering.ArrayRun
import ScriptToLua.Proofs.Lowering.Growth
import ScriptToLua.Proofs.Lua.Constructor
import ScriptToLua.Proofs.Types.Primitive

/-!
Object literals that stand for arrays. A property is stored under the key that a read of it looks up,
`objectLiteral_readsBack`; where the two differ, `not_readsBack`.
-/

namespace ScriptToLua

open Source (Arena Node NodeId)

/-- The node is a literal or a variable. -/
def Source.Node.isAtom : Node → Bool
  | .number _ | .string _ | .boolean _ | .null | .undefined | .identifier _ => true
  | _ => false

/-- The type of a literal or a variable. -/
def TypeFacts.atomType (f : TypeFacts) (id : NodeId) (n : Node) : TypeId :=
  (f.nodes.get? id).getD <|
    match n with
    | .number _ => .number
    | .string _ => .string
    | .boolean _ => .boolean
    | .identifier x => f.declaredType x
    | _ => .nil

namespace Lowering

open Lua (Code Field)

/-- The code of a literal or a variable. -/
def atomCode : Node → Code
  | .number text => .number (luaNumeral text)
  | .string s => .string s
  | .boolean b => .boolean b
  | .identifier x => .name (Lua.rename x)
  | _ => .nil

section Keys

variable (a : Arena) (f : TypeFacts) (s : TypeStore)

/-- The computed key is a literal or a variable, and all its values are numbers or all are strings.
A string literal is neither typed as a number nor spelled like an index, and it is a `length` only if
that is a member of the shape. -/
def IsSharedAtom (shape : Shape) (key : NodeId) : Node → Prop
  | .string x => s.isNumberLike (f.atomType key (.string x)) = false ∧ isIndexText x = false ∧
      (x = "length" → (shape.member? x).isSome)
  | n => n.isAtom ∧ (s.isNumberLike (f.atomType key n) ∨ s.isStringLike (f.atomType key n))

/-- Reads of the key look up what a literal stores under it. -/
def IsSharedKey (shape : Shape) : Source.Key → Prop
  | .name x => x = "length" → (shape.member? x).isSome
  | .string x => x = "length" → (shape.member? x).isSome
  | .number _ => True
  | .computed key => ∃ n, a.get? key = some n ∧ IsSharedAtom f s shape key n

/-- The node is `receiver.name` for a name and `receiver[key]` for all other keys. An index that is a
numeral is not typed as a string, and a key that was computed is written and typed as it was. -/
def IsRead (receiver id : NodeId) : Source.Key → Prop
  | .name x => a.get? id = some (.property receiver x)
  | .string x => ∃ k, a.get? id = some (.element receiver k) ∧ a.get? k = some (.string x)
  | .number text => ∃ k, a.get? id = some (.element receiver k) ∧ a.get? k = some (.number text) ∧
      s.isStringLike (f.atomType k (.number text)) = false
  | .computed key => ∃ k, a.get? id = some (.element receiver k) ∧ a.get? k = a.get? key ∧
      f.nodes.get? k = f.nodes.get? key

/-- The key that stands in the code for a key of the source. -/
def keyCode (fold : Bool) : Source.Key → Code
  | .name x => .string x
  | .string x => if isIndexText x then oneBased fold (.number x) else .string x
  | .number text => oneBased fold (.number (luaNumeral text))
  | .computed key =>
    let n := (a.get? key).getD .undefined
    if s.isNumberLike (f.atomType key n) then oneBased fold (atomCode n) else atomCode n

end Keys

section Lowers

variable {ctx : Context} {base : TypeStore}

theorem Safe.lowers {α : Type} {act : LowerM α} (h : Safe ctx base act) :
    Lowers ctx base (fun _ => True) act := by
  intro st hst
  obtain ⟨hw, he, -⟩ := h st hst.extends_ hst.wellFormed
  exact ⟨trivial, hw, hst.extends_.trans he⟩

theorem Lowers.mapM_forall₂ {α γ : Type} {P : γ → α → Prop} {act : γ → LowerM α} {l : List γ}
    (h : ∀ c ∈ l, Lowers ctx base (P c) (act c)) :
    Lowers ctx base (fun as => List.Forall₂ P l as) (l.mapM act) := by
  induction l with
  | nil => exact .pure .nil
  | cons c l ih =>
    rw [List.mapM_cons]
    refine (h c List.mem_cons_self).bind fun a ha => ?_
    refine (ih fun d hd => h d (List.mem_cons_of_mem c hd)).bind fun as has => ?_
    exact .pure (.cons ha has)

section Atoms

variable (hb : base.WellFormed) (hf : ctx.facts.Stored ctx.arena base) {id : NodeId} {n : Node}
  (hn : ctx.arena.get? id = some n) (ha : n.isAtom)

include hb hf

theorem atomType_has (id : NodeId) (n : Node) : base.Has (ctx.facts.atomType id n) := by
  unfold TypeFacts.atomType
  cases hid : ctx.facts.nodes.get? id with
  | some t => exact hf.nodes.get? hid
  | none =>
    cases n with
    | identifier x => exact hf.declaredType hb x
    | _ => exact hb.has_intrinsic rfl

omit hb hf

include hn ha

theorem typeOf_atom : Lowers ctx base (· = ctx.facts.atomType id n) (typeOf id) := by
  cases n with
  | number text => exact typeOf_leaf hn (fun _ => rfl) rfl
  | string x => exact typeOf_leaf hn (fun _ => rfl) rfl
  | boolean b => exact typeOf_leaf hn (fun _ => rfl) rfl
  | null => exact typeOf_leaf hn (fun _ => rfl) rfl
  | undefined => exact typeOf_leaf hn (fun _ => rfl) rfl
  | identifier x => exact typeOf_leaf hn (fun _ => rfl) rfl
  | _ => cases ha

theorem expressionAt_atom (room : Nat) :
    Lowers ctx base (· = atomCode n) (expressionAt (room + 1) id) := by
  apply expressionAt_lowers hn
  cases n with
  | number text => exact .pure rfl
  | string x => exact .pure rfl
  | boolean b => exact .pure rfl
  | null => exact .pure rfl
  | undefined => exact .pure rfl
  | identifier x => exact .pure rfl
  | _ => cases ha

end Atoms

variable {context : TypeId} {shape : Shape} {key : Source.Key}

theorem IsSharedAtom.isAtom {f : TypeFacts} {s : TypeStore} {id : NodeId} {n : Node}
    (h : IsSharedAtom f s shape id n) : n.isAtom := by
  cases n with
  | string x => rfl
  | _ => exact h.1

section Stored

variable (hb : base.WellFormed) (hf : ctx.facts.Stored ctx.arena base)

include hb hf

/-- A property is stored under the code of its key. -/
theorem hybridProperty_lowers (room : Nat) (hk : IsSharedKey ctx.arena ctx.facts base shape key)
    (value : NodeId) :
    Lowers ctx base
      (fun p => (p.field ctx.fold).key? = some (keyCode ctx.arena ctx.facts base ctx.fold key))
      (hybridProperty (expressionAt (room + 1)) (key, value)) := by
  have hvalue : Lowers ctx base (fun _ => True) (expressionAt (room + 1) value) :=
    (expressionAt_safe hf (room + 1) value).lowers
  cases key with
  | name x => exact hvalue.bind fun v _ => .pure rfl
  | number text => exact hvalue.bind fun v _ => .pure rfl
  | string x =>
    refine hvalue.bind fun v _ => .pure ?_
    by_cases hx : isIndexText x
    · simp only [keyCode, if_pos hx]
      rfl
    · simp only [keyCode, if_neg hx]
      rfl
  | computed k =>
    obtain ⟨n, hn, hk⟩ := hk
    refine (typeOf_atom hn hk.isAtom).bind ?_
    rintro _ rfl
    refine (expressionAt_atom hn hk.isAtom room).bind ?_
    rintro _ rfl
    refine hvalue.bind fun v _ => ?_
    have hnumber : Lowers ctx base (· = base.isNumberLike (ctx.facts.atomType k n))
        (askTypes fun s => s.isNumberLike (ctx.facts.atomType k n)) :=
      .askTypes fun s _ he => he.isNumberLike hb (atomType_has hb hf k n)
    refine hnumber.bind ?_
    rintro _ rfl
    have hcode : keyCode ctx.arena ctx.facts base ctx.fold (.computed k) =
        if base.isNumberLike (ctx.facts.atomType k n) then oneBased ctx.fold (atomCode n)
        else atomCode n := by
      simp only [keyCode, hn, Option.getD_some]
    rw [hcode]
    split <;> exact .pure rfl

/-- The literal becomes a table with a field for each property. -/
theorem objectLiteral_lowers (room : Nat) (ht : base.Has context)
    (hl : (shapeOf context base).1.isArrayLike) (properties : List (Source.Key × NodeId)) :
    Lowers ctx base
      (fun c => ∃ fields, c = .table fields ∧ List.Forall₂ (fun p field =>
        IsSharedKey ctx.arena ctx.facts base (shapeOf context base).1 p.1 →
          Field.key? field = some (keyCode ctx.arena ctx.facts base ctx.fold p.1)) properties fields)
      (objectLiteral (expressionAt (room + 1)) properties context) := by
  have hshape : Lowers ctx base (fun shape => shape.isArrayLike) (withTypes (shapeOf context)) := by
    apply Lowers.withTypes
    intro s hs he
    obtain ⟨hw, hg, -⟩ := shapeOf_grows hs (he.has ht)
    exact ⟨hw, hg, (Shape.isArrayLike_of_outline (shapeOf_outline hb hs he ht)).trans hl⟩
  refine hshape.bind fun shape hlike => ?_
  rw [if_pos hlike]
  apply Lowers.read.bind
  rintro ctx rfl
  have hproperty (p : Source.Key × NodeId) : Lowers ctx base
      (fun q => IsSharedKey ctx.arena ctx.facts base (shapeOf context base).1 p.1 →
        (q.field ctx.fold).key? = some (keyCode ctx.arena ctx.facts base ctx.fold p.1))
      (hybridProperty (expressionAt (room + 1)) p) := by
    intro st hst
    have hsafe := hybridProperty_safe hf (expressionAt_safe hf (room + 1)) p
    refine ⟨fun hk => ?_, (hsafe.lowers st hst).2⟩
    exact (hybridProperty_lowers hb hf room hk p.2 st hst).1
  have hproperties := Lowers.mapM_forall₂ fun p (_ : p ∈ properties) => hproperty p
  exact hproperties.bind fun ps hps => .pure ⟨_, rfl, List.forall₂_map_right_iff.2 hps⟩

end Stored

section Access

variable {a : Access} {s : TypeStore} {fold : Bool} (hl : a.shape.isArrayLike)

include hl

theorem read_named {x : String} (ha : a.key = .named x)
    (hx : x = "length" → (a.shape.member? x).isSome) :
    (a.read s fold).access? = some (a.receiver, .string x) := by
  simp only [Access.read, Access.read?, Access.landing?, if_pos hl, ha, Access.landNamed]
  by_cases hm : (a.shape.member? x).isSome
  · simp only [if_pos hm]
    rfl
  · have hne : x ≠ "length" := fun h => hm (hx h)
    simp only [if_neg hm, if_neg hne, Option.map_none, Option.getD_none, Access.plain, ha]
    rfl

theorem read_string {x : String} {t : TypeId} (ha : a.key = .element (.string x) t)
    (hx : x = "length" → (a.shape.member? x).isSome) :
    (a.read s fold).access? =
      some (a.receiver, if isIndexText x then oneBased fold (.number x) else .string x) := by
  simp only [Access.read, Access.read?, Access.landing?, if_pos hl, ha, Access.landString]
  by_cases hi : isIndexText x
  · simp only [if_pos hi]
    rfl
  · have hne : ¬ (x = "length" ∧ a.shape.member? x = none) := by
      rintro ⟨h, hnone⟩
      have hsome := hx h
      rw [hnone] at hsome
      cases hsome
    simp only [if_neg hi, if_neg hne]
    rfl

theorem read_computed {c : Code} {t : TypeId} (ha : a.key = .element c t)
    (hc : ∀ x, c ≠ .string x) :
    (a.read s fold).access? =
      some (a.receiver, if s.isStringLike t then c else oneBased fold c) := by
  have hland : a.landing? s fold = some (a.landComputed s fold c t) := by
    rw [Access.landing?, if_pos hl, ha]
    cases c with
    | string x => exact absurd rfl (hc x)
    | _ => rfl
  simp only [Access.read, Access.read?, hland, Access.landComputed]
  by_cases ht : s.isStringLike t
  · simp only [if_pos ht]
    rfl
  · simp only [if_neg ht]
    rfl

end Access

/-- A literal or a variable that is a number is looked up in its slot, and one that is a string is looked
up as it stands. -/
theorem IsSharedAtom.read {f : TypeFacts} {id : NodeId} {n : Node} {a : Access} {s : TypeStore}
    {fold : Bool} (h : IsSharedAtom f base shape id n) (hl : a.shape.isArrayLike)
    (ha : a.key = .element (atomCode n) (f.atomType id n))
    (hm : ∀ x, a.shape.member? x = shape.member? x)
    (hs : s.isStringLike (f.atomType id n) = base.isStringLike (f.atomType id n)) :
    (a.read s fold).access? = some (a.receiver,
      if base.isNumberLike (f.atomType id n) then oneBased fold (atomCode n) else atomCode n) := by
  by_cases hx : ∃ x, n = .string x
  · obtain ⟨x, rfl⟩ := hx
    obtain ⟨hnumber, hindex, hlength⟩ := h
    rw [read_string hl ha (hm x ▸ hlength), hnumber, hindex]
    rfl
  · have hne : ∀ x, atomCode n ≠ .string x := by
      intro x h
      cases n with
      | string y => exact hx ⟨y, rfl⟩
      | _ => cases h
    have hkind : base.isNumberLike (f.atomType id n) ∨ base.isStringLike (f.atomType id n) := by
      cases n with
      | string y => exact absurd ⟨y, rfl⟩ hx
      | _ => exact h.2
    rw [read_computed hl ha hne, hs]
    rcases hkind with hnumber | htext
    · rw [hnumber, isStringLike_of_isNumberLike hnumber]
      rfl
    · have hnumber : base.isNumberLike (f.atomType id n) = false := by
        by_contra hnumber
        rw [isStringLike_of_isNumberLike (Bool.of_not_eq_false hnumber)] at htext
        cases htext
      rw [hnumber, htext]
      rfl

section Read

variable (hb : base.WellFormed) (hf : ctx.facts.Stored ctx.arena base) (ht : base.Has context)
  (hl : (shapeOf context base).1.isArrayLike) {receiver : NodeId}
  (hreceiver : Lowers ctx base (· = context) (typeOf receiver))

include hb hf ht hl hreceiver

/-- An access to the receiver sees the shape of its type. -/
theorem namedAccess_lowers (room : Nat) (x : String) :
    Lowers ctx base (fun a => a.key = .named x ∧ a.shape.isArrayLike ∧
      ∀ y, a.shape.member? y = (shapeOf context base).1.member? y)
      (namedAccess (expressionAt room) receiver x) := by
  refine hreceiver.bind ?_
  rintro _ rfl
  refine (expressionAt_safe hf room receiver).lowers.bind fun c _ => .withTypes fun s hs he => ?_
  obtain ⟨hw, hg, -⟩ := shapeOf_grows hs (he.has ht)
  have houtline := shapeOf_outline hb hs he ht
  exact ⟨hw, hg, rfl, (Shape.isArrayLike_of_outline houtline).trans hl,
    Shape.member?_of_outline houtline⟩

theorem elementAccess_lowers (room : Nat) {k : NodeId} {n : Node}
    (hn : ctx.arena.get? k = some n) (hatom : n.isAtom) :
    Lowers ctx base (fun a => a.key = .element (atomCode n) (ctx.facts.atomType k n) ∧
      a.shape.isArrayLike ∧ ∀ y, a.shape.member? y = (shapeOf context base).1.member? y)
      (elementAccess (expressionAt (room + 1)) receiver k) := by
  refine hreceiver.bind ?_
  rintro _ rfl
  refine (expressionAt_safe hf (room + 1) receiver).lowers.bind fun c _ => ?_
  refine (typeOf_atom hn hatom).bind ?_
  rintro _ rfl
  refine (expressionAt_atom hn hatom room).bind ?_
  rintro _ rfl
  refine .withTypes fun s hs he => ?_
  obtain ⟨hw, hg, -⟩ := shapeOf_grows hs (he.has ht)
  have houtline := shapeOf_outline hb hs he ht
  exact ⟨hw, hg, rfl, (Shape.isArrayLike_of_outline houtline).trans hl,
    Shape.member?_of_outline houtline⟩

/-- A read looks up the code of its key. -/
theorem read_lowers (room : Nat) {id : NodeId}
    (hk : IsSharedKey ctx.arena ctx.facts base (shapeOf context base).1 key)
    (hid : IsRead ctx.arena ctx.facts base receiver id key) :
    Lowers ctx base
      (fun e => ∃ r, e.access? = some (r, keyCode ctx.arena ctx.facts base ctx.fold key))
      (expressionAt (room + 2) id) := by
  have hread {a : Access} {k : Code}
      (h : ∀ s, s.WellFormed → base.Extends s →
        (a.read s ctx.fold).access? = some (a.receiver, k)) :
      Lowers ctx base (fun e => ∃ r, e.access? = some (r, k)) (readAccess a) := by
    apply Lowers.read.bind
    rintro ctx rfl
    exact .askTypes fun s hs he => ⟨_, h s hs he⟩
  have helement {k : NodeId} {n : Node} (hn : ctx.arena.get? k = some n) (hatom : n.isAtom) :=
    elementAccess_lowers hb hf ht hl hreceiver room hn hatom
  cases key with
  | name x =>
    apply expressionAt_lowers hid
    refine (namedAccess_lowers hb hf ht hl hreceiver (room + 1) x).bind ?_
    rintro a ⟨ha, hlike, hm⟩
    exact hread fun s _ _ => read_named hlike ha (hm x ▸ hk)
  | string x =>
    obtain ⟨k, hid, hn⟩ := hid
    apply expressionAt_lowers hid
    refine (helement hn rfl).bind ?_
    rintro a ⟨ha, hlike, hm⟩
    exact hread fun s _ _ => read_string hlike ha (hm x ▸ hk)
  | number text =>
    obtain ⟨k, hid, hn, htype⟩ := hid
    apply expressionAt_lowers hid
    refine (helement hn rfl).bind ?_
    rintro a ⟨ha, hlike, hm⟩
    refine hread fun s _ he => ?_
    have hs := (he.isStringLike hb (atomType_has hb hf k (.number text))).trans htype
    have hne : ∀ x, atomCode (.number text) ≠ .string x := by rintro x ⟨⟩
    rw [read_computed hlike ha hne, hs]
    rfl
  | computed key =>
    obtain ⟨k, hid, hsame, hrecorded⟩ := hid
    obtain ⟨n, hkey, hk⟩ := hk
    have hn : ctx.arena.get? k = some n := hsame.trans hkey
    have htype : ctx.facts.atomType k n = ctx.facts.atomType key n := by
      unfold TypeFacts.atomType
      rw [hrecorded]
    have hcode : keyCode ctx.arena ctx.facts base ctx.fold (.computed key) =
        if base.isNumberLike (ctx.facts.atomType key n) then oneBased ctx.fold (atomCode n)
        else atomCode n := by
      simp only [keyCode, hkey, Option.getD_some]
    rw [hcode]
    apply expressionAt_lowers hid
    refine (helement hn hk.isAtom).bind ?_
    rintro a ⟨ha, hlike, hm⟩
    rw [htype] at ha
    exact hread fun s _ he => hk.read hlike ha hm (he.isStringLike hb (atomType_has hb hf key n))

/-- What an object literal that stands for an array stores under a key is what a read of the key
from a receiver of the same type reads back. -/
theorem objectLiteral_readsBack {properties : List (Source.Key × NodeId)} {i : Nat}
    {value id : NodeId} (hp : properties[i]? = some (key, value))
    (hk : IsSharedKey ctx.arena ctx.facts base (shapeOf context base).1 key)
    (hid : IsRead ctx.arena ctx.facts base receiver id key) (room room' : Nat) {st st' : State}
    (hst : State.From base st) (hst' : State.From base st') :
    ∃ fields, (objectLiteral (expressionAt (room + 1)) properties context ctx st).1 =
        .table fields ∧
      Code.ReadsBack fields i (expressionAt (room' + 2) id ctx st').1 := by
  obtain ⟨⟨fields, hliteral, hfields⟩, -⟩ :=
    objectLiteral_lowers hb hf room ht hl properties st hst
  obtain ⟨⟨r, hr⟩, -⟩ := read_lowers hb hf ht hl hreceiver room' hk hid st' hst'
  obtain ⟨hi, heq⟩ := List.getElem?_eq_some_iff.1 hp
  have hi' : i < fields.length := hfields.length_eq ▸ hi
  have hkey := hfields.get hi hi'
  rw [List.get_eq_getElem, heq] at hkey
  exact ⟨fields, hliteral,
    Code.readsBack_of_access (List.getElem?_eq_getElem hi') (hkey hk) hr⟩

end Read

end Lowers

section Tagged

open ArrayProgram

/-- `let k = "a"; let e: Tagged = { [k]: "v" }; return e[k]` -/
def computedArena : Arena :=
  let nodes : List Node :=
    [.string "a", .variableDecl "k" (some ⟨0⟩), .identifier "k", .string "v",
      .object [(.computed ⟨2⟩, ⟨3⟩)], .variableDecl "e" (some ⟨4⟩), .identifier "e",
      .element ⟨6⟩ ⟨2⟩, .returns (some ⟨7⟩), .file "a.ts" [⟨1⟩, ⟨5⟩, ⟨8⟩]]
  ⟨(nodes.map fun n => (n, ⟨0, 0⟩)).toArray⟩

/-- `e` is an array of numbers with a tag. -/
def taggedFacts : TypeFacts := TypeFacts.empty.declare "e" ⟨8⟩

def computedContext : Context :=
  ⟨computedArena, taggedFacts.declare "k" .string, true, "a.ts"⟩

/-- A computed key that is known to be a string. -/
theorem objectLiteral_readsBack_of_string :
    let st : State := ⟨taggedStore, [], false⟩
    ∃ fields, (objectLiteral (expressionAt 1) [(.computed ⟨2⟩, ⟨3⟩)] ⟨8⟩ computedContext st).1 =
        .table fields ∧
      Code.ReadsBack fields 0 (expressionAt 2 ⟨7⟩ computedContext st).1 := by
  have hnames : ∀ e ∈ (taggedFacts.declare "k" .string).names.entries, taggedStore.Has e.2 := by
    decide +kernel
  have hasserted : ∀ e ∈ computedArena.entries.toList, ∀ x t, e.1 ≠ .asserted x t := by
    intro e he x t
    simp only [computedArena, List.map_cons, List.map_nil, List.mem_cons, List.not_mem_nil,
      or_false] at he
    rcases he with rfl | rfl | rfl | rfl | rfl | rfl | rfl | rfl | rfl | rfl <;> rintro ⟨⟩
  have hf : computedContext.facts.Stored computedContext.arena taggedStore := by
    refine ⟨.empty, hnames, fun id x t h => ?_⟩
    obtain ⟨e, he, hx⟩ := Option.map_eq_some_iff.1 h
    exact absurd hx (hasserted e (Array.mem_toList_iff.2 (Array.mem_of_getElem? he)) x t)
  have hreceiver : Lowers computedContext taggedStore (· = ⟨8⟩) (typeOf ⟨6⟩) :=
    typeOf_atom (rfl : computedContext.arena.get? ⟨6⟩ = some (.identifier "e")) rfl
  have hkey : IsSharedKey computedArena computedContext.facts taggedStore
      (shapeOf ⟨8⟩ taggedStore).1 (.computed ⟨2⟩) :=
    ⟨.identifier "k", rfl, rfl, .inr (by decide +kernel)⟩
  have hread : IsRead computedArena computedContext.facts taggedStore ⟨6⟩ ⟨7⟩ (.computed ⟨2⟩) :=
    ⟨⟨2⟩, rfl, rfl, rfl⟩
  have hstart : State.From taggedStore ⟨taggedStore, [], false⟩ :=
    ⟨taggedStore_wellFormed, .refl _⟩
  exact objectLiteral_readsBack taggedStore_wellFormed hf (by decide +kernel) (by decide +kernel)
    hreceiver rfl hkey hread 0 0 hstart hstart

/-- `let e: Tagged = { length: "n" }; return e.length` -/
def lengthArena : Arena :=
  let nodes : List Node :=
    [.string "n", .object [(.name "length", ⟨0⟩)], .variableDecl "e" (some ⟨1⟩), .identifier "e",
      .property ⟨3⟩ "length", .returns (some ⟨4⟩), .file "a.ts" [⟨2⟩, ⟨5⟩]]
  ⟨(nodes.map fun n => (n, ⟨0, 0⟩)).toArray⟩

/-- `let e: Tagged = { ["a"]: "v" }; return e["a"]` -/
def textArena : Arena :=
  let nodes : List Node :=
    [.string "a", .string "v", .object [(.computed ⟨0⟩, ⟨1⟩)], .variableDecl "e" (some ⟨2⟩),
      .identifier "e", .element ⟨4⟩ ⟨0⟩, .returns (some ⟨5⟩), .file "a.ts" [⟨3⟩, ⟨6⟩]]
  ⟨(nodes.map fun n => (n, ⟨0, 0⟩)).toArray⟩

/-- What a file with tagged arrays returns. -/
def runTagged (a : Arena) (root : NodeId) (facts : TypeFacts) : Except Lua.Fault Lua.Value :=
  (Lua.runChunk (lowerFile a root taggedStore facts true).1 .initial).1

/-- A key about whose type nothing is known is stored as it is and read as an index, an undeclared
`length` is stored under its name and read as the length, and a text that is typed as a number is
stored as an index and read as a name. -/
theorem not_readsBack :
    runTagged computedArena ⟨9⟩ taggedFacts = .error (.notArithmetic .string) ∧
      runTagged lengthArena ⟨6⟩ taggedFacts = .ok (.number (Float.ofNat 0)) ∧
      runTagged textArena ⟨7⟩ (taggedFacts.recordNode ⟨0⟩ .number) =
        .error (.notArithmetic .string) := by
  have hcomputed : (lowerFile computedArena ⟨9⟩ taggedStore taggedFacts true).1 =
      [.bindLocal "k" (.string "a"), .bindLocal "e" (.table [.keyed (.name "k") (.string "v")]),
        .yields (.index (.name "e") (.binary (.name "k") .add (.number "1")))] := by cbv
  have hlength : (lowerFile lengthArena ⟨6⟩ taggedStore taggedFacts true).1 =
      [.bindLocal "e" (.table [.named "length" (.string "n")]),
        .yields (.unary .len (.name "e"))] := by cbv
  have htext : (lowerFile textArena ⟨7⟩ taggedStore (taggedFacts.recordNode ⟨0⟩ .number) true).1 =
      [.bindLocal "e" (.table [.keyed (.binary (.string "a") .add (.number "1")) (.string "v")]),
        .yields (.member (.name "e") "a")] := by cbv
  rw [runTagged, runTagged, runTagged, hcomputed, hlength, htext]
  exact ⟨rfl, rfl, rfl⟩

end Tagged

end Lowering

end ScriptToLua
