import Mathlib
import ScriptToLua.Proofs.Lowering.Growth
import ScriptToLua.Proofs.Types.Nesting
import ScriptToLua.Proofs.Types.Replay

/-!
The types of accesses and the places where accesses land. They agree on names after a dot, on declared
members, on digits and on keys that are no strings: `expressionType_access`. All other keys have the
type of the slots, wherever they land.
-/

namespace ScriptToLua.Lowering

open Lua (Code)
open Source (Arena Node NodeId)
open TypeStore Typing

namespace Access

/-- The type that is due to an access by where it lands. -/
def Expects (s : TypeStore) (fold : Bool) (a : Access) (t : TypeId) : Prop :=
  match a.landing? s fold, a.key with
  | some .length, _ => t = .number
  | some (.place (.field _ name)), _ => t = ((a.shape.member? name).map Property.type).getD .unknown
  | some (.place _), .element (.string name) _ =>
    a.shape.element? = some t ∨ ∃ p, a.shape.member? name = some p ∧ p.type = t
  | some (.place _), .element _ type =>
    if s.isStringLike type then t = .unknown else a.shape.element? = some t
  | _, _ => t = .unknown

/-- The typing of accesses looks at the key: at a name after a dot, at a declared member behind a
string literal, and at what lands in a slot. -/
def IsTyped (s : TypeStore) (a : Access) (key : Option Node) : Prop :=
  match a.key with
  | .named _ => True
  | .element (.string name) _ =>
    isIndexText name ∨ key = some (.string name) ∧ (a.shape.member? name).isSome
  | .element _ type => s.isStringLike type = false

end Access

/-- The node of the key in `receiver[key]`. -/
def keyNode? (arena : Arena) (id : NodeId) : Option Node :=
  match arena.get? id with
  | some (.element _ key) => arena.get? key
  | _ => none

section Landing

theorem elementType_member {shape : Shape} {key : Option Node} {x : String} {p : Property}
    (hkey : key = some (.string x)) (hp : shape.member? x = some p) :
    elementType shape key = p.type := by
  subst hkey
  unfold elementType
  dsimp only
  rw [hp]

theorem elementType_other {shape : Shape} {key : Option Node}
    (h : ∀ x, key = some (.string x) → shape.member? x = none) :
    elementType shape key = shape.element?.getD .unknown := by
  unfold elementType
  dsimp only
  split
  · next p hp =>
    split at hp
    · next x => cases (h x rfl).symm.trans hp
    · cases hp
  · rfl

variable {a : Access} {s : TypeStore} {fold : Bool} (ha : a.shape.isArrayLike)

include ha

theorem expects_propertyType {name : String} (hk : a.key = .named name) :
    a.Expects s fold (propertyType a.shape name) := by
  unfold Access.Expects Access.landing? propertyType
  rw [if_pos ha, hk]
  dsimp only
  unfold Access.landNamed
  cases hm : a.shape.member? name with
  | some p => simp [hm]
  | none =>
    by_cases hl : name = "length"
    · simp [hl, ha]
    · simp [hl]

theorem element?_getD : a.shape.element? = some (a.shape.element?.getD .unknown) :=
  (Option.some_get ha).symm.trans (congrArg some (Option.get_eq_getD _))

variable {code : Code} {type : TypeId} {key : Option Node} (hk : a.key = .element code type)
  (hcode : ∀ x, key = some (.string x) → code = .string x)

include hk hcode

theorem expects_elementType (ht : a.IsTyped s key) :
    a.Expects s fold (elementType a.shape key) := by
  unfold Access.IsTyped at ht
  unfold Access.Expects Access.landing?
  rw [if_pos ha]
  rw [hk] at ht ⊢
  by_cases hstring : ∃ x, code = .string x
  · obtain ⟨x, rfl⟩ := hstring
    have hname (y : String) (hy : key = some (.string y)) : y = x :=
      (Code.string.inj (hcode y hy)).symm
    dsimp only at ht ⊢
    unfold Access.landString
    by_cases hx : isIndexText x
    · rw [if_pos hx]
      by_cases hmember : ∃ p, key = some (.string x) ∧ a.shape.member? x = some p
      · obtain ⟨p, hkey, hp⟩ := hmember
        exact .inr ⟨p, hp, (elementType_member hkey hp).symm⟩
      · rw [elementType_other fun y hy => ?_]
        · exact .inl (element?_getD ha)
        · obtain rfl := hname y hy
          exact Option.eq_none_iff_forall_ne_some.2 fun p hp => hmember ⟨p, hy, hp⟩
    · obtain ⟨hkey, hsome⟩ := ht.resolve_left hx
      obtain ⟨p, hp⟩ := Option.isSome_iff_exists.1 hsome
      rw [if_neg hx, if_neg (by simp [hp]), elementType_member hkey hp]
      simp [hp]
  · have hkey (y : String) (hy : key = some (.string y)) : False := hstring ⟨y, hcode y hy⟩
    rw [elementType_other fun y hy => (hkey y hy).elim]
    cases code with
    | string x => exact absurd ⟨x, rfl⟩ hstring
    | _ =>
      dsimp only at ht ⊢
      unfold Access.landComputed
      rw [ht, if_neg Bool.false_ne_true]
      simpa [ht] using element?_getD ha

theorem element?_eq_elementType (ht : ¬ a.IsTyped s key) :
    a.shape.element? = some (elementType a.shape key) := by
  rw [elementType_other fun y hy => ?_]
  · exact element?_getD ha
  · unfold Access.IsTyped at ht
    rw [hk, hcode y hy] at ht
    exact Option.not_isSome_iff_eq_none.1 fun h => ht (.inr ⟨hy, h⟩)

end Landing

section Shapes

variable {arena : Arena} {facts : TypeFacts} {receiver : NodeId} {s s' σ : TypeStore} {room : Nat}

/-- The shape of the receiver of an access. -/
def receiverShape (arena : Arena) (facts : TypeFacts) (room : Nat) (receiver : NodeId) :
    TypeM Shape := do
  shapeOf (← typeAt arena facts room receiver)

/-- The type of the receiver may be asked for some time before its shape. Whoever asks for both later
on, or did earlier, gets the same shape. -/
theorem receiverShape_eq {shape : Shape} {s₁ s₂ : TypeStore} {t : TypeId} (hs : s.WellFormed)
    (hf : facts.Stored arena s) (ht : typeAt arena facts room receiver s = (t, s₁))
    (he : s₁.Extends s₂) (hs₂ : s₂.WellFormed) (hshape : shapeOf t s₂ = (shape, s'))
    (hσ : s'.Extends σ ∨ σ.WellFormed ∧ facts.Stored arena σ ∧
      (receiverShape arena facts room receiver σ).2.Extends s) :
    (receiverShape arena facts room receiver σ).1 = shape := by
  have hrun (t' : TypeId) (s₁' s' : TypeStore) (shape' : Shape)
      (h : typeAt arena facts room receiver σ = (t', s₁')) (h' : shapeOf t' s₁' = (shape', s')) :
      receiverShape arena facts room receiver σ = (shape', s') := by
    change shapeOf (typeAt arena facts room receiver σ).1
      (typeAt arena facts room receiver σ).2 = _
    rw [h]
    exact h'
  rcases hσ with hσ | ⟨hσw, hσf, hσ⟩
  · obtain ⟨⟨-, -, hhas⟩, htype⟩ := typeAt_settles room hs hf receiver
    rw [ht] at hhas
    obtain ⟨-, he', -⟩ := shapeOf_grows hs₂ (he.has hhas)
    rw [hshape] at he'
    have hlater := shapeOf_replays hs₂ (he.has hhas)
    rw [hrun t σ σ shape (htype.run ht ((he.trans he').trans hσ)) (hlater.run hshape hσ)]
  · obtain ⟨⟨hw₁, -, hhas⟩, htype⟩ := typeAt_settles room hσw hσf receiver
    obtain ⟨-, he', -⟩ := shapeOf_grows hw₁ hhas
    have hagain : typeAt arena facts room receiver s = ((typeAt arena facts room receiver σ).1, s) :=
      htype s (he'.trans hσ)
    obtain ⟨rfl, rfl⟩ := Prod.mk.inj (ht.symm.trans hagain)
    have hlater := shapeOf_replays hw₁ hhas s₂ (hσ.trans he)
    exact congrArg Prod.fst (hlater.symm.trans hshape)

end Shapes

section Accesses

variable {ctx : Context} {st st' : State} {id receiver key : NodeId} {name : String} {a : Access}
  {σ : TypeStore}

/-- The shape that an access to `receiver` takes into account. -/
abbrev innerShape (ctx : Context) (receiver : NodeId) : TypeM Shape :=
  receiverShape ctx.arena ctx.facts (maxNesting - 1) receiver

theorem expressionType_property (hid : ctx.facts.nodes.get? id = none)
    (hn : ctx.arena.get? id = some (.property receiver name)) (σ : TypeStore) :
    ctx.facts.expressionType ctx.arena id σ =
      (propertyType (innerShape ctx receiver σ).1 name, (innerShape ctx receiver σ).2) := by
  rw [TypeFacts.expressionType, maxNesting, typeAt_node hid hn 499]
  rfl

theorem expressionType_element (hid : ctx.facts.nodes.get? id = none)
    (hn : ctx.arena.get? id = some (.element receiver key)) (σ : TypeStore) :
    ctx.facts.expressionType ctx.arena id σ =
      (elementType (innerShape ctx receiver σ).1 (ctx.arena.get? key),
        (innerShape ctx receiver σ).2) := by
  rw [TypeFacts.expressionType, maxNesting, typeAt_node hid hn 499]
  rfl

/-- A string literal is lowered to itself. -/
theorem expressionAt_string (room : Nat) {x : String} (hn : ctx.arena.get? id = some (.string x))
    (st : State) : expressionAt (room + 1) id ctx st = (.string x, st) := by
  rw [expressionAt, bind_node?_run, hn]
  rfl

/-- How an access comes about: the type of its receiver is asked for first, and its shape after all
parts of the access have been lowered. -/
theorem accessAt?_run {room : Nat} (hs : st.store.WellFormed)
    (hf : ctx.facts.Stored ctx.arena st.store)
    (hrun : accessAt? (expressionAt (room + 1)) id ctx st = (some a, st')) :
    ∃ receiver t s₁ s₂, typeAt ctx.arena ctx.facts maxNesting receiver st.store = (t, s₁) ∧
      s₁.Extends s₂ ∧ s₂.WellFormed ∧ shapeOf t s₂ = (a.shape, st'.store) ∧
      ((∃ name, ctx.arena.get? id = some (.property receiver name) ∧ a.key = .named name) ∨
        ∃ key code type, ctx.arena.get? id = some (.element receiver key) ∧
          a.key = .element code type ∧
          ∀ x, ctx.arena.get? key = some (.string x) → code = .string x) := by
  have hsafe (id : NodeId) : Safe ctx st.store (expressionAt (room + 1) id) :=
    expressionAt_safe hf (room + 1) id
  rw [accessAt?, bind_node?_run] at hrun
  have htyped (receiver : NodeId) := typeAt_grows maxNesting hs hf receiver
  cases hn : ctx.arena.get? id with
  | none =>
    rw [hn] at hrun
    cases hrun
  | some n =>
    rw [hn] at hrun
    cases n with
    | property receiver name =>
      obtain ⟨hw₁, he₁, -⟩ := htyped receiver
      obtain ⟨hw₂, he₂, -⟩ := hsafe receiver { st with store := _ } he₁ hw₁
      obtain ⟨ha, rfl⟩ := Prod.mk.inj hrun
      obtain rfl := Option.some.inj ha
      exact ⟨receiver, _, _, _, rfl, he₂, hw₂, rfl, .inl ⟨name, rfl, rfl⟩⟩
    | element receiver key =>
      obtain ⟨hw₁, he₁, -⟩ := htyped receiver
      obtain ⟨hw₂, he₂, -⟩ := hsafe receiver { st with store := _ } he₁ hw₁
      have hkey : Safe ctx st.store (do
          let _ ← typeOf key
          expressionAt (room + 1) key) :=
        (typeOf_enlarges hf key).bind_safe fun _ _ he _ => (hsafe key).mono he
      obtain ⟨hw₃, he₃, -⟩ := hkey _ (he₁.trans he₂) hw₂
      obtain ⟨ha, rfl⟩ := Prod.mk.inj hrun
      obtain rfl := Option.some.inj ha
      refine ⟨receiver, _, _, _, rfl, he₂.trans he₃, hw₃, rfl, .inr ⟨key, _, _, rfl, rfl, ?_⟩⟩
      intro x hx
      exact congrArg Prod.fst (expressionAt_string room hx _)
    | _ => cases hrun

/-- An access has the type that is due to it where its key is taken into account, and the type of the
slots where it is not. A declared member has one type, after a dot and behind a string literal. The
access may be typed before or after it is lowered, up to where nesting is looked into. -/
theorem expressionType_access {room : Nat} (hs : st.store.WellFormed)
    (hf : ctx.facts.Stored ctx.arena st.store)
    (hrun : accessAt? (expressionAt (room + 1)) id ctx st = (some a, st'))
    (ha : a.shape.isArrayLike) (hid : ctx.facts.nodes.get? id = none)
    (hnest : ctx.arena.nestsWithin maxNesting id)
    (hσ : st'.store.Extends σ ∨ σ.WellFormed ∧ ctx.facts.Stored ctx.arena σ ∧
      (ctx.facts.expressionType ctx.arena id σ).2.Extends st.store) :
    (a.IsTyped st'.store (keyNode? ctx.arena id) →
      a.Expects st'.store ctx.fold (ctx.facts.expressionType ctx.arena id σ).1) ∧
    (¬ a.IsTyped st'.store (keyNode? ctx.arena id) →
      a.shape.element? = some (ctx.facts.expressionType ctx.arena id σ).1) ∧
    ∀ receiver key name id', ctx.arena.get? id = some (.element receiver key) →
      ctx.arena.get? key = some (.string name) → (a.shape.member? name).isSome →
      ctx.arena.get? id' = some (.property receiver name) → ctx.facts.nodes.get? id' = none →
      (ctx.facts.expressionType ctx.arena id' σ).1 = (ctx.facts.expressionType ctx.arena id σ).1 := by
  obtain ⟨receiver, t, s₁, s₂, ht, he, hs₂, hshape, hcases⟩ := accessAt?_run hs hf hrun
  have hchild {n : Node} (hn : ctx.arena.get? id = some n) (hc : receiver ∈ n.children) :
      typeAt ctx.arena ctx.facts (maxNesting - 1) receiver st.store = (t, s₁) := by
    have hinner : ctx.arena.nestsWithin (maxNesting - 1) receiver :=
      nestsWithin_child hnest hn hc
    rw [← ht]
    exact congrFun (typeAt_of_nestsWithin hinner (Nat.sub_le maxNesting 1)).symm st.store
  rcases hcases with ⟨name, hn, hk⟩ | ⟨key, code, type, hn, hk, hcode⟩
  · have htype := expressionType_property hid hn σ
    rw [htype] at hσ ⊢
    rw [receiverShape_eq hs hf (hchild hn List.mem_cons_self) he hs₂ hshape hσ]
    refine ⟨fun _ => expects_propertyType ha hk, fun hno => ?_, fun _ _ _ _ hn' => ?_⟩
    · exact absurd (by rw [Access.IsTyped, hk]; trivial) hno
    · cases hn.symm.trans hn'
  · have htype := expressionType_element hid hn σ
    have hkey : keyNode? ctx.arena id = ctx.arena.get? key := by rw [keyNode?, hn]
    rw [htype] at hσ ⊢
    have hsame := receiverShape_eq hs hf (hchild hn List.mem_cons_self) he hs₂ hshape hσ
    rw [hsame, hkey]
    refine ⟨expects_elementType ha hk hcode, element?_eq_elementType ha hk hcode, ?_⟩
    intro receiver' key' name id' hn' hname hmember hproperty hid'
    obtain ⟨rfl, rfl⟩ := Node.element.inj (Option.some.inj (hn.symm.trans hn'))
    obtain ⟨p, hp⟩ := Option.isSome_iff_exists.1 hmember
    rw [expressionType_property hid' hproperty σ, hsame, elementType_member hname hp, propertyType,
      hp]

end Accesses

section Labels

/-- `interface Label extends Array<string> { tag: number }` -/
def labelStore : TypeStore :=
  let s := (intern (.array .string) .initial).2
  (intern (.interface "Label" [⟨7⟩] [{ name := "tag", type := .number }]) s).2

theorem labelStore_wellFormed : labelStore.WellFormed := by
  obtain ⟨h, -, -⟩ := intern_grows (d := .array .string) TypeStore.initial_wellFormed (by decide)
  obtain ⟨h', -, -⟩ := intern_grows
    (d := .interface "Label" [⟨7⟩] [{ name := "tag", type := .number }]) h (by decide +kernel)
  exact h'

/-- `e["tag"]`, `e.tag` and `e["length"] + 1`, where `e` is a label. -/
def labelContext : Context where
  arena :=
    let nodes : List Node :=
      [.identifier "e", .string "tag", .element ⟨0⟩ ⟨1⟩, .property ⟨0⟩ "tag", .string "length",
        .element ⟨0⟩ ⟨4⟩, .number "1", .binary ⟨5⟩ .add ⟨6⟩]
    ⟨(nodes.map fun n => (n, ⟨0, 0⟩)).toArray⟩
  facts := TypeFacts.empty.declare "e" ⟨8⟩
  fold := true
  file := "a.ts"

def labelState : State := ⟨labelStore, [], false⟩

/-- A declared member behind a string literal. -/
theorem expressionType_access_of_member :
    ∃ a st', accessAt? expression ⟨2⟩ labelContext labelState = (some a, st') ∧
      a.Expects st'.store true
        (labelContext.facts.expressionType labelContext.arena ⟨2⟩ st'.store).1 ∧
      (labelContext.facts.expressionType labelContext.arena ⟨3⟩ st'.store).1 =
        (labelContext.facts.expressionType labelContext.arena ⟨2⟩ st'.store).1 := by
  have hf : labelContext.facts.Stored labelContext.arena labelState.store :=
    .of_entries (by decide) (by decide +kernel) (by decide +kernel)
  let a : Access := ⟨.name "e", .element (.string "tag") .string,
    .hybrid .string (declared [{ name := "tag", type := .number }])⟩
  have hrun : accessAt? expression ⟨2⟩ labelContext labelState = (some a, labelState) := by cbv
  obtain ⟨htyped, -, hdotted⟩ := expressionType_access labelStore_wellFormed hf hrun rfl rfl
    (by decide +kernel) (.inl (.refl labelStore))
  have hkey : keyNode? labelContext.arena ⟨2⟩ = some (.string "tag") ∧
      (a.shape.member? "tag").isSome := by decide +kernel
  exact ⟨a, labelState, hrun, htyped (.inr hkey),
    hdotted ⟨0⟩ ⟨1⟩ "tag" ⟨3⟩ rfl rfl hkey.2 rfl rfl⟩

/-- The length of an array of strings is no string, but `e["length"]` has the type of the slots, and
what is added to it is concatenated. -/
theorem not_expects_length :
    (∃ a st', accessAt? expression ⟨5⟩ labelContext labelState = (some a, st') ∧
      a.shape.isArrayLike ∧
      ¬ a.Expects st'.store true
        (labelContext.facts.expressionType labelContext.arena ⟨5⟩ st'.store).1) ∧
    (expression ⟨7⟩ labelContext labelState).1 =
      .binary (.unary .len (.name "e")) .concat (.number "1") := by
  let a : Access := ⟨.name "e", .element (.string "length") .string,
    .hybrid .string (declared [{ name := "tag", type := .number }])⟩
  have hrun : accessAt? expression ⟨5⟩ labelContext labelState = (some a, labelState) := by cbv
  have hlands : a.landing? labelState.store true = some .length := by cbv
  refine ⟨⟨a, labelState, hrun, rfl, fun h => ?_⟩, by cbv⟩
  rw [Access.Expects, hlands] at h
  revert h
  decide +kernel

end Labels

end ScriptToLua.Lowering
