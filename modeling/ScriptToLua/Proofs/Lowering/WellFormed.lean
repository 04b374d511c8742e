import Mathlib
import ScriptToLua.Compile
import ScriptToLua.Proofs.Lowering.Landing
import ScriptToLua.Proofs.Lua.Invariant

/-!
Every tree of source nodes is lowered to a well-formed chunk, `lowerFile_isBlock`: expressions and
statements stand where they may, targets can be assigned, and only last statements return. This is
shown for any choice of words that has those of the source and those that the lowering adds. So no
part of a lowered chunk is misplaced when it runs, `lowerFile_wellFormed`.
-/

namespace ScriptToLua

open Lua (Code Field Words)
open Source (Arena Node NodeId)

/-- The variables that a node names. -/
def Source.Node.names : Node → List String
  | .identifier x => [x]
  | .variableDecl x _ => [x]
  | .functionDecl x parameters _ => x :: parameters
  | _ => []

/-- The numeral of a key, if the key is one. -/
def Source.Key.numeral? : Source.Key → Option String
  | .number text => some text
  | _ => none

/-- The numerals that a node writes. -/
def Source.Node.numerals : Node → List String
  | .number text => [text]
  | .object properties => properties.filterMap fun p => p.1.numeral?
  | _ => []

namespace Lowering

/-- The names that the lowering adds to those of the source. -/
def addedNames : List String := [objectTemp, indexTemp, valueTemp, discardName, "tostring"]

/-- The words have those that the lowering adds by itself. -/
structure Serves (w : Words) : Prop where
  added : ∀ x ∈ addedNames, w.name x
  method : ∀ x, Lua.isName x → w.name x
  one : w.numeral (toString (1 : Int))
  index : ∀ s, isIndexText s → w.numeral s
  successor : ∀ text n, w.numeral text → Lua.integerOf? text = some n → w.numeral (toString (n + 1))

/-- The words have those of the source as well, as they are written in Lua. -/
structure Covers (w : Words) (a : Arena) : Prop extends Serves w where
  names : ∀ id n, a.get? id = some n → ∀ x ∈ n.names, w.name (Lua.rename x)
  numerals : ∀ id n, a.get? id = some n → ∀ text ∈ n.numerals, w.numeral (luaNumeral text)

theorem Covers.any (a : Arena) : Covers .any a where
  added _ _ := trivial
  method _ _ := trivial
  one := trivial
  index _ _ := trivial
  successor _ _ _ _ := trivial
  names _ _ _ _ _ := trivial
  numerals _ _ _ _ _ := trivial

variable {w : Words}

section Lists

variable {before cs rest : List Code}

/-- Statements none of which returns. -/
def Straight (w : Words) (cs : List Code) : Prop := ∀ c ∈ cs, c.IsStatement w ∧ c.isReturn = false

theorem isBlock_cons {c : Code} (hc : c.IsStatement w) (hn : c.isReturn = false)
    (hr : Code.IsBlock w rest) : Code.IsBlock w (c :: rest) :=
  ⟨hc, fun h => absurd h (Bool.eq_false_iff.1 hn), hr⟩

theorem isBlock_append (h : Straight w before) (hr : Code.IsBlock w rest) :
    Code.IsBlock w (before ++ rest) := by
  induction before with
  | nil => exact hr
  | cons c before ih =>
    obtain ⟨hc, hn⟩ := h c List.mem_cons_self
    exact isBlock_cons hc hn (ih fun d hd => h d (List.mem_cons_of_mem c hd))

theorem isBlock_single {c : Code} (h : c.IsStatement w) : Code.IsBlock w [c] :=
  ⟨h, fun _ => rfl, trivial⟩

theorem isStatement_of_isBlock (h : Code.IsBlock w cs) : ∀ c ∈ cs, c.IsStatement w := by
  induction cs with
  | nil => exact fun c hc => absurd hc List.not_mem_nil
  | cons d cs ih =>
    intro c hc
    rcases List.mem_cons.1 hc with rfl | hc
    · exact h.1
    · exact ih h.2.2 c hc

theorem allExprs_iff : Code.AllExprs w cs ↔ ∀ c ∈ cs, c.IsExpr w := by
  induction cs with
  | nil => simp [Code.AllExprs]
  | cons c cs ih => simp [Code.AllExprs, ih]

/-- Whatever a field holds is an expression. -/
def FieldFits (w : Words) (f : Field) : Prop := Field.AllExprs w [f]

theorem allFields_of_forall {fs : List Field} (h : ∀ f ∈ fs, FieldFits w f) :
    Field.AllExprs w fs := by
  induction fs with
  | nil => trivial
  | cons f fs ih =>
    have hf := h f List.mem_cons_self
    have hfs := ih fun g hg => h g (List.mem_cons_of_mem f hg)
    cases f with
    | item value => exact ⟨hf.1, hfs⟩
    | named x value => exact ⟨hf.1, hfs⟩
    | keyed key value => exact ⟨hf.1, hf.2.1, hfs⟩

/-- Returns before the last statement get blocks of their own. -/
theorem sealReturns_isBlock (h : ∀ c ∈ cs, c.IsStatement w) : Code.IsBlock w (sealReturns cs) := by
  induction cs with
  | nil => trivial
  | cons c cs ih =>
    have hc := h c List.mem_cons_self
    cases cs with
    | nil => exact isBlock_single hc
    | cons d cs =>
      rw [sealReturns]
      · have hrest := ih fun e he => h e (List.mem_cons_of_mem c he)
        split
        · exact isBlock_cons (isBlock_single hc) rfl hrest
        · next hr => exact isBlock_cons hc (Bool.eq_false_iff.2 hr) hrest
      · exact fun hnil => List.cons_ne_nil d cs hnil

end Lists

/-- The code stands where it is used: as a value or as a statement that goes on. -/
def FitsUse (w : Words) (c : Code) : Use → Prop
  | .value => c.IsExpr w
  | .statement => c.IsStatement w ∧ c.isReturn = false

theorem isExpr_immediate {body : List Code} (h : Code.IsBlock w body) :
    (Code.immediate body).IsExpr w := ⟨⟨fun _ hx => absurd hx List.not_mem_nil, h⟩, trivial⟩

theorem isStatement_bindLocal {x : String} {e : Code} (hx : w.name x) (he : e.IsExpr w) :
    (Code.bindLocal x e).IsStatement w :=
  ⟨List.cons_ne_nil _ _, fun y hy => by rwa [List.mem_singleton.1 hy], he, trivial⟩

theorem isStatement_store {t e : Code} (ht : t.isTarget) (ht' : t.IsExpr w) (he : e.IsExpr w) :
    (Code.store t e).IsStatement w := by
  refine ⟨List.cons_ne_nil _ _, ?_, List.cons_ne_nil _ _, ⟨ht', trivial⟩, he, trivial⟩
  intro c hc
  rwa [List.mem_singleton.1 hc]

theorem isStatement_yields {e : Code} (he : e.IsExpr w) : (Code.yields e).IsStatement w :=
  ⟨he, trivial⟩

namespace Place

variable {p : Place} {value : Code}

/-- The parts of the place are expressions. -/
def Fits (w : Words) : Place → Prop
  | .variable x => w.name x
  | .field t _ => t.IsExpr w
  | .entry t k => t.IsExpr w ∧ k.IsExpr w

theorem Fits.isExpr (h : p.Fits w) : p.code.IsExpr w := by
  cases p with
  | «variable» x => exact h
  | field t x => exact h
  | entry t k => exact h

theorem isTarget (p : Place) : p.code.isTarget := by
  cases p <;> rfl

theorem Fits.store (h : p.Fits w) (hv : value.IsExpr w) : (Code.store p.code value).IsStatement w :=
  isStatement_store p.isTarget h.isExpr hv

theorem keep_fits {temp : String} (ht : w.name temp) (pin : Bool) {e : Code} (he : e.IsExpr w) :
    Straight w (keep temp pin e).1 ∧ (keep temp pin e).2.IsExpr w := by
  unfold keep
  split
  · refine ⟨fun c hc => ?_, ht⟩
    rw [List.mem_singleton.1 hc]
    exact ⟨isStatement_bindLocal ht he, rfl⟩
  · exact ⟨fun c hc => absurd hc List.not_mem_nil, he⟩

theorem Fits.settle (hw : Serves w) (h : p.Fits w) (pin : Bool) :
    Straight w (p.settle pin).1 ∧ (p.settle pin).2.Fits w := by
  have hobject : w.name objectTemp := hw.added _ (by decide)
  have hindex : w.name indexTemp := hw.added _ (by decide)
  cases p with
  | «variable» x => exact ⟨fun c hc => absurd hc List.not_mem_nil, h⟩
  | field t x => exact keep_fits hobject pin h
  | entry t k =>
    obtain ⟨ht, ht'⟩ := keep_fits hobject pin h.1
    obtain ⟨hk, hk'⟩ := keep_fits hindex pin h.2
    exact ⟨fun c hc => (List.mem_append.1 hc).elim (ht c) (hk c), ht', hk'⟩

theorem Fits.newValue (h : p.Fits w) (op : Option Lua.BinaryOp) (hv : value.IsExpr w) :
    (p.newValue op value).IsExpr w := by
  cases op with
  | none => exact hv
  | some op => exact ⟨h.isExpr, hv⟩

/-- Bind the temporary, write it, return it. -/
theorem Fits.writeBack (hw : Serves w) (h : p.Fits w) {e e' : Code} (he : e.IsExpr w)
    (he' : e'.IsExpr w) :
    Code.IsBlock w [.bindLocal valueTemp e, .store p.code e', .yields (.name valueTemp)] := by
  have hvalue : w.name valueTemp := hw.added _ (by decide)
  have hname : (Code.name valueTemp).IsExpr w := hvalue
  have hreturn := isBlock_single (isStatement_yields hname)
  exact isBlock_cons (isStatement_bindLocal hvalue he) rfl (isBlock_cons (h.store he') rfl hreturn)

theorem Fits.assign (hw : Serves w) (h : p.Fits w) (op : Option Lua.BinaryOp)
    (hv : value.IsExpr w) (use : Use) : FitsUse w (p.assign op value use) use := by
  cases use with
  | statement =>
    have hset : Straight w (if op.isSome then p.settle false else ([], p)).1 ∧
        (if op.isSome then p.settle false else ([], p)).2.Fits w := by
      split
      · exact h.settle hw false
      · exact ⟨fun c hc => absurd hc List.not_mem_nil, h⟩
    simp only [Place.assign]
    generalize (if op.isSome then p.settle false else ([], p)) = settled at hset
    have hstore := hset.2.store (hset.2.newValue op hv)
    split
    · exact ⟨hstore, rfl⟩
    · exact ⟨isBlock_append hset.1 (isBlock_single hstore), rfl⟩
  | value =>
    have hset := h.settle hw (!value.isPure)
    have htemp : w.name valueTemp := hw.added _ (by decide)
    have hname : (Code.name valueTemp).IsExpr w := htemp
    exact isExpr_immediate
      (isBlock_append hset.1 (hset.2.writeBack hw (hset.2.newValue op hv) hname))

theorem Fits.update (hw : Serves w) (h : p.Fits w) (op : Lua.BinaryOp) (yield : Yield) (use : Use) :
    FitsUse w (p.update op yield use) use := by
  have hone : (Code.integer 1).IsExpr w := hw.one
  have hnew (use : Use) : FitsUse w (p.assign (some op) (.integer 1) use) use :=
    h.assign hw (some op) hone use
  have hold : FitsUse w (p.update op .old .value) .value := by
    have hset := h.settle hw false
    have htemp : w.name valueTemp := hw.added _ (by decide)
    exact isExpr_immediate (isBlock_append hset.1 (hset.2.writeBack hw hset.2.isExpr ⟨htemp, hone⟩))
  cases yield with
  | new => exact hnew use
  | old =>
    cases use with
    | statement => exact hnew .statement
    | value => exact hold

theorem Fits.deletion (h : p.Fits w) (use : Use) : FitsUse w (deletion p.code use) use := by
  have hstore : (Code.store p.code .nil).IsStatement w := h.store trivial
  cases use with
  | statement => exact ⟨hstore, rfl⟩
  | value =>
    have htrue : (Code.boolean true).IsExpr w := trivial
    exact isExpr_immediate
      (isBlock_cons hstore rfl (isBlock_single (isStatement_yields htrue)))

end Place

theorem oneBased_isExpr (hw : Serves w) (fold : Bool) {k : Code} (hk : k.IsExpr w) :
    (oneBased fold k).IsExpr w := by
  have hadd : (Code.binary k .add (.integer 1)).IsExpr w := ⟨hk, hw.one⟩
  unfold oneBased
  split
  · next n hn =>
    obtain ⟨hn, -⟩ := Option.filter_eq_some_iff.1 hn
    obtain ⟨i, hi, rfl⟩ := Option.map_eq_some_iff.1 hn
    cases k with
    | number text => exact hw.successor text i hk hi
    | _ => cases hi
  · exact hadd

namespace Access

variable {a : Access} {args : List Code}

/-- The operands of the access are expressions. -/
def Fits (w : Words) (a : Access) : Prop :=
  a.receiver.IsExpr w ∧ ∀ k t, a.key = .element k t → k.IsExpr w

theorem Fits.plain (h : a.Fits w) : a.plain.Fits w := by
  unfold Access.plain
  split
  · exact h.1
  · next index t hk => exact ⟨h.1, h.2 index t hk⟩

theorem Fits.lands (hw : Serves w) (h : a.Fits w) {fold : Bool} {p : Place}
    (hl : a.Lands fold (.place p)) : p.Fits w := by
  cases hl with
  | field _ => exact h.1
  | indexText hi _ => exact ⟨h.1, oneBased_isExpr hw fold (hw.index _ hi)⟩
  | entry hk => exact ⟨h.1, h.2 _ _ hk⟩
  | slot hk => exact ⟨h.1, oneBased_isExpr hw fold (h.2 _ _ hk)⟩

theorem Fits.place (hw : Serves w) (h : a.Fits w) (s : TypeStore) (fold : Bool) :
    (a.place s fold).Fits w := by
  rcases a.place_cases s fold with hplain | hlands
  · rw [hplain]
    exact h.plain
  · exact h.lands hw hlands

theorem Fits.read (hw : Serves w) (h : a.Fits w) (s : TypeStore) (fold : Bool) :
    (a.read s fold).IsExpr w := by
  rcases a.read_cases s fold with ⟨-, hplace⟩ | ⟨-, -, hlength⟩
  · rw [hplace]
    exact (h.place hw s fold).isExpr
  · rw [hlength]
    exact h.1

theorem callMember_isExpr (hw : Serves w) {receiver : Code} (hr : receiver.IsExpr w) (name : String)
    (member : Option Property) (ha : Code.AllExprs w args) :
    (callMember receiver name member args).IsExpr w := by
  rcases callMember_cases receiver name member args with h | ⟨hname, h⟩ | ⟨-, h⟩ | h
  · rw [h]
    exact ⟨hr, ha⟩
  · rw [h]
    exact ⟨hr, hw.method name hname, ha⟩
  · rw [h]
    exact ⟨hr, hr, ha⟩
  · have hobject : w.name objectTemp := hw.added _ (by decide)
    have hcall :
        (Code.call (.member (.name objectTemp) name) (.name objectTemp :: args)).IsExpr w :=
      ⟨hobject, hobject, ha⟩
    rw [h]
    exact isExpr_immediate (isBlock_cons (isStatement_bindLocal hobject hr) rfl
      (isBlock_single (isStatement_yields hcall)))

end Access

/-- Whatever the state, the computation leads to a result with `P`. -/
structure Gives {α : Type} (ctx : Context) (P : α → Prop) (act : LowerM α) : Prop where
  result : ∀ st, P (act ctx st).1

namespace Gives

variable {ctx : Context} {α β : Type} {P : α → Prop} {Q : β → Prop}

theorem pure {a : α} (h : P a) : Gives ctx P (Pure.pure a) := ⟨fun _ => h⟩

theorem bind {act : LowerM α} {next : α → LowerM β} (h : Gives ctx P act)
    (hn : ∀ a, P a → Gives ctx Q (next a)) : Gives ctx Q (act >>= next) :=
  ⟨fun st => (hn _ (h.result st)).result _⟩

theorem map {act : LowerM α} {f : α → β} (h : Gives ctx P act) (hf : ∀ a, P a → Q (f a)) :
    Gives ctx Q (f <$> act) := ⟨fun st => hf _ (h.result st)⟩

theorem any {act : LowerM α} : Gives ctx (fun _ => True) act := ⟨fun _ => trivial⟩

theorem read : Gives ctx (· = ctx) read := ⟨fun _ => rfl⟩

theorem node? (id : NodeId) : Gives ctx (· = ctx.arena.get? id) (node? id) :=
  ⟨fun _ => rfl⟩

theorem askTypes {ask : TypeStore → α} (h : ∀ s, P (ask s)) : Gives ctx P (askTypes ask) :=
  ⟨fun st => h st.store⟩

theorem withTypes {act : TypeM α} (h : ∀ s, P (act s).1) : Gives ctx P (withTypes act) :=
  ⟨fun st => h st.store⟩

theorem mapM {ι : Type} {f : ι → LowerM α} {is : List ι} (h : ∀ i ∈ is, Gives ctx P (f i)) :
    Gives ctx (fun as => ∀ a ∈ as, P a) (is.mapM f) := by
  induction is with
  | nil => exact .pure fun a ha => absurd ha List.not_mem_nil
  | cons i is ih =>
    rw [List.mapM_cons]
    apply (h i List.mem_cons_self).bind
    intro a ha
    apply (ih fun j hj => h j (List.mem_cons_of_mem i hj)).bind
    intro as has
    apply Gives.pure
    intro b hb
    rcases List.mem_cons.1 hb with rfl | hb
    · exact ha
    · exact has b hb

end Gives

section Expressions

variable {ctx : Context} {lower : Lowerer}

/-- Everything is lowered to expressions. -/
def LowersExprs (w : Words) (ctx : Context) (lower : Lowerer) : Prop :=
  ∀ id, Gives ctx (Code.IsExpr w) (lower id)

variable (hw : Covers w ctx.arena) (hl : LowersExprs w ctx lower)

include hl

theorem LowersExprs.mapM (ids : List NodeId) :
    Gives ctx (Code.AllExprs w) (ids.mapM lower) :=
  ⟨fun st => allExprs_iff.2 ((Gives.mapM fun id _ => hl id).result st)⟩

theorem namedAccess_fits (receiver : NodeId) (name : String) :
    Gives ctx (Access.Fits w) (namedAccess lower receiver name) := by
  apply Gives.any.bind
  intro type _
  apply (hl receiver).bind
  intro code hcode
  apply Gives.withTypes
  intro s
  exact ⟨hcode, fun k t hk => by cases hk⟩

theorem elementAccess_fits (receiver key : NodeId) :
    Gives ctx (Access.Fits w) (elementAccess lower receiver key) := by
  apply Gives.any.bind
  intro type _
  apply (hl receiver).bind
  intro code hcode
  apply Gives.any.bind
  intro keyType _
  apply (hl key).bind
  intro keyCode hkey
  apply Gives.withTypes
  intro s
  refine ⟨hcode, fun k t hk => ?_⟩
  cases hk
  exact hkey

theorem accessAt?_fits (id : NodeId) :
    Gives ctx (fun o => ∀ a ∈ o, Access.Fits w a) (accessAt? lower id) := by
  have hsome {act : LowerM Access} (h : Gives ctx (Access.Fits w) act) :
      Gives ctx (fun o => ∀ a ∈ o, Access.Fits w a) (some <$> act) :=
    h.map fun a ha b hb => Option.some.inj hb ▸ ha
  apply (Gives.node? id).bind
  intro n _
  split
  · exact hsome (namedAccess_fits hl _ _)
  · exact hsome (elementAccess_fits hl _ _)
  · exact .pure fun a ha => by cases ha

include hw

omit hl in
theorem readAccess_isExpr {a : Access} (ha : a.Fits w) :
    Gives ctx (Code.IsExpr w) (readAccess a) := by
  apply Gives.read.bind
  rintro ctx rfl
  exact Gives.askTypes fun s => ha.read hw.toServes s ctx.fold

/-- The numerals among the keys of an object literal can be written. -/
theorem hybridProperty_fits {p : Source.Key × NodeId}
    (hp : ∀ text ∈ p.1.numeral?, w.numeral (luaNumeral text)) (fold : Bool) :
    Gives ctx (fun h => FieldFits w (h.field fold)) (hybridProperty lower p) := by
  have hslot {k v : Code} (hk : k.IsExpr w) (hv : v.IsExpr w) :
      FieldFits w ((HybridProperty.slot k v).field fold) :=
    ⟨oneBased_isExpr hw.toServes fold hk, hv, trivial⟩
  obtain ⟨key, value⟩ := p
  cases key with
  | number text => exact (hl value).bind fun v hv => .pure (hslot (hp text rfl) hv)
  | string s =>
    apply (hl value).bind
    intro v hv
    apply Gives.pure
    split
    · next hi => exact hslot (hw.index s hi) hv
    · exact ⟨hv, trivial⟩
  | name x => exact (hl value).bind fun v hv => .pure ⟨hv, trivial⟩
  | computed key =>
    apply Gives.any.bind
    intro type _
    apply (hl key).bind
    intro k hk
    apply (hl value).bind
    intro v hv
    apply Gives.any.bind
    intro numeric _
    apply Gives.pure
    split
    · exact hslot hk hv
    · exact ⟨hk, hv, trivial⟩

omit hw in
theorem recordField_fits {p : Source.Key × NodeId}
    (hp : ∀ text ∈ p.1.numeral?, w.numeral (luaNumeral text)) :
    Gives ctx (FieldFits w) (recordField lower p) := by
  obtain ⟨key, value⟩ := p
  cases key with
  | number text => exact (hl value).bind fun v hv => .pure ⟨hp text rfl, hv, trivial⟩
  | string s => exact (hl value).bind fun v hv => .pure ⟨hv, trivial⟩
  | name x => exact (hl value).bind fun v hv => .pure ⟨hv, trivial⟩
  | computed key =>
    apply (hl key).bind
    intro k hk
    exact (hl value).bind fun v hv => .pure ⟨hk, hv, trivial⟩

theorem objectLiteral_isExpr {id : NodeId} {properties : List (Source.Key × NodeId)}
    (hn : ctx.arena.get? id = some (.object properties)) (context : TypeId) :
    Gives ctx (Code.IsExpr w) (objectLiteral lower properties context) := by
  have hkeys (p : Source.Key × NodeId) (hp : p ∈ properties) :
      ∀ text ∈ p.1.numeral?, w.numeral (luaNumeral text) :=
    fun text ht => hw.numerals id _ hn text (List.mem_filterMap.2 ⟨p, hp, ht⟩)
  apply Gives.any.bind
  intro shape _
  split
  · apply Gives.read.bind
    rintro ctx rfl
    apply (Gives.mapM fun p hp => hybridProperty_fits hw hl (hkeys p hp) ctx.fold).bind
    intro hs hhs
    apply Gives.pure
    apply allFields_of_forall
    intro f hf
    obtain ⟨h, hh, rfl⟩ := List.mem_map.1 hf
    exact hhs h hh
  · apply (Gives.mapM fun p hp => recordField_fits hl (hkeys p hp)).bind
    intro fs hfs
    exact .pure (allFields_of_forall hfs)

theorem lowerInContext_isExpr (id : NodeId) (context : TypeId) :
    Gives ctx (Code.IsExpr w) (lowerInContext lower id context) := by
  apply Gives.read.bind
  rintro ctx rfl
  dsimp only
  split
  · next properties hn =>
    split
    · exact hl _
    · exact objectLiteral_isExpr hw hl hn context
  · exact hl _

omit hl in
theorem textOf_isExpr {e : Code} (he : e.IsExpr w) : (textOf e).IsExpr w :=
  ⟨hw.added _ (by decide), he, trivial⟩

omit hl hw in
theorem joinTexts_isExpr {parts : List Code} (h : ∀ c ∈ parts, c.IsExpr w) :
    (joinTexts parts).IsExpr w := by
  have hconcat (cs : List Code) (hcs : ∀ c ∈ cs, c.IsExpr w) : (concatenated cs).IsExpr w := by
    induction cs with
    | nil => trivial
    | cons c cs ih =>
      have hc := hcs c List.mem_cons_self
      cases cs with
      | nil => exact hc
      | cons d cs => exact ⟨hc, ih fun e he => hcs e (List.mem_cons_of_mem c he)⟩
  exact hconcat _ fun c hc => h c (List.mem_filter.1 hc).1

theorem template_isExpr (head : String) (spans : List (NodeId × String)) :
    Gives ctx (Code.IsExpr w) (template lower head spans) := by
  have hpart (p : NodeId × String) :
      Gives ctx (fun cs => ∀ c ∈ cs, Code.IsExpr w c)
        (do return [textOf (← lower p.1), .string p.2]) := by
    apply (hl p.1).bind
    intro e he
    apply Gives.pure
    intro c hc
    rcases List.mem_cons.1 hc with rfl | hc
    · exact textOf_isExpr hw he
    · rw [List.mem_singleton.1 hc]
      trivial
  apply (Gives.mapM fun p _ => hpart p).bind
  intro parts hparts
  apply Gives.pure
  apply joinTexts_isExpr
  intro c hc
  rcases List.mem_cons.1 hc with rfl | hc
  · trivial
  · obtain ⟨part, hpart, hc⟩ := List.mem_flatten.1 hc
    exact hparts part hpart c hc

theorem concatOperand_isExpr (id : NodeId) (type : TypeId) :
    Gives ctx (Code.IsExpr w) (concatOperand lower id type) := by
  apply (hl id).bind
  intro code hcode
  apply Gives.any.bind
  intro joins _
  apply Gives.pure
  split
  · exact hcode
  · exact textOf_isExpr hw hcode

theorem binary_isExpr (left : NodeId) (op : Source.BinaryOp) (right : NodeId) :
    Gives ctx (Code.IsExpr w) (binary lower left op right) := by
  have hplain (op : Lua.BinaryOp) : Gives ctx (Code.IsExpr w) (do
      let l ← lower left
      let r ← lower right
      return .binary l op r) :=
    (hl left).bind fun l hl' => (hl right).bind fun r hr => .pure ⟨hl', hr⟩
  unfold binary
  split
  · apply Gives.any.bind
    intro leftType _
    apply Gives.any.bind
    intro rightType _
    apply Gives.any.bind
    intro joins _
    split
    · exact (concatOperand_isExpr hw hl left leftType).bind fun l hl' =>
        (concatOperand_isExpr hw hl right rightType).bind fun r hr => .pure ⟨hl', hr⟩
    · exact hplain .add
  · exact hplain (luaBinary op)

theorem call_isExpr (callee : NodeId) (arguments : List NodeId) :
    Gives ctx (Code.IsExpr w) (call lower callee arguments) := by
  have hplain : Gives ctx (Code.IsExpr w) (call.plainCall lower callee arguments) :=
    (hl callee).bind fun f hf => (hl.mapM arguments).bind fun args ha => .pure ⟨hf, ha⟩
  apply Gives.read.bind
  rintro ctx rfl
  dsimp only
  split
  · next receiver name _ =>
    apply (namedAccess_fits hl receiver name).bind
    intro a ha
    apply (hl.mapM arguments).bind
    intro args hargs
    have hcall := Access.callMember_isExpr hw.toServes ha.1 name a.member? hargs
    split
    · exact Gives.any.bind fun _ _ => .pure hcall
    · exact .pure hcall
  · next receiver key _ =>
    split
    · next name _ =>
      apply (elementAccess_fits hl receiver key).bind
      intro a ha
      split
      · exact (hl.mapM arguments).bind fun args hargs =>
          .pure (Access.callMember_isExpr hw.toServes ha.1 name _ hargs)
      · exact (readAccess_isExpr hw ha).bind fun f hf =>
          (hl.mapM arguments).bind fun args hargs => .pure ⟨hf, hargs⟩
    · exact hplain
  · exact hplain

theorem placeAt?_fits (id target : NodeId) :
    Gives ctx (fun o => ∀ p ∈ o, Place.Fits w p) (placeAt? lower id target) := by
  have hnone : Gives ctx (fun o => ∀ p ∈ o, Place.Fits w p) (Pure.pure none) :=
    .pure fun p hp => by cases hp
  apply Gives.read.bind
  rintro ctx rfl
  dsimp only
  split
  · next x hx =>
    apply Gives.pure
    intro p hp
    cases hp
    exact hw.names _ _ hx x List.mem_cons_self
  · apply (accessAt?_fits hl _).bind
    intro o ho
    split
    · exact Gives.any.bind fun _ _ => hnone
    · next a =>
      apply Gives.any.bind
      intro isLength _
      split
      · exact Gives.any.bind fun _ _ => hnone
      · apply Gives.askTypes
        intro s p hp
        cases hp
        exact (ho a rfl).place hw.toServes s ctx.fold

theorem assignment?_fits (id target : NodeId) (op : Source.AssignOp) (value : NodeId) (use : Use) :
    Gives ctx (fun o => ∀ c ∈ o, FitsUse w c use) (assignment? lower id target op value use) := by
  apply Gives.any.bind
  intro op _
  apply (placeAt?_fits hw hl id target).bind
  intro place hplace
  apply (hl value).bind
  intro code hcode
  split
  · next p =>
    apply Gives.pure
    intro c hc
    cases hc
    exact (hplace p rfl).assign hw.toServes op hcode use
  · apply Gives.pure
    intro c hc
    cases use with
    | value =>
      cases hc
      exact hcode
    | statement =>
      simp only [valueOnly] at hc
      split at hc
      · next hcall =>
        cases hc
        exact ⟨⟨hcall, hcode⟩, rfl⟩
      · cases hc

theorem update?_fits (op : Source.UpdateOp) (before : Bool) (operand : NodeId) (use : Use) :
    Gives ctx (fun o => ∀ c ∈ o, FitsUse w c use) (update? lower op before operand use) := by
  apply (placeAt?_fits hw hl operand operand).bind
  intro place hplace
  apply Gives.pure
  intro c hc
  obtain ⟨p, hp, rfl⟩ := Option.map_eq_some_iff.1 hc
  exact (hplace p hp).update hw.toServes _ _ use

theorem deletion?_fits (id operand : NodeId) (use : Use) :
    Gives ctx (fun o => ∀ c ∈ o, FitsUse w c use) (deletion? lower id operand use) := by
  apply Gives.read.bind
  rintro ctx rfl
  apply (accessAt?_fits hl _).bind
  intro o ho
  split
  · next a =>
    apply Gives.askTypes
    intro s c hc
    cases hc
    exact ((ho a rfl).place hw.toServes s ctx.fold).deletion use
  · apply Gives.any.bind
    intro _ _
    apply Gives.pure
    intro c hc
    cases use with
    | value =>
      cases hc
      trivial
    | statement => cases hc

omit hl hw in
/-- Where a value is needed and there is none, a constant stands for it. -/
theorem isExpr_getD {o : Option Code} {d : Code} (h : ∀ c ∈ o, FitsUse w c .value)
    (hd : d.IsExpr w) : (o.getD d).IsExpr w := by
  cases o with
  | none => exact hd
  | some c => exact h c rfl

theorem expressionNode_isExpr {id : NodeId} {n : Node} (hn : ctx.arena.get? id = some n) :
    Gives ctx (Code.IsExpr w) (expressionNode lower id n) := by
  cases n with
  | number text => exact .pure (hw.numerals id _ hn text List.mem_cons_self)
  | string s => exact .pure trivial
  | boolean b => exact .pure trivial
  | null => exact .pure trivial
  | undefined => exact .pure trivial
  | identifier x => exact .pure (hw.names id _ hn x List.mem_cons_self)
  | array elements =>
    apply (Gives.mapM fun id _ => hl id).bind
    intro es hes
    apply Gives.pure
    apply allFields_of_forall
    intro f hf
    obtain ⟨e, he, rfl⟩ := List.mem_map.1 hf
    exact ⟨hes e he, trivial⟩
  | object properties =>
    exact Gives.any.bind fun context _ => objectLiteral_isExpr hw hl hn context
  | property receiver name =>
    exact (namedAccess_fits hl receiver name).bind fun a ha => readAccess_isExpr hw ha
  | element receiver key =>
    exact (elementAccess_fits hl receiver key).bind fun a ha => readAccess_isExpr hw ha
  | call callee arguments => exact call_isExpr hw hl callee arguments
  | binary left op right => exact binary_isExpr hw hl left op right
  | assign target op value =>
    exact (assignment?_fits hw hl id target op value .value).bind fun o ho =>
      .pure (isExpr_getD ho trivial)
  | unary op operand => exact (hl operand).bind fun e he => .pure he
  | update op before operand =>
    exact (update?_fits hw hl op before operand .value).bind fun o ho =>
      .pure (isExpr_getD ho trivial)
  | delete operand =>
    exact (deletion?_fits hw hl id operand .value).bind fun o ho =>
      .pure (isExpr_getD ho trivial)
  | template head spans => exact template_isExpr hw hl head spans
  | asserted expression type => exact lowerInContext_isExpr hw hl expression type
  | parenthesized inner => exact hl inner
  | _ => exact Gives.any.bind fun _ _ => .pure trivial

end Expressions

section Statements

variable {ctx : Context} (hw : Covers w ctx.arena)

include hw

theorem expressionAt_isExpr (room : Nat) : LowersExprs w ctx (expressionAt room) := by
  induction room with
  | zero => exact fun id => Gives.any.bind fun _ _ => .pure trivial
  | succ room ih =>
    intro id
    apply (Gives.node? id).bind
    intro n hn
    split
    · exact expressionNode_isExpr hw ih hn.symm
    · exact .pure trivial

theorem expression_isExpr : LowersExprs w ctx expression := expressionAt_isExpr hw maxNesting

theorem expressionStatement_isBlock (id : NodeId) :
    Gives ctx (Code.IsBlock w) (expressionStatement id) := by
  have hl : LowersExprs w ctx expression := expression_isExpr hw
  have hlist {act : LowerM (Option Code)}
      (h : Gives ctx (fun o => ∀ c ∈ o, FitsUse w c .statement) act) :
      Gives ctx (Code.IsBlock w) (do return (← act).toList) := by
    apply h.bind
    intro o ho
    apply Gives.pure
    cases o with
    | none => trivial
    | some c => exact isBlock_single (ho c rfl).1
  apply Gives.read.bind
  rintro ctx rfl
  dsimp only
  split
  · exact .pure trivial
  · exact hlist (assignment?_fits hw hl _ _ _ _ _)
  · exact hlist (update?_fits hw hl _ _ _ _)
  · exact hlist (deletion?_fits hw hl _ _ _)
  · apply (hl _).bind
    intro e he
    apply Gives.pure
    apply isBlock_single
    unfold asStatement
    split
    · next hcall => exact ⟨hcall, he⟩
    · exact isStatement_bindLocal (hw.added _ (by decide)) he

omit hw in
theorem statements_isBlock {lower : NodeId → LowerM (List Code)}
    (h : ∀ id, Gives ctx (Code.IsBlock w) (lower id)) (ids : List NodeId) :
    Gives ctx (Code.IsBlock w) (statements lower ids) := by
  apply (Gives.mapM fun id _ => h id).bind
  intro blocks hblocks
  apply Gives.pure
  apply sealReturns_isBlock
  intro c hc
  obtain ⟨block, hb, hc⟩ := List.mem_flatten.1 hc
  exact isStatement_of_isBlock (hblocks block hb) c hc

theorem statementNode_isBlock {lower : NodeId → LowerM (List Code)}
    (h : ∀ id, Gives ctx (Code.IsBlock w) (lower id)) {id : NodeId} {n : Node}
    (hn : ctx.arena.get? id = some n) : Gives ctx (Code.IsBlock w) (statementNode lower id n) := by
  have hname (x : String) (hx : x ∈ n.names) : w.name (Lua.rename x) := hw.names id n hn x hx
  cases n with
  | variableDecl x initializer =>
    have hx := hname x List.mem_cons_self
    cases initializer with
    | none =>
      apply Gives.pure
      apply isBlock_single
      exact ⟨List.cons_ne_nil _ _, fun y hy => by rwa [List.mem_singleton.1 hy], trivial⟩
    | some initializer =>
      have hvalue : Gives ctx (Code.IsExpr w) (initialValue x initializer) := by
        apply Gives.read.bind
        rintro ctx rfl
        exact lowerInContext_isExpr hw (expression_isExpr hw) initializer _
      apply hvalue.bind
      intro e he
      exact .pure (isBlock_single (isStatement_bindLocal hx he))
  | ambientDecl x => exact .pure trivial
  | expressionStatement e => exact expressionStatement_isBlock hw e
  | returns value =>
    cases value with
    | none => exact .pure (isBlock_single trivial)
    | some value =>
      exact (expression_isExpr hw value).bind fun e he =>
        .pure (isBlock_single (isStatement_yields he))
  | block ids =>
    exact (statements_isBlock h ids).bind fun body hbody => .pure (isBlock_single hbody)
  | functionDecl x parameters body =>
    apply (statements_isBlock h body).bind
    intro body hbody
    apply Gives.pure
    apply isBlock_single
    refine ⟨hname x List.mem_cons_self, fun y hy => ?_, hbody⟩
    obtain ⟨z, hz, rfl⟩ := List.mem_map.1 hy
    exact hname z (List.mem_cons_of_mem x hz)
  | file name ids => exact statements_isBlock h ids
  | _ => exact Gives.any.bind fun _ _ => .pure trivial

theorem statementAt_isBlock (room : Nat) (id : NodeId) :
    Gives ctx (Code.IsBlock w) (statementAt room id) := by
  induction room generalizing id with
  | zero => exact .pure trivial
  | succ room ih =>
    apply (Gives.node? id).bind
    intro n hn
    split
    · exact statementNode_isBlock hw ih hn.symm
    · exact .pure trivial

end Statements

end Lowering

/-- Whatever the nodes, the types and the settings, the chunk is a block of statements. -/
theorem lowerFile_isBlock {w : Words} {arena : Arena} (hw : Lowering.Covers w arena) (root : NodeId)
    (store : TypeStore) (facts : TypeFacts) (fold : Bool) :
    Code.IsBlock w (lowerFile arena root store facts fold).1 :=
  let ctx : Lowering.Context := ⟨arena, facts, fold, fileName arena root⟩
  have h : Lowering.Gives ctx (Code.IsBlock w) (Lowering.statementAt arena.size root) :=
    Lowering.statementAt_isBlock hw arena.size root
  h.result _

/-- The chunk is well formed, and where all functions are, running it never meets an expression in
the place of a statement, a statement in the place of an expression or a target that cannot be
assigned. -/
theorem lowerFile_wellFormed (arena : Arena) (root : NodeId) (store : TypeStore) (facts : TypeFacts)
    (fold : Bool) {m : Lua.Machine} (hm : m.Fits .blocks) :
    Code.IsBlock .any (lowerFile arena root store facts fold).1 ∧
      ∀ e, (Lua.runChunk (lowerFile arena root store facts fold).1 m).1 = .error e →
        e ≠ .expressionAsStatement ∧ e ≠ .statementAsExpression ∧ e ≠ .invalidTarget := by
  have hblock := lowerFile_isBlock (.any arena) root store facts fold
  refine ⟨hblock, fun e he => ?_⟩
  have hend := ((Lua.runChunk_keeps (g := .blocks) fun _ => hblock).run m hm).2
  rw [he] at hend
  have hplace : e.isMisplaced = false := hend rfl
  refine ⟨?_, ?_, ?_⟩ <;> rintro rfl <;> cases hplace

/-- The file assigns a `return` to a number, returns, and does so again. -/
theorem lowerFile_wellFormed_of_misplaced :
    let arena : Arena := ⟨#[(.number "1", ⟨0, 1⟩), (.returns none, ⟨4, 10⟩),
      (.assign ⟨0⟩ .plain ⟨1⟩, ⟨0, 10⟩), (.expressionStatement ⟨2⟩, ⟨0, 10⟩),
      (.file "main.ts" [⟨3⟩, ⟨1⟩, ⟨3⟩], ⟨0, 30⟩)]⟩
    Lua.Machine.initial.Fits .blocks ∧
      Code.IsBlock .any (lowerFile arena ⟨4⟩ .initial .empty true).1 ∧
      ∀ e, (Lua.runChunk (lowerFile arena ⟨4⟩ .initial .empty true).1 .initial).1 = .error e →
        e ≠ .expressionAsStatement ∧ e ≠ .statementAsExpression ∧ e ≠ .invalidTarget :=
  ⟨Lua.Machine.initial_fits_blocks,
    lowerFile_wellFormed _ _ _ _ _ Lua.Machine.initial_fits_blocks⟩

end ScriptToLua
