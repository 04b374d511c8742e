import Mathlib
import ScriptToLua.Lowering.Access
import ScriptToLua.Lowering.Literal
import ScriptToLua.Lowering.Operator
import ScriptToLua.Proofs.Lowering.Landing
import ScriptToLua.Proofs.Lua.FoldedRun

/-!
The code for one place, access or literal, with slots worked out beforehand and with slots left to
running code. Wherever the lowering looks at code that it has made, it sees the same in both.
-/

namespace ScriptToLua.Lowering

open Lua (Code Field Pin Succeeds)

/-- The code of one expression, first with constant slots and then with computed ones. -/
structure Twin (e e' : Code) : Prop where
  folds : ∀ pin, e.Folds pin e'
  literal : e.isLiteral ∨ e'.isLiteral → e = e'

namespace Twin

variable {e e' t t' k k' l l' r r' : Code} {es es' : List Code}

theorem of_folds (h : ∀ pin, e.Folds pin e') (he : e.isLiteral = false)
    (he' : e'.isLiteral = false) : Twin e e' where
  folds := h
  literal hl := by
    rw [he, he'] at hl
    rcases hl with hl | hl <;> cases hl

theorem nil : Twin .nil .nil := ⟨fun _ => .nil, fun _ => rfl⟩

theorem boolean (b : Bool) : Twin (.boolean b) (.boolean b) := ⟨fun _ => .boolean b, fun _ => rfl⟩

theorem number (text : String) : Twin (.number text) (.number text) :=
  ⟨fun _ => .number text, fun _ => rfl⟩

theorem string (s : String) : Twin (.string s) (.string s) := ⟨fun _ => .string s, fun _ => rfl⟩

theorem name {x : String} (hx : x ≠ indexTemp) : Twin (.name x) (.name x) :=
  ⟨fun _ => .name hx, fun _ => rfl⟩

theorem member (h : Twin t t') (x : String) : Twin (.member t x) (.member t' x) :=
  .of_folds (fun pin => .member (h.folds pin) x) rfl rfl

theorem binary (hl : Twin l l') (op : Lua.BinaryOp) (hr : Twin r r') :
    Twin (.binary l op r) (.binary l' op r') :=
  .of_folds (fun pin => .binary (hl.folds pin) op (hr.folds pin)) rfl rfl

theorem unary (op : Lua.UnaryOp) (h : Twin e e') : Twin (.unary op e) (.unary op e') :=
  .of_folds (fun pin => .unary op (h.folds pin)) rfl rfl

theorem foldAll (h : List.Forall₂ Twin es es') (pin : Pin) : Code.FoldAll pin es es' := by
  induction h with
  | nil => exact .nil
  | cons h _ ih => exact .cons (h.folds pin) ih

theorem call (h : Twin e e') (ha : List.Forall₂ Twin es es') : Twin (.call e es) (.call e' es') :=
  .of_folds (fun pin => .call (h.folds pin) (foldAll ha pin)) rfl rfl

theorem invoke (h : Twin e e') (x : String) (ha : List.Forall₂ Twin es es') :
    Twin (.invoke e x es) (.invoke e' x es') :=
  .of_folds (fun pin => .invoke (h.folds pin) x (foldAll ha pin)) rfl rfl

theorem immediate {b b' : List Code} (h : Code.BlockFolds .free b b') :
    Twin (.immediate b) (.immediate b') :=
  .of_folds (fun _ => .call (.function h) .nil) rfl rfl

theorem isPure (h : Twin e e') : e.isPure = e'.isPure := (h.folds .free).isPure

theorem isCall (h : Twin e e') : e.isCall = e'.isCall := (h.folds .free).isCall

theorem isLiteral (h : Twin e e') : e.isLiteral = e'.isLiteral := by
  cases he : e.isLiteral with
  | true => rw [← h.literal (.inl he), he]
  | false =>
    cases he' : e'.isLiteral with
    | true => rw [← h.literal (.inr he'), he] at he'; cases he'
    | false => rfl

/-- Code is a string constant in both or in neither. -/
theorem eq_string (h : Twin e e') {s : String} : e = .string s ↔ e' = .string s := by
  constructor
  · rintro rfl
    exact (h.literal (.inl rfl)).symm
  · rintro rfl
    exact h.literal (.inr rfl)

theorem isEmptyText (h : Twin e e') : isEmptyText e = isEmptyText e' := by
  have hne {c : Code} (hc : c.isLiteral = false) : Lowering.isEmptyText c = false := by
    cases c with
    | string s => cases hc
    | _ => rfl
  cases hl : e.isLiteral with
  | true => rw [h.literal (.inl hl)]
  | false => rw [hne hl, hne (h.isLiteral ▸ hl)]

theorem textOf (h : Twin e e') : Twin (textOf e) (textOf e') :=
  (name (by decide)).call (.cons h .nil)

end Twin

/-- The code of one key. -/
inductive KeyTwin : Code → Code → Prop where
  | same {k k' : Code} (h : Twin k k') : KeyTwin k k'
  | slot {slot index : String} (h : Succeeds slot index) :
    KeyTwin (.number slot) (.binary (.number index) .add (.integer 1))

theorem KeyTwin.folds {k k' : Code} (h : KeyTwin k k') (pin : Pin) : k.Folds pin k' := by
  cases h with
  | same h => exact h.folds pin
  | slot h => exact .slot h

/-- Integer constants of magnitude below `2 ^ 53`, and any other code. -/
def IsSmall (e : Code) : Prop := ∀ k, e.integer? = some k → k.natAbs < 2 ^ 53

theorem KeyTwin.oneBased {i i' : Code} (h : Twin i i') (hs : IsSmall i) :
    KeyTwin (oneBased true i) (oneBased false i') := by
  have hsum : KeyTwin (.binary i .add (.integer 1)) (.binary i' .add (.integer 1)) :=
    .same (h.binary .add (.number _))
  cases hn : successor? i with
  | none => simpa only [Lowering.oneBased, hn] using hsum
  | some n =>
    simp only [Lowering.oneBased, hn]
    obtain ⟨hn, -⟩ := Option.filter_eq_some_iff.1 hn
    obtain ⟨k, hk, rfl⟩ := Option.map_eq_some_iff.1 hn
    cases i with
    | number text =>
      rw [← h.literal (.inl rfl)]
      exact .slot (Lua.succeeds_of_integer hk (hs k hk))
    | _ => cases hk

/-- The code of one place. -/
inductive PlaceTwin : Place → Place → Prop where
  | variable {x : String} (hx : x ≠ indexTemp) : PlaceTwin (.variable x) (.variable x)
  | field {t t' : Code} (ht : Twin t t') (x : String) : PlaceTwin (.field t x) (.field t' x)
  | entry {t t' k k' : Code} (ht : Twin t t') (hk : KeyTwin k k') :
    PlaceTwin (.entry t k) (.entry t' k')

theorem code_ne_indexTemp {p : Place} (h : ∀ x, p = .variable x → x ≠ indexTemp) :
    Code.name indexTemp ∉ [p.code] := by
  rw [List.mem_singleton]
  cases p with
  | «variable» x =>
    intro he
    exact h x rfl (Code.name.inj he).symm
  | field t x => exact fun he => by cases he
  | entry t k => exact fun he => by cases he

/-- The code of one place while a block keeps its key. -/
structure PlaceFolds (pin : Pin) (p p' : Place) : Prop where
  code : p.code.Folds pin p'.code
  target : Code.name indexTemp ∉ [p'.code]

theorem PlaceTwin.folds {p p' : Place} (h : PlaceTwin p p') (pin : Pin) : PlaceFolds pin p p' := by
  cases h with
  | «variable» hx =>
    exact ⟨.name hx, code_ne_indexTemp fun y hy => Place.variable.inj hy ▸ hx⟩
  | field ht x =>
    exact ⟨.member (ht.folds pin) x, code_ne_indexTemp fun y hy => by cases hy⟩
  | entry ht hk =>
    exact ⟨.index (ht.folds pin) (hk.folds pin), code_ne_indexTemp fun y hy => by cases hy⟩

theorem PlaceTwin.code_twin {p p' : Place} (h : PlaceTwin p p') : Twin p.code p'.code := by
  cases h with
  | «variable» hx => exact .name hx
  | field ht x => exact ht.member x
  | entry ht hk => exact .of_folds (fun pin => .index (ht.folds pin) (hk.folds pin)) rfl rfl

/-- Blocks that begin by keeping a table. -/
theorem Twin.keep {t t' : Code} (h : Twin t t') (pinned : Bool) :
    Twin (Place.keep objectTemp pinned t).2 (Place.keep objectTemp pinned t').2 ∧
      ∀ {b b' : List Code}, Code.BlockFolds .free b b' →
        Code.BlockFolds .free ((Place.keep objectTemp pinned t).1 ++ b)
          ((Place.keep objectTemp pinned t').1 ++ b') := by
  unfold Place.keep
  rw [h.isPure, h.isLiteral]
  split
  · exact ⟨.name (by decide), fun hb => .cons (.locals (.inl rfl) (.cons (h.folds .free) .nil)) hb⟩
  · exact ⟨h, id⟩

/-- Blocks that begin by keeping a key. Only a computed slot is kept by one program alone. -/
theorem KeyTwin.keep {k k' : Code} (h : KeyTwin k k') (pinned : Bool) :
    ∃ pin : Pin, (Place.keep indexTemp pinned k).2.Folds pin (Place.keep indexTemp pinned k').2 ∧
      ∀ {b b' : List Code}, Code.BlockFolds pin b b' →
        Code.BlockFolds .free ((Place.keep indexTemp pinned k).1 ++ b)
          ((Place.keep indexTemp pinned k').1 ++ b') := by
  cases h with
  | same h =>
    unfold Place.keep
    rw [h.isPure, h.isLiteral]
    split
    · exact ⟨.shared, .kept, fun hb => .keep (h.folds .free) hb⟩
    · exact ⟨.free, h.folds .free, id⟩
  | @slot slot index h =>
    cases pinned with
    | true => exact ⟨.fixed slot, .pinned slot, fun hb => .pin h hb⟩
    | false => exact ⟨.free, .slot h, id⟩

/-- Blocks that begin by keeping the parts of a place. -/
theorem PlaceTwin.settle {p p' : Place} (h : PlaceTwin p p') (pinned : Bool) :
    ∃ pin : Pin, PlaceFolds pin (p.settle pinned).2 (p'.settle pinned).2 ∧
      ∀ {b b' : List Code}, Code.BlockFolds pin b b' →
        Code.BlockFolds .free ((p.settle pinned).1 ++ b) ((p'.settle pinned).1 ++ b') := by
  cases h with
  | «variable» hx => exact ⟨.free, (PlaceTwin.variable hx).folds .free, id⟩
  | field ht x =>
    obtain ⟨ht, hb⟩ := ht.keep pinned
    exact ⟨.free, (PlaceTwin.field ht x).folds .free, hb⟩
  | entry ht hk =>
    obtain ⟨ht, hbt⟩ := ht.keep pinned
    obtain ⟨pin, hk, hbk⟩ := hk.keep pinned
    refine ⟨pin, ⟨.index (ht.folds pin) hk, code_ne_indexTemp fun x hx => by cases hx⟩, ?_⟩
    intro b b' hb
    simp only [Place.settle, List.append_assoc]
    exact hbt (hbk hb)

theorem settle_eq_self {p : Place} {pinned : Bool} (h : (p.settle pinned).1 = []) :
    (p.settle pinned).2 = p := by
  have hkeep {temp : String} {e : Code} (h : (Place.keep temp pinned e).1 = []) :
      (Place.keep temp pinned e).2 = e := by
    unfold Place.keep at h ⊢
    split at h
    · cases h
    · next hk => rw [if_neg hk]
  cases p with
  | «variable» x => rfl
  | field t x => exact congrArg (Place.field · x) (hkeep h)
  | entry t k =>
    obtain ⟨ht, hk⟩ := List.append_eq_nil_iff.1 h
    exact congrArg₂ Place.entry (hkeep ht) (hkeep hk)

/-- Without a need to pin it, both programs keep a place or neither does. -/
theorem PlaceTwin.settle_eq_nil {p p' : Place} (h : PlaceTwin p p') :
    (p.settle false).1 = [] ↔ (p'.settle false).1 = [] := by
  have hkeep {temp : String} {e e' : Code} (he : e.isPure = e'.isPure) :
      (Place.keep temp false e).1 = [] ↔ (Place.keep temp false e').1 = [] := by
    simp only [Place.keep, he, Bool.false_and, Bool.or_false]
    split
    · exact iff_of_false (List.cons_ne_nil _ _) (List.cons_ne_nil _ _)
    · exact Iff.rfl
  cases h with
  | «variable» => exact Iff.rfl
  | field ht x => exact hkeep ht.isPure
  | entry ht hk =>
    simp only [Place.settle, List.append_eq_nil_iff]
    exact and_congr (hkeep ht.isPure) (hkeep (hk.folds .free).isPure)

section Writes

variable {p p' : Place} {v v' : Code} {pin : Pin}

theorem newValue_folds (h : PlaceFolds pin p p') (op : Option Lua.BinaryOp) (hv : Twin v v') :
    (p.newValue op v).Folds pin (p'.newValue op v') := by
  cases op with
  | none => exact hv.folds pin
  | some op => exact .binary h.code op (hv.folds pin)

theorem store_folds (h : PlaceFolds pin p p') {e e' : Code} (he : e.Folds pin e') :
    (Code.store p.code e).Folds pin (Code.store p'.code e') :=
  .assign (.cons h.code .nil) h.target (.cons he .nil)

/-- The end of a block that keeps `kept` in a variable, writes `e` and yields what it kept. -/
theorem writeBack_folds (h : PlaceFolds pin p p') {kept kept' e e' : Code}
    (hk : kept.Folds pin kept') (he : e.Folds pin e') :
    Code.BlockFolds pin
      [.bindLocal valueTemp kept, .store p.code e, .yields (.name valueTemp)]
      [.bindLocal valueTemp kept', .store p'.code e', .yields (.name valueTemp)] :=
  .cons (.locals (.inr (by decide)) (.cons hk .nil)) <| .cons (store_folds h he) <|
    .cons (.returns (.cons (.name (by decide)) .nil)) .nil

/-- Code that stands as an expression is alike in both programs, code that stands as a statement does
the same. -/
def Use.Twins (e e' : Code) : Use → Prop
  | .statement => e.Folds .free e'
  | .value => Twin e e'

theorem PlaceTwin.assign (h : PlaceTwin p p') (op : Option Lua.BinaryOp) (hv : Twin v v')
    (use : Use) : use.Twins (p.assign op v use) (p'.assign op v' use) := by
  cases use with
  | statement =>
    have hplain : (Code.store p.code (p.newValue op v)).Folds .free
        (.store p'.code (p'.newValue op v')) :=
      store_folds (h.folds .free) (newValue_folds (h.folds .free) op hv)
    cases op with
    | none => exact hplain
    | some op =>
      obtain ⟨pin, hp, hb⟩ := h.settle false
      have hwrite := store_folds hp (newValue_folds hp (some op) hv)
      simp only [Place.assign, Use.Twins, Option.isSome_some, if_true, List.isEmpty_iff,
        h.settle_eq_nil]
      split
      · next he => rwa [settle_eq_self he, settle_eq_self (h.settle_eq_nil.2 he)]
      · exact .block (hb (.cons hwrite .nil))
  | value =>
    obtain ⟨pin, hp, hb⟩ := h.settle !v.isPure
    simp only [Place.assign, Use.Twins, ← hv.isPure]
    exact .immediate (hb (writeBack_folds hp (newValue_folds hp op hv) (.name (by decide))))

theorem PlaceTwin.update (h : PlaceTwin p p') (op : Lua.BinaryOp) (yield : Yield) (use : Use) :
    use.Twins (p.update op yield use) (p'.update op yield use) := by
  have hassign := h.assign (some op) (.number (toString 1)) use
  cases yield with
  | new => exact hassign
  | old =>
    cases use with
    | statement => exact hassign
    | value =>
      obtain ⟨pin, hp, hb⟩ := h.settle false
      exact .immediate (hb (writeBack_folds hp hp.code
        (.binary (.name (by decide)) op (.number _))))

theorem PlaceTwin.deletion (h : PlaceTwin p p') (use : Use) :
    use.Twins (deletion p.code use) (deletion p'.code use) := by
  have hstore := store_folds (h.folds .free) .nil
  cases use with
  | statement => exact hstore
  | value => exact .immediate (.cons hstore (.cons (.returns (.cons (.boolean true) .nil)) .nil))

end Writes

/-- The code of the key of one access. -/
inductive AccessKeyTwin : AccessKey → AccessKey → Prop where
  | named (x : String) : AccessKeyTwin (.named x) (.named x)
  | element {i i' : Code} (h : Twin i i') (t : TypeId) :
    AccessKeyTwin (.element i t) (.element i' t)

/-- The code of one access. Where it is an index that is an integer constant, the constant is
small. -/
structure AccessTwin (a a' : Access) : Prop where
  receiver : Twin a.receiver a'.receiver
  key : AccessKeyTwin a.key a'.key
  shape : a.shape = a'.shape
  small : a.shape.isArrayLike → ∀ i t, a.key = .element i t → IsSmall i

/-- Where one access lands. -/
inductive LandingTwin : Landing → Landing → Prop where
  | place {p p' : Place} (h : PlaceTwin p p') : LandingTwin (.place p) (.place p')
  | length : LandingTwin .length .length

theorem landing?_computed {s : TypeStore} {fold : Bool} {r i : Code} {t : TypeId} {shape : Shape}
    (hi : ∀ x, i ≠ .string x) :
    Access.landing? s fold ⟨r, .element i t, shape⟩ =
      if shape.isArrayLike then some (Access.landComputed s fold ⟨r, .element i t, shape⟩ i t)
      else none := by
  cases i with
  | string x => exact absurd rfl (hi x)
  | _ => rfl

theorem member?_computed {r i : Code} {t : TypeId} {shape : Shape} (hi : ∀ x, i ≠ .string x) :
    Access.member? ⟨r, .element i t, shape⟩ = none := by
  cases i with
  | string x => exact absurd rfl (hi x)
  | _ => rfl

namespace AccessTwin

variable {a a' : Access} (s : TypeStore)

theorem landing? (h : AccessTwin a a') :
    Option.Rel LandingTwin (a.landing? s true) (a'.landing? s false) := by
  obtain ⟨r, key, shape⟩ := a
  obtain ⟨r', key', shape'⟩ := a'
  obtain ⟨hr, hk, rfl, hs⟩ := h
  cases hk with
  | named x =>
    simp only [Access.landing?, Access.landNamed]
    split
    · split
      · exact .some (.place (.field hr x))
      · split
        · exact .some .length
        · exact .none
    · exact .none
  | @element i i' hi t =>
    by_cases hx : ∃ x, i = .string x
    · obtain ⟨x, rfl⟩ := hx
      obtain rfl := hi.eq_string.1 rfl
      simp only [Access.landing?, Access.landString]
      split
      · split
        · next hx =>
          have hsmall : IsSmall (.number x) := fun k hk =>
            (Lua.integerOf?_index hx hk).trans (by decide)
          exact .some (.place (.entry hr (.oneBased (.number x) hsmall)))
        · split
          · exact .some .length
          · exact .some (.place (.field hr x))
      · exact .none
    · have hx (x : String) : i ≠ .string x := fun he => hx ⟨x, he⟩
      have hx' (x : String) : i' ≠ .string x := fun he => hx x (hi.eq_string.2 he)
      rw [landing?_computed hx, landing?_computed hx']
      split
      · next ha =>
        refine .some ?_
        unfold Access.landComputed
        split
        · exact .place (.entry hr (.same hi))
        · exact .place (.entry hr (.oneBased hi (hs ha i t rfl)))
      · exact .none

theorem plain (h : AccessTwin a a') : PlaceTwin a.plain a'.plain := by
  obtain ⟨r, key, shape⟩ := a
  obtain ⟨r', key', shape'⟩ := a'
  cases h.key with
  | named x => exact .field h.receiver x
  | element hi t => exact .entry h.receiver (.same hi)

theorem lands (h : AccessTwin a a') : LandingTwin (a.lands s true) (a'.lands s false) := by
  have hl := h.landing? s
  unfold Access.lands
  generalize a.landing? s true = l, a'.landing? s false = l' at hl
  cases hl with
  | none => exact .place h.plain
  | some hl => exact hl

theorem read (h : AccessTwin a a') : Twin (a.read s true) (a'.read s false) := by
  have hl := h.lands s
  rw [Access.read_eq_lands, Access.read_eq_lands]
  generalize a.lands s true = l, a'.lands s false = l' at hl
  cases hl with
  | place hp => exact hp.code_twin
  | length => exact h.receiver.unary .len

theorem isLength (h : AccessTwin a a') : a.isLength s true = a'.isLength s false := by
  have hl := h.lands s
  rw [Access.isLength_eq_lands, Access.isLength_eq_lands]
  generalize a.lands s true = l, a'.lands s false = l' at hl
  cases hl <;> rfl

theorem place (h : AccessTwin a a') : PlaceTwin (a.place s true) (a'.place s false) := by
  have hl := h.lands s
  rw [Access.place_eq_lands, Access.place_eq_lands]
  generalize a.lands s true = l, a'.lands s false = l' at hl
  cases hl with
  | place hp => exact hp
  | length => exact h.plain

theorem member? (h : AccessTwin a a') : a.member? = a'.member? := by
  obtain ⟨r, key, shape⟩ := a
  obtain ⟨r', key', shape'⟩ := a'
  obtain ⟨hr, hk, rfl, hs⟩ := h
  cases hk with
  | named x => rfl
  | @element i i' hi t =>
    by_cases hx : ∃ x, i = .string x
    · obtain ⟨x, rfl⟩ := hx
      obtain rfl := hi.eq_string.1 rfl
      rfl
    · rw [member?_computed fun x he => hx ⟨x, he⟩,
        member?_computed fun x he => hx ⟨x, hi.eq_string.2 he⟩]

end AccessTwin

section Literals

variable {e e' : Code} {es es' : List Code}

/-- The code of one field of a table. -/
def FieldTwin (f f' : Field) : Prop :=
  ∀ (pin : Pin) (fs fs' : List Field), Field.FoldAll pin fs fs' →
    Field.FoldAll pin (f :: fs) (f' :: fs')

theorem table_twin {fs fs' : List Field} (h : List.Forall₂ FieldTwin fs fs') :
    Twin (.table fs) (.table fs') := by
  refine .of_folds (fun pin => .table ?_) rfl rfl
  induction h with
  | nil => exact .nil
  | cons h _ ih => exact h pin _ _ ih

theorem arrayLiteral_twin (h : List.Forall₂ Twin es es') :
    Twin (arrayLiteral es) (arrayLiteral es') := by
  refine table_twin ?_
  rw [List.forall₂_map_left_iff, List.forall₂_map_right_iff]
  exact h.imp fun _ _ he pin _ _ hr => .item (he.folds pin) hr

/-- The code of one property of a literal that stands for an array. -/
inductive HybridTwin : HybridProperty → HybridProperty → Prop where
  | slot {i i' v v' : Code} (hi : Twin i i') (hs : IsSmall i) (hv : Twin v v') :
    HybridTwin (.slot i v) (.slot i' v')
  | named (x : String) {v v' : Code} (hv : Twin v v') : HybridTwin (.named x v) (.named x v')
  | keyed {k k' v v' : Code} (hk : Twin k k') (hv : Twin v v') :
    HybridTwin (.keyed k v) (.keyed k' v')

theorem HybridTwin.field {p p' : HybridProperty} (h : HybridTwin p p') :
    FieldTwin (p.field true) (p'.field false) := by
  intro pin fs fs' hr
  cases h with
  | slot hi hs hv => exact .keyed ((KeyTwin.oneBased hi hs).folds pin) (hv.folds pin) hr
  | named x hv => exact .named x (hv.folds pin) hr
  | keyed hk hv => exact .keyed (hk.folds pin) (hv.folds pin) hr

theorem hybridLiteral_twin {ps ps' : List HybridProperty} (h : List.Forall₂ HybridTwin ps ps') :
    Twin (hybridLiteral true ps) (hybridLiteral false ps') := by
  refine table_twin ?_
  rw [List.forall₂_map_left_iff, List.forall₂_map_right_iff]
  exact h.imp fun _ _ hp => hp.field

theorem concatenated_twin (h : List.Forall₂ Twin es es') :
    Twin (concatenated es) (concatenated es') := by
  induction h with
  | nil => exact .string ""
  | cons h hr ih =>
    cases hr with
    | nil => exact h
    | cons _ _ => exact h.binary .concat ih

theorem joinTexts_twin (h : List.Forall₂ Twin es es') : Twin (joinTexts es) (joinTexts es') := by
  refine concatenated_twin ?_
  induction h with
  | nil => exact .nil
  | cons h _ ih =>
    simp only [List.filter_cons, h.isEmptyText]
    split
    · exact .cons h ih
    · exact ih

theorem callMember_twin (h : Twin e e') (x : String) (member : Option Property)
    (ha : List.Forall₂ Twin es es') :
    Twin (callMember e x member es) (callMember e' x member es') := by
  unfold callMember
  rw [h.isPure]
  split
  · exact (h.member x).call ha
  · split
    · exact h.invoke x ha
    · split
      · exact (h.member x).call (.cons h ha)
      · have hobj : Twin (.name objectTemp) (.name objectTemp) := .name (by decide)
        have hcall := ((hobj.member x).call (.cons hobj ha)).folds .free
        exact .immediate (.cons (.locals (.inl rfl) (.cons (h.folds .free) .nil))
          (.cons (.returns (.cons hcall .nil)) .nil))

end Literals

end ScriptToLua.Lowering
