import Mathlib
import ScriptToLua.Proofs.Lowering.Growth
import ScriptToLua.Proofs.Lua.Kinds
import ScriptToLua.Proofs.Source.Strip
import ScriptToLua.Proofs.Types.Nesting
import ScriptToLua.Proofs.Types.Primitives

/-!
Expressions over strings, numbers and booleans. Where a primitive type is inferred for one, the lowered
code yields values of that type only, and variables keep their types: `expression_kind`. Compound
assignments that add a number to a string are left out: they are typed like the number.
-/

namespace ScriptToLua

open Lua (Kind)
open Source (Arena Node NodeId)
open TypeStore

/-- The kind of the values of a primitive type. -/
def TypeId.kind? (t : TypeId) : Option Kind :=
  if t = .number then some .number
  else if t = .string then some .string
  else if t = .boolean then some .boolean
  else if t = .nil then some .nil
  else none

theorem TypeId.primitive_of_kind? {t : TypeId} {k : Kind} (h : t.kind? = some k) :
    t.isPrimitive := by
  unfold TypeId.kind? at h
  unfold TypeId.isPrimitive
  by_contra hno
  simp only [Bool.or_eq_true, decide_eq_true_eq, not_or] at hno
  obtain ⟨⟨⟨h₁, h₂⟩, h₃⟩, h₄⟩ := hno
  rw [if_neg h₁, if_neg h₂, if_neg h₃, if_neg h₄] at h
  cases h

theorem TypeId.kind?_ne_function (t : TypeId) : t.kind? ≠ some .function := by
  unfold TypeId.kind?
  repeat' split
  all_goals simp

theorem TypeId.eq_number {t : TypeId} (h : t.kind? = some .number) : t = .number := by
  unfold TypeId.kind? at h
  repeat' split at h
  all_goals first | assumption | cases h

/-- The node is the variable `x`, possibly in parentheses, and no type is recorded for it. -/
inductive Source.Arena.Denotes (a : Arena) (f : TypeFacts) (x : String) : NodeId → Prop
  | name {id : NodeId} (hid : f.nodes.get? id = none) (hn : a.get? id = some (.identifier x)) :
    Denotes a f x id
  | parens {id inner : NodeId} (hid : f.nodes.get? id = none)
    (hn : a.get? id = some (.parenthesized inner)) (h : Denotes a f x inner) : Denotes a f x id

section Denotes

variable {a : Arena} {f : TypeFacts} {x : String} {id : NodeId} {levels : Nat}

theorem denotes_strip (h : a.Denotes f x id) : a.get? (a.strip id) = some (.identifier x) := by
  have hpeel {id : NodeId} (hn : a.get? id = some (.identifier x)) : a.peel? id = none := by
    rw [Arena.peel?, hn]
  induction h with
  | name _ hn => rwa [Arena.strip, Arena.stripLayers_of_peel?_none (hpeel hn)]
  | @parens id inner _ hn _ ih =>
    have hp : a.peel? id = some inner := by rw [Arena.peel?, hn]
    rwa [Arena.strip_of_peel? hp (hpeel ih)]

theorem denotes_type (h : a.Denotes f x id) (hnest : a.nestsWithin levels id)
    (hle : levels ≤ maxNesting) : f.expressionType a id = pure (f.declaredType x) := by
  induction h generalizing levels with
  | name hid hn => exact Typing.expressionType_eq hnest hle hid hn
  | @parens id inner hid hn _ ih =>
    rw [Typing.expressionType_eq hnest hle hid hn]
    cases levels with
    | zero => cases hnest
    | succ levels =>
      exact ih (nestsWithin_child hnest hn List.mem_cons_self) (Nat.le_of_succ_le hle)

end Denotes

/-- The node is a constant. -/
def Source.Node.isConstant : Node → Bool
  | .number _ | .string _ | .boolean _ | .null | .undefined => true
  | _ => false

namespace Lowering

/-- The assignment gives a variable of type `target` a value of its type. A string to which a number is
added gets one too, but the assignment is typed as a number. -/
def AssignsWithin (target : TypeId) (op : Source.AssignOp) (value : TypeId) : Prop :=
  match op with
  | .plain => value = target
  | .add => target = .string ∧ value ≠ .number ∨ target = .number ∧ value = .number
  | _ => target = .number

/-- Expressions made of constants, the variables `vars`, operators, templates, updates and
assignments. No types are recorded for them, and the types of assigned values are those that are inferred
in the store `base`. -/
inductive IsScalar (a : Arena) (f : TypeFacts) (base : TypeStore) (vars : Set String) :
    NodeId → Prop
  | constant {id : NodeId} {n : Node} (hid : f.nodes.get? id = none) (hn : a.get? id = some n)
    (hc : n.isConstant) : IsScalar a f base vars id
  | name {id : NodeId} {x : String} (hid : f.nodes.get? id = none)
    (hn : a.get? id = some (.identifier x)) (hx : x ∈ vars) : IsScalar a f base vars id
  | parens {id inner : NodeId} (hid : f.nodes.get? id = none)
    (hn : a.get? id = some (.parenthesized inner)) (h : IsScalar a f base vars inner) :
    IsScalar a f base vars id
  | template {id : NodeId} {head : String} {spans : List (NodeId × String)}
    (hid : f.nodes.get? id = none) (hn : a.get? id = some (.template head spans))
    (h : ∀ span ∈ spans, IsScalar a f base vars span.1) : IsScalar a f base vars id
  | unary {id operand : NodeId} {op : Source.UnaryOp} (hid : f.nodes.get? id = none)
    (hn : a.get? id = some (.unary op operand)) (h : IsScalar a f base vars operand) :
    IsScalar a f base vars id
  | binary {id left right : NodeId} {op : Source.BinaryOp} (hid : f.nodes.get? id = none)
    (hn : a.get? id = some (.binary left op right)) (hl : IsScalar a f base vars left)
    (hr : IsScalar a f base vars right) : IsScalar a f base vars id
  | update {id operand : NodeId} {op : Source.UpdateOp} {before : Bool} {x : String}
    (hid : f.nodes.get? id = none) (hn : a.get? id = some (.update op before operand))
    (ht : a.Denotes f x operand) (hx : x ∈ vars) : IsScalar a f base vars id
  | assign {id target value : NodeId} {op : Source.AssignOp} {x : String}
    (hid : f.nodes.get? id = none) (hn : a.get? id = some (.assign target op value))
    (ht : a.Denotes f x target) (hx : x ∈ vars) (hv : IsScalar a f base vars value)
    (hw : AssignsWithin (f.declaredType x) op (f.expressionType a value base).1) :
    IsScalar a f base vars id

open Lua (Code)
open Typing

/-- Where the types `ts` are one alone, the values of the kinds `K` are of that type. -/
def CoversKinds (ts : List TypeId) (K : Set Kind) : Prop := ∀ t, ts = [t] → ∀ k ∈ K, t.kind? = some k

/-- The type inferred for the expression stands for `ts` in every store, and where it stands for one
type alone, the code of the expression has values of that type only. -/
structure IsSound (ctx : Context) (Γ : String → Option Kind) (levels : Nat) (id : NodeId)
    (ts : List TypeId) : Prop where
  primitives : Primitives ts
  type : ∀ s, s.WellFormed →
    Grows s (fun s' t => StandsFor s' t ts) (ctx.facts.expressionType ctx.arena id)
  code : ∀ s room, levels ≤ room →
    Enlarges ctx s (fun _ e => ∃ K, e.Makes Γ K ∧ CoversKinds ts K) (expressionAt room id)

/-- The type of a sum of values of the types `ts` and `us`. -/
def sumTypes (ts us : List TypeId) : List TypeId :=
  if ts = [.string] ∨ us = [.string] then [.string] else [.number]

section Sound

variable {ctx : Context} {Γ : String → Option Kind} {levels : Nat} {id : NodeId} {n : Node}
  {ts us : List TypeId} {s : TypeStore}

theorem coversKinds_single {t : TypeId} {K : Set Kind} (h : ∀ k ∈ K, t.kind? = some k) :
    CoversKinds [t] K := by
  rintro _ ⟨⟩
  exact h

theorem expressionAt_enlarges {P : TypeStore → Code → Prop} {room : Nat}
    (hn : ctx.arena.get? id = some n)
    (h : Enlarges ctx s P (expressionNode (expressionAt room) id n)) :
    Enlarges ctx s P (expressionAt (room + 1) id) := by
  intro st he hw
  rw [expressionAt, bind_node?_run, hn]
  exact h st he hw

/-- What a node needs of its children. -/
theorem IsSound.of_node (hnest : ctx.arena.nestsWithin (levels + 1) id)
    (hle : levels + 1 ≤ maxNesting) (hid : ctx.facts.nodes.get? id = none)
    (hn : ctx.arena.get? id = some n) (hts : Primitives ts)
    (htype : ∀ s, s.WellFormed → Grows s (fun s' t => StandsFor s' t ts)
      (nodeType ctx.arena ctx.facts (ctx.facts.expressionType ctx.arena) n))
    (hcode : ∀ s room, levels ≤ room →
      Enlarges ctx s (fun _ e => ∃ K, e.Makes Γ K ∧ CoversKinds ts K)
        (expressionNode (expressionAt room) id n)) : IsSound ctx Γ (levels + 1) id ts where
  primitives := hts
  type s hs := by
    rw [expressionType_eq hnest hle hid hn]
    exact htype s hs
  code s room hroom := by
    cases room with
    | zero => cases hroom
    | succ room => exact expressionAt_enlarges hn (hcode s room (Nat.le_of_succ_le_succ hroom))

theorem typeOf_stands (h : IsSound ctx Γ levels id ts) :
    Enlarges ctx s (fun s' t => StandsFor s' t ts) (typeOf id) :=
  withTypes_enlarges fun s' _ hw => h.type s' hw

theorem askTypes_enlarges {α : Type} {P : TypeStore → α → Prop} {ask : TypeStore → α}
    (h : ∀ s', s.Extends s' → s'.WellFormed → P s' (ask s')) : Enlarges ctx s P (askTypes ask) :=
  fun st he hw => ⟨hw, .refl st.store, h st.store he hw⟩

/-- An operand of a concatenation is made a string where it is no number. -/
theorem concatOperand_makes (h : IsSound ctx Γ levels id ts) {room : Nat} (hroom : levels ≤ room)
    (t : TypeId) : Enlarges ctx s (fun _ e => ∃ K, e.Makes Γ K) (concatOperand (expressionAt room) id t) := by
  refine (h.code s room hroom).bind fun e s₁ _ he => ?_
  obtain ⟨K, hK, -⟩ := he
  refine (askTypes_enlarges (P := fun _ _ => True) fun _ _ _ => trivial).bind fun joins s₂ _ _ => ?_
  refine .pure fun s₃ _ => ?_
  cases joins with
  | true => exact ⟨K, hK⟩
  | false => exact ⟨_, .text hK⟩

section Parts

variable {left right : NodeId} (hl : IsSound ctx Γ levels left ts)
  (hr : IsSound ctx Γ levels right us)

include hl hr

theorem sumType_stands (hs : s.WellFormed) :
    Grows s (fun s' t => StandsFor s' t (sumTypes ts us))
      (binaryType (ctx.facts.expressionType ctx.arena) left .add right) := by
  refine (hl.type s hs).bind fun t s₁ hs₁ _ ht => ?_
  refine (hr.type s₁ hs₁).bind fun u s₂ hs₂ he₂ hu => ?_
  refine ⟨hs₂, .refl s₂, ?_⟩
  have ht' := ht.extends_ he₂
  have hunknown : ¬ (t = .unknown ∨ u = .unknown) := by
    rintro (h | h)
    · exact ht'.ne_unknown hs₂ hl.primitives h
    · exact hu.ne_unknown hs₂ hr.primitives h
  change StandsFor s₂ (sumType s₂ t u) _
  rw [sumType, if_neg hunknown, sumTypes]
  simp only [Bool.or_eq_true, ht'.isStringLike hs₂ hl.primitives, hu.isStringLike hs₂ hr.primitives]
  split <;> exact .single s₂ _

theorem choiceType_stands (hs : s.WellFormed) :
    Grows s (fun s' t => StandsFor s' t (sortIds (ts ++ us)))
      (do
        let l ← ctx.facts.expressionType ctx.arena left
        let r ← ctx.facts.expressionType ctx.arena right
        unionOf [l, r]) := by
  refine (hl.type s hs).bind fun t s₁ hs₁ _ ht => ?_
  refine (hr.type s₁ hs₁).bind fun u s₂ hs₂ he₂ hu => ?_
  exact unionOf_stands hs₂ hl.primitives hr.primitives (ht.extends_ he₂) hu

theorem sum_makes {room : Nat} (hroom : levels ≤ room) :
    Enlarges ctx s (fun _ e => ∃ K, e.Makes Γ K ∧ CoversKinds (sumTypes ts us) K)
      (sum (expressionAt room) left right) := by
  refine (typeOf_stands hl).bind fun t s₁ _ ht => ?_
  refine (typeOf_stands hr).bind fun u s₂ he₂ hu => ?_
  refine (askTypes_enlarges (P := fun _ joins => joins = true ↔ ts = [.string] ∨ us = [.string])
    fun s₃ he₃ hw₃ => ?_).bind fun joins s₃ _ hjoins => ?_
  · have ht' := (ht.extends_ (he₂.trans he₃)).isStringLike hw₃ hl.primitives
    have hu' := (hu.extends_ he₃).isStringLike hw₃ hr.primitives
    rw [Bool.or_eq_true, ht', hu']
  · rw [sumTypes]
    simp only [← hjoins]
    cases joins with
    | true =>
      refine (concatOperand_makes hl hroom t).bind fun e s₄ _ he => ?_
      refine (concatOperand_makes hr hroom u).bind fun e' s₅ _ he' => ?_
      obtain ⟨K, hK⟩ := he
      obtain ⟨K', hK'⟩ := he'
      exact .pure fun _ _ => ⟨_, .concat hK hK', coversKinds_single fun k hk => hk.1 ▸ rfl⟩
    | false =>
      refine (hl.code s₃ room hroom).bind fun e s₄ _ he => ?_
      refine (hr.code s₄ room hroom).bind fun e' s₅ _ he' => ?_
      obtain ⟨K, hK, -⟩ := he
      obtain ⟨K', hK', -⟩ := he'
      exact .pure fun _ _ => ⟨_, .arithmetic rfl hK hK', coversKinds_single fun k hk => hk.1 ▸ rfl⟩

/-- The code of a binary expression other than a sum. -/
theorem operation_makes {op : Source.BinaryOp} {ws : List TypeId} {room : Nat} (hroom : levels ≤ room)
    (hop : op ≠ .add)
    (h : ∀ e e' K K', e.Makes Γ K → CoversKinds ts K → e'.Makes Γ K' → CoversKinds us K' →
      ∃ K'', (Code.binary e (luaBinary op) e').Makes Γ K'' ∧ CoversKinds ws K'') :
    Enlarges ctx s (fun _ e => ∃ K, e.Makes Γ K ∧ CoversKinds ws K)
      (binary (expressionAt room) left op right) := by
  rw [binary, if_neg hop]
  refine (hl.code s room hroom).bind fun e s₁ _ he => ?_
  refine (hr.code s₁ room hroom).bind fun e' s₂ _ he' => ?_
  obtain ⟨K, hK, hc⟩ := he
  obtain ⟨K', hK', hc'⟩ := he'
  exact .pure fun _ _ => h e e' K K' hK hc hK' hc'

theorem coversKinds_sorted {K K' : Set Kind} (h : CoversKinds ts K) (h' : CoversKinds us K') :
    CoversKinds (sortIds (ts ++ us)) (K ∪ K') := by
  intro t ht k hk
  have hts := hl.primitives.of_sorted_single (fun u hu => List.mem_append_left us hu) ht
  have hus := hr.primitives.of_sorted_single (fun u hu => List.mem_append_right ts hu) ht
  rcases hk with hk | hk
  · exact h t hts k hk
  · exact h' t hus k hk

end Parts

theorem grows_single {t : TypeId} (hs : s.WellFormed) :
    Grows s (fun s' u => StandsFor s' u [t]) (pure t) := .pure hs (.single s t)

theorem primitives_sumTypes (ts us : List TypeId) : Primitives (sumTypes ts us) := by
  unfold sumTypes
  split <;> exact .single rfl

/-- The code has strings as values and nothing else. -/
def MakesText (Γ : String → Option Kind) (e : Code) : Prop := ∃ K ⊆ {Kind.string}, e.Makes Γ K

theorem MakesText.string (x : String) : MakesText Γ (.string x) := ⟨_, subset_rfl, .string x⟩

theorem concatenated_makes {es : List Code} (h : ∀ e ∈ es, MakesText Γ e) :
    MakesText Γ (concatenated es) := by
  induction es with
  | nil => exact .string ""
  | cons e es ih =>
    have he := h e List.mem_cons_self
    cases es with
    | nil => exact he
    | cons e' es =>
      obtain ⟨K, -, hK⟩ := he
      obtain ⟨K', -, hK'⟩ := ih fun d hd => h d (List.mem_cons_of_mem e hd)
      exact ⟨_, fun k hk => hk.1, .concat hK hK'⟩

section Nodes

variable (hnest : ctx.arena.nestsWithin (levels + 1) id) (hle : levels + 1 ≤ maxNesting)
  (hid : ctx.facts.nodes.get? id = none)

include hnest hle hid

theorem isSound_binary {left right : NodeId} {op : Source.BinaryOp}
    (hn : ctx.arena.get? id = some (.binary left op right)) (hl : IsSound ctx Γ levels left ts)
    (hr : IsSound ctx Γ levels right us) : ∃ ws, IsSound ctx Γ (levels + 1) id ws := by
  have hcompare {op : Source.BinaryOp} (hn : ctx.arena.get? id = some (.binary left op right))
      (hop : op ≠ .add) (hlua : (luaBinary op).isComparison)
      (ht : binaryType (ctx.facts.expressionType ctx.arena) left op right = pure .boolean) :
      IsSound ctx Γ (levels + 1) id [.boolean] := by
    refine .of_node hnest hle hid hn (.single rfl) (fun s hs => ?_) fun s room hroom => ?_
    · rw [nodeType, ht]
      exact grows_single hs
    · exact operation_makes hl hr hroom hop fun e e' K K' hK _ hK' _ =>
        ⟨_, .comparison hlua hK hK', coversKinds_single fun k hk => hk ▸ rfl⟩
  have hcompute {op : Source.BinaryOp} (hn : ctx.arena.get? id = some (.binary left op right))
      (hop : op ≠ .add) (hlua : (luaBinary op).isArithmetic)
      (ht : binaryType (ctx.facts.expressionType ctx.arena) left op right = pure .number) :
      IsSound ctx Γ (levels + 1) id [.number] := by
    refine .of_node hnest hle hid hn (.single rfl) (fun s hs => ?_) fun s room hroom => ?_
    · rw [nodeType, ht]
      exact grows_single hs
    · exact operation_makes hl hr hroom hop fun e e' K K' hK _ hK' _ =>
        ⟨_, .arithmetic hlua hK hK', coversKinds_single fun k hk => hk.1 ▸ rfl⟩
  have hchoose {op : Source.BinaryOp} (hn : ctx.arena.get? id = some (.binary left op right))
      (hop : op ≠ .add) (hlua : (luaBinary op).isChoice)
      (ht : binaryType (ctx.facts.expressionType ctx.arena) left op right = (do
        let l ← ctx.facts.expressionType ctx.arena left
        let r ← ctx.facts.expressionType ctx.arena right
        unionOf [l, r])) : IsSound ctx Γ (levels + 1) id (sortIds (ts ++ us)) := by
    refine .of_node hnest hle hid hn (hl.primitives.sorted hr.primitives) (fun s hs => ?_)
      fun s room hroom => ?_
    · rw [nodeType, ht]
      exact choiceType_stands hl hr hs
    · exact operation_makes hl hr hroom hop fun e e' K K' hK hc hK' hc' =>
        ⟨_, .choice hlua hK hK', coversKinds_sorted hl hr hc hc'⟩
  cases op with
  | add =>
    exact ⟨_, .of_node hnest hle hid hn (primitives_sumTypes ts us)
      (fun s hs => sumType_stands hl hr hs) fun s room hroom => sum_makes hl hr hroom⟩
  | and | or => exact ⟨_, hchoose hn (by decide) rfl rfl⟩
  | sub | mul | div | mod => exact ⟨_, hcompute hn (by decide) rfl rfl⟩
  | lt | le | gt | ge | eq | ne => exact ⟨_, hcompare hn (by decide) rfl rfl⟩

theorem isSound_unary {operand : NodeId} {op : Source.UnaryOp}
    (hn : ctx.arena.get? id = some (.unary op operand)) (h : IsSound ctx Γ levels operand ts) :
    ∃ ws, IsSound ctx Γ (levels + 1) id ws := by
  have hcode {ws : List TypeId} (s : TypeStore) (room : Nat) (hroom : levels ≤ room)
      (hmakes : ∀ e K, e.Makes Γ K →
        ∃ K', (Code.unary (luaUnary op) e).Makes Γ K' ∧ CoversKinds ws K') :
      Enlarges ctx s (fun _ e => ∃ K, e.Makes Γ K ∧ CoversKinds ws K)
        (expressionNode (expressionAt room) id (.unary op operand)) := by
    refine (h.code s room hroom).bind fun e s₁ _ he => ?_
    obtain ⟨K, hK, -⟩ := he
    exact .pure fun _ _ => hmakes e K hK
  cases op with
  | minus =>
    refine ⟨[.number], .of_node hnest hle hid hn (.single rfl) (fun s hs => grows_single hs) ?_⟩
    exact fun s room hroom => hcode s room hroom fun e K hK =>
      ⟨_, .neg hK, coversKinds_single fun k hk => hk ▸ rfl⟩
  | not =>
    refine ⟨[.boolean], .of_node hnest hle hid hn (.single rfl) (fun s hs => grows_single hs) ?_⟩
    exact fun s room hroom => hcode s room hroom fun e K hK =>
      ⟨_, .not hK, coversKinds_single fun k hk => hk ▸ rfl⟩

theorem isSound_parens {inner : NodeId} (hn : ctx.arena.get? id = some (.parenthesized inner))
    (h : IsSound ctx Γ levels inner ts) : IsSound ctx Γ (levels + 1) id ts :=
  .of_node hnest hle hid hn h.primitives h.type h.code

theorem isSound_constant (hn : ctx.arena.get? id = some n) (hc : n.isConstant) :
    ∃ ws, IsSound ctx Γ (levels + 1) id ws := by
  have hconstant {t : TypeId} {e : Code} {k : Kind} (ht : t.kind? = some k) (hp : t.isPrimitive)
      (htype : nodeType ctx.arena ctx.facts (ctx.facts.expressionType ctx.arena) n = pure t)
      (hcode : ∀ lower, expressionNode lower id n = pure e) (he : e.Makes Γ {k}) :
      ∃ ws, IsSound ctx Γ (levels + 1) id ws := by
    refine ⟨[t], .of_node hnest hle hid hn (.single hp) (fun s hs => ?_) fun s room _ => ?_⟩
    · rw [htype]
      exact grows_single hs
    · rw [hcode]
      exact .pure fun _ _ => ⟨_, he, coversKinds_single fun k' hk => hk ▸ ht⟩
  cases n with
  | number text => exact hconstant (t := .number) rfl rfl rfl (fun _ => rfl) (.number _)
  | string x => exact hconstant (t := .string) rfl rfl rfl (fun _ => rfl) (.string _)
  | boolean b => exact hconstant (t := .boolean) rfl rfl rfl (fun _ => rfl) (.boolean _)
  | null | undefined => exact hconstant (t := .nil) rfl rfl rfl (fun _ => rfl) .nil
  | _ => cases hc

theorem isSound_template {head : String} {spans : List (NodeId × String)}
    (hn : ctx.arena.get? id = some (.template head spans))
    (h : ∀ span ∈ spans, ∃ ts, IsSound ctx Γ levels span.1 ts) :
    IsSound ctx Γ (levels + 1) id [.string] := by
  refine .of_node hnest hle hid hn (.single rfl) (fun s hs => grows_single hs)
    fun s room hroom => ?_
  have hparts : ∀ span ∈ spans, ∀ s', Enlarges ctx s'
      (fun _ part => ∀ e ∈ part, MakesText Γ e)
      (do return [textOf (← expressionAt room span.1), Code.string span.2]) := by
    intro span hspan s'
    obtain ⟨ts, hsound⟩ := h span hspan
    refine (hsound.code s' room hroom).bind fun e s₁ _ he => .pure fun _ _ => ?_
    obtain ⟨K, hK, -⟩ := he
    have htext : MakesText Γ (textOf e) := ⟨_, subset_rfl, .text hK⟩
    exact List.forall_mem_cons.2 ⟨htext, List.forall_mem_singleton.2 (.string span.2)⟩
  refine (Enlarges.mapM hparts).bind fun parts s₁ _ hall => .pure fun _ _ => ?_
  have htexts : ∀ e ∈ Code.string head :: parts.flatten, MakesText Γ e := by
    refine List.forall_mem_cons.2 ⟨.string head, fun e he => ?_⟩
    obtain ⟨part, hpart, he⟩ := List.mem_flatten.1 he
    exact hall part hpart e he
  obtain ⟨K, hsub, hK⟩ := concatenated_makes fun e he => htexts e (List.mem_of_mem_filter he)
  exact ⟨K, hK, coversKinds_single fun k hk => hsub hk ▸ rfl⟩

section Variables

variable {x : String} (hx : (ctx.facts.declaredType x).isPrimitive)
  (hΓ : Γ (Lua.rename x) = (ctx.facts.declaredType x).kind?)

include hx hΓ

omit hnest hle hid in
theorem kind_of_declared : ∃ k, Γ (Lua.rename x) = some k ∧
    (ctx.facts.declaredType x).kind? = some k := by
  rw [hΓ]
  rcases TypeId.primitive_cases hx with h | h | h | h <;> rw [h] <;> exact ⟨_, rfl, rfl⟩

theorem isSound_name (hn : ctx.arena.get? id = some (.identifier x)) :
    IsSound ctx Γ (levels + 1) id [ctx.facts.declaredType x] := by
  obtain ⟨k, hk, hkind⟩ := kind_of_declared hx hΓ
  refine .of_node hnest hle hid hn (.single hx) (fun s hs => grows_single hs) fun s room _ => ?_
  exact .pure fun _ _ => ⟨_, .name hk, coversKinds_single fun k' hk' => hk' ▸ hkind⟩

omit hnest hle hid hx hΓ in
/-- A variable can be written to. -/
theorem placeAt?_variable {lower : Lowerer} {target : NodeId}
    (h : ctx.arena.get? (ctx.arena.strip target) = some (.identifier x)) :
    Enlarges ctx s (fun _ o => o = some (.variable (Lua.rename x))) (placeAt? lower id target) := by
  intro st he hw
  have hrun : placeAt? lower id target ctx st = (some (.variable (Lua.rename x)), st) := by
    unfold placeAt?
    simp only [bind, ReaderT.bind, read, readThe, MonadReaderOf.read, ReaderT.read, StateT.bind, pure,
      StateT.pure, h]
    rfl
  rw [hrun]
  exact ⟨hw, .refl st.store, rfl⟩

theorem isSound_update {operand : NodeId} {op : Source.UpdateOp} {before : Bool}
    (hn : ctx.arena.get? id = some (.update op before operand))
    (ht : ctx.arena.get? (ctx.arena.strip operand) = some (.identifier x)) :
    IsSound ctx Γ (levels + 1) id [.number] := by
  obtain ⟨k, hk, -⟩ := kind_of_declared hx hΓ
  have hop : (luaUpdate op).isArithmetic := by cases op <;> rfl
  refine .of_node hnest hle hid hn (.single rfl) (fun s hs => grows_single hs) fun s room _ => ?_
  have hupdate : Enlarges ctx s
      (fun _ o => o = some ((Place.variable (Lua.rename x)).update (luaUpdate op)
        (if before then .new else .old) .value))
      (update? (expressionAt room) op before operand .value) := by
    refine (placeAt?_variable ht).bind fun o s₁ _ ho => ?_
    subst ho
    exact .pure fun _ _ => rfl
  refine hupdate.bind fun o s₁ _ ho => ?_
  subst ho
  refine .pure fun _ _ => ?_
  cases before with
  | false => exact ⟨_, .step hk hop, coversKinds_single fun k hk => hk ▸ rfl⟩
  | true =>
    have hsum := Code.Makes.arithmetic hop (.name hk) (.number (toString (1 : Int)))
    refine ⟨_, .write hk hsum ?_, coversKinds_single fun k' hk' => hk'.1 ▸ rfl⟩
    rintro k' ⟨rfl, hnumber, -⟩
    exact hnumber

end Variables

end Nodes

/-- The operator of an assignment fits the type of the variable and the types of the value. -/
def OperatorFits (target : TypeId) (ts : List TypeId) : Option Lua.BinaryOp → Prop
  | none => ts = [target]
  | some op => op = .concat ∧ target = .string ∧ ts ≠ [.number] ∨
    op.isArithmetic ∧ target = .number

theorem addsToString_iff {t : TypeId} {target value : NodeId} (hp : t.isPrimitive)
    (ht : ctx.facts.expressionType ctx.arena target = pure t) (hv : IsSound ctx Γ levels value ts) :
    Enlarges ctx s (fun _ joins => joins = true ↔ t = .string ∨ ts = [.string])
      (addsToString target value) := by
  have htype : ∀ s', s'.WellFormed →
      Grows s' (fun _ u => u = t) (ctx.facts.expressionType ctx.arena target) := by
    intro s' hw
    rw [ht]
    exact .pure hw rfl
  have htarget : Enlarges ctx s (fun _ u => u = t) (typeOf target) :=
    withTypes_enlarges fun s' _ hw => htype s' hw
  refine htarget.bind fun u s₁ _ hu => ?_
  subst hu
  refine (askTypes_enlarges (P := fun _ joins => joins = true ↔ u = .string)
    fun s₂ _ hw₂ => ?_).bind fun joins s₂ _ hjoins => ?_
  · rw [(StandsFor.single s₂ u).isStringLike hw₂ (.single hp), List.singleton_inj]
  · cases joins with
    | true => exact .pure fun _ _ => iff_of_true rfl (.inl (hjoins.1 rfl))
    | false =>
      have hno : u ≠ .string := fun h => Bool.false_ne_true (hjoins.2 h)
      refine (typeOf_stands hv).bind fun w s₃ _ hw => ?_
      refine askTypes_enlarges fun s₄ he hw₄ => ?_
      rw [(hw.extends_ he).isStringLike hw₄ hv.primitives]
      exact (or_iff_right hno).symm

section Assignments

variable {base : TypeStore} {x : String} {target value : NodeId} {op : Source.AssignOp}
  (hx : (ctx.facts.declaredType x).isPrimitive) (hb : base.WellFormed)
  (hv : IsSound ctx Γ levels value ts)
  (hw : AssignsWithin (ctx.facts.declaredType x) op (ctx.facts.expressionType ctx.arena value base).1)

include hx hb hv hw

theorem compoundOp_fits
    (ht : ctx.facts.expressionType ctx.arena target = pure (ctx.facts.declaredType x)) :
    Enlarges ctx s (fun _ o => OperatorFits (ctx.facts.declaredType x) ts o)
      (compoundOp op target value) := by
  obtain ⟨hwb, -, hstands⟩ := hv.type base hb
  have harith {lop : Lua.BinaryOp} (hlop : lop.isArithmetic)
      (h : ctx.facts.declaredType x = .number) :
      OperatorFits (ctx.facts.declaredType x) ts (some lop) := .inr ⟨hlop, h⟩
  cases op with
  | plain =>
    refine .pure fun _ _ => ?_
    rw [AssignsWithin] at hw
    rw [hw] at hstands
    exact hstands.of_primitive hwb hx
  | sub | mul | div | mod => exact .pure fun _ _ => harith rfl hw
  | add =>
    refine (addsToString_iff hx ht hv).bind fun joins s₁ _ hjoins => .pure fun _ _ => ?_
    rcases hw with ⟨hstring, hne⟩ | ⟨hnumber, hvalue⟩
    · rw [hjoins.2 (.inl hstring)]
      refine .inl ⟨rfl, hstring, ?_⟩
      rintro rfl
      exact hne hstands.eq_of_single
    · rw [hvalue] at hstands
      have hts : ts = [.number] := hstands.of_primitive hwb rfl
      have hno : joins = false := by
        rw [Bool.eq_false_iff]
        intro h
        rcases hjoins.1 h with h | h
        · cases hnumber.symm.trans h
        · cases hts.symm.trans h
      rw [hno]
      exact harith rfl hnumber

end Assignments

/-- An assignment yields what it writes, and that is of the type of the variable. -/
theorem isSound_assign {base : TypeStore} {x : String} {target value : NodeId}
    {op : Source.AssignOp} (hnest : ctx.arena.nestsWithin (levels + 1) id)
    (hle : levels + 1 ≤ maxNesting) (hid : ctx.facts.nodes.get? id = none)
    (hn : ctx.arena.get? id = some (.assign target op value))
    (hx : (ctx.facts.declaredType x).isPrimitive)
    (hΓ : Γ (Lua.rename x) = (ctx.facts.declaredType x).kind?) (hb : base.WellFormed)
    (ht : ctx.arena.Denotes ctx.facts x target) (hv : IsSound ctx Γ levels value ts)
    (hw : AssignsWithin (ctx.facts.declaredType x) op
      (ctx.facts.expressionType ctx.arena value base).1) : IsSound ctx Γ (levels + 1) id ts := by
  obtain ⟨k, hk, hkind⟩ := kind_of_declared hx hΓ
  have htype := denotes_type ht (nestsWithin_child hnest hn List.mem_cons_self)
    (Nat.le_of_succ_le hle)
  refine .of_node hnest hle hid hn hv.primitives hv.type fun s room hroom => ?_
  have hassign : Enlarges ctx s
      (fun _ o => ∃ e K, o = some e ∧ e.Makes Γ K ∧ CoversKinds ts K)
      (assignment? (expressionAt room) id target op value .value) := by
    refine (compoundOp_fits hx hb hv hw htype).bind fun lop s₁ _ hfits => ?_
    refine (placeAt?_variable (denotes_strip ht)).bind fun o s₂ _ ho => ?_
    subst ho
    refine (hv.code s₂ room hroom).bind fun e s₃ _ he => .pure fun _ _ => ?_
    obtain ⟨K, hK, hc⟩ := he
    have hcode (o : Option Lua.BinaryOp) : (Place.variable (Lua.rename x)).assign o e .value =
        ((Place.variable (Lua.rename x)).newValue o e).keepAndStore (Lua.rename x)
          (.name valueTemp) := rfl
    rw [hcode]
    cases lop with
    | none =>
      refine ⟨_, K, rfl, .write hk hK fun k' hk' => ?_, hc⟩
      exact Option.some.inj ((hc _ hfits k' hk').symm.trans hkind)
    | some lop =>
      rcases hfits with ⟨rfl, hstring, hne⟩ | ⟨hlop, hnumber⟩
      · rw [hstring] at hkind
        refine ⟨_, _, rfl, .write hk (.concat (.name hk) hK) fun k' hk' => ?_, ?_⟩
        · exact hk'.1.trans (Option.some.inj hkind)
        · rintro t hts k' ⟨rfl, j, hj, hjoins⟩
          have hkt := hc t hts j hj
          cases j with
          | string => exact hkt
          | number => exact absurd (TypeId.eq_number hkt ▸ hts) hne
          | _ => cases hjoins
      · rw [hnumber] at hkind
        refine ⟨_, _, rfl, .write hk (.arithmetic hlop (.name hk) hK) fun k' hk' => ?_, ?_⟩
        · exact hk'.1.trans (Option.some.inj hkind)
        · rintro t hts k' ⟨rfl, -, hmem⟩
          exact hc t hts _ hmem
  refine hassign.bind fun o s₁ _ ho => .pure fun _ _ => ?_
  obtain ⟨e, K, rfl, hK, hc⟩ := ho
  exact ⟨K, hK, hc⟩

/-- All that is said of scalar expressions holds of them. -/
theorem IsScalar.isSound {base : TypeStore} {vars : Set String} (hb : base.WellFormed)
    (hvars : ∀ x ∈ vars, (ctx.facts.declaredType x).isPrimitive ∧
      Γ (Lua.rename x) = (ctx.facts.declaredType x).kind?)
    (h : IsScalar ctx.arena ctx.facts base vars id) (hnest : ctx.arena.nestsWithin levels id)
    (hle : levels ≤ maxNesting) : ∃ ts, IsSound ctx Γ levels id ts := by
  induction h generalizing levels with
  | constant hid hn hc =>
    obtain ⟨levels, rfl⟩ := exists_of_nestsWithin hnest
    exact isSound_constant hnest hle hid hn hc
  | name hid hn hx =>
    obtain ⟨levels, rfl⟩ := exists_of_nestsWithin hnest
    obtain ⟨hp, hΓ⟩ := hvars _ hx
    exact ⟨_, isSound_name hnest hle hid hp hΓ hn⟩
  | parens hid hn _ ih =>
    obtain ⟨levels, rfl⟩ := exists_of_nestsWithin hnest
    obtain ⟨ts, h⟩ := ih (nestsWithin_child hnest hn List.mem_cons_self) (Nat.le_of_succ_le hle)
    exact ⟨ts, isSound_parens hnest hle hid hn h⟩
  | template hid hn _ ih =>
    obtain ⟨levels, rfl⟩ := exists_of_nestsWithin hnest
    refine ⟨_, isSound_template hnest hle hid hn fun span hspan => ?_⟩
    have hchild := nestsWithin_child hnest hn (List.mem_map_of_mem hspan)
    exact ih span hspan hchild (Nat.le_of_succ_le hle)
  | unary hid hn _ ih =>
    obtain ⟨levels, rfl⟩ := exists_of_nestsWithin hnest
    obtain ⟨ts, h⟩ := ih (nestsWithin_child hnest hn List.mem_cons_self) (Nat.le_of_succ_le hle)
    exact isSound_unary hnest hle hid hn h
  | binary hid hn _ _ ihl ihr =>
    obtain ⟨levels, rfl⟩ := exists_of_nestsWithin hnest
    have hright := nestsWithin_child hnest hn (List.mem_cons_of_mem _ List.mem_cons_self)
    obtain ⟨ts, hl⟩ := ihl (nestsWithin_child hnest hn List.mem_cons_self) (Nat.le_of_succ_le hle)
    obtain ⟨us, hr⟩ := ihr hright (Nat.le_of_succ_le hle)
    exact isSound_binary hnest hle hid hn hl hr
  | update hid hn ht hx =>
    obtain ⟨levels, rfl⟩ := exists_of_nestsWithin hnest
    obtain ⟨hp, hΓ⟩ := hvars _ hx
    exact ⟨_, isSound_update hnest hle hid hp hΓ hn (denotes_strip ht)⟩
  | assign hid hn ht hx _ hw ih =>
    obtain ⟨levels, rfl⟩ := exists_of_nestsWithin hnest
    obtain ⟨hp, hΓ⟩ := hvars _ hx
    have hvalue := nestsWithin_child hnest hn (List.mem_cons_of_mem _ List.mem_cons_self)
    obtain ⟨ts, hv⟩ := ih hvalue (Nat.le_of_succ_le hle)
    exact ⟨ts, isSound_assign hnest hle hid hn hp hΓ hb ht hv hw⟩

end Sound

/-- The variables hold values of their declared types. -/
def HoldsDeclared (f : TypeFacts) (vars : Set String) (c : Lua.Chain) (m : Lua.Machine) : Prop :=
  ∀ x ∈ vars, ∃ v, m.lookup? c (Lua.rename x) = some v ∧ (f.declaredType x).kind? = some v.kind

open Classical in
/-- The kinds of the values that variables hold. -/
noncomputable def kindsOf (vars : Set String) (c : Lua.Chain) (m : Lua.Machine) (y : String) :
    Option Kind :=
  if ∃ x ∈ vars, Lua.rename x = y then (m.lookup? c y).map Lua.Value.kind else none

section Run

variable {ctx : Context} {base : TypeStore} {vars : Set String} {id : NodeId} {st : State}
  {c : Lua.Chain} {m m' : Lua.Machine} {v : Lua.Value} {room : Nat}

theorem kindsOf_variable (h : HoldsDeclared ctx.facts vars c m) {x : String} (hx : x ∈ vars) :
    kindsOf vars c m (Lua.rename x) = (ctx.facts.declaredType x).kind? := by
  obtain ⟨v, hv, hk⟩ := h x hx
  rw [kindsOf, if_pos ⟨x, hx, rfl⟩, hv, hk, Option.map_some]

theorem holds_kindsOf (hc : ∀ i ∈ c, i < m.scopes.size)
    (htostring : m.lookup? c "tostring" = some (.builtin .tostring))
    (h : HoldsDeclared ctx.facts vars c m) : m.Holds (kindsOf vars c m) c where
  scopes := hc
  kinds y k hy := by
    unfold kindsOf at hy
    split at hy
    · obtain ⟨v, hv, hk⟩ := Option.map_eq_some_iff.1 hy
      exact ⟨v, hv, hk⟩
    · cases hy
  tostring := htostring
  unshadowed := by
    rw [kindsOf, if_neg]
    rintro ⟨x, hx, hname⟩
    obtain ⟨v, hv, hk⟩ := h x hx
    rw [hname, htostring] at hv
    obtain rfl := Option.some.inj hv
    exact TypeId.kind?_ne_function _ hk

/-- Where a primitive type is inferred for an expression, the value of its code is of that type, and
all variables still hold values of their types. -/
theorem expression_kind (hb : base.WellFormed) (hs : st.store.WellFormed)
    (h : IsScalar ctx.arena ctx.facts base vars id)
    (hnest : ctx.arena.nestsWithin maxNesting id) (hc : ∀ i ∈ c, i < m.scopes.size)
    (htostring : m.lookup? c "tostring" = some (.builtin .tostring))
    (hvars : HoldsDeclared ctx.facts vars c m)
    (hrun : (expression id ctx st).1.eval (Lua.callAt room) c m = (.ok v, m')) :
    (∀ k, (ctx.facts.expressionType ctx.arena id base).1.kind? = some k → v.kind = k) ∧
      HoldsDeclared ctx.facts vars c m' := by
  have htyped (x : String) (hx : x ∈ vars) : (ctx.facts.declaredType x).isPrimitive ∧
      kindsOf vars c m (Lua.rename x) = (ctx.facts.declaredType x).kind? := by
    obtain ⟨v, -, hk⟩ := hvars x hx
    exact ⟨TypeId.primitive_of_kind? hk, kindsOf_variable hvars hx⟩
  obtain ⟨ts, hsound⟩ := h.isSound hb htyped hnest le_rfl
  obtain ⟨-, -, K, hmakes, hcovers⟩ := hsound.code st.store maxNesting le_rfl st (.refl _) hs
  have hholds := holds_kindsOf hc htostring hvars
  obtain ⟨hv, hholds', -⟩ := (hmakes.sound room c).run m v m' hholds hrun
  refine ⟨fun k hk => ?_, fun x hx => ?_⟩
  · obtain ⟨hw, -, hstands⟩ := hsound.type base hb
    have hts := hstands.of_primitive hw (TypeId.primitive_of_kind? hk)
    exact Option.some.inj ((hcovers _ hts v.kind hv).symm.trans hk)
  · obtain ⟨w, -, hk⟩ := hvars x hx
    obtain ⟨w', hw', hkind⟩ := hholds'.kinds (Lua.rename x) w.kind
      ((kindsOf_variable hvars hx).trans hk)
    exact ⟨w', hw', by rw [hkind, hk]⟩

end Run

section Words

open Lua (Machine Value callAt maxCallDepth)

/-- `(s += "!") + n` and `s += 1`, where `s` is a string and `n` a number. -/
def wordContext : Context where
  arena :=
    let nodes : List Node :=
      [.identifier "s", .string "!", .assign ⟨0⟩ .add ⟨1⟩, .parenthesized ⟨2⟩, .identifier "n",
        .binary ⟨3⟩ .add ⟨4⟩, .number "1", .assign ⟨0⟩ .add ⟨6⟩]
    ⟨(nodes.map fun n => (n, ⟨0, 0⟩)).toArray⟩
  facts := (TypeFacts.empty.declare "s" .string).declare "n" .number
  fold := true
  file := "a.ts"

def wordState : State := ⟨.initial, [], false⟩

def wordMachine : Machine := (Machine.initial.setGlobal "s" (.string "x")).setGlobal "n" (.number 1)

theorem wordMachine_holds : HoldsDeclared wordContext.facts {"s", "n"} [] wordMachine := by
  rintro x (rfl | rfl)
  · exact ⟨.string "x", rfl, rfl⟩
  · exact ⟨.number 1, rfl, rfl⟩

/-- A string that grows while it is read. -/
theorem expression_kind_of_growing :
    ∃ v m', (expression ⟨5⟩ wordContext wordState).1.eval (callAt maxCallDepth) [] wordMachine =
        (.ok v, m') ∧
      v.kind = .string ∧ HoldsDeclared wordContext.facts {"s", "n"} [] m' := by
  have hvalue : IsScalar wordContext.arena wordContext.facts .initial {"s", "n"} ⟨1⟩ :=
    .constant rfl rfl rfl
  have hassign : IsScalar wordContext.arena wordContext.facts .initial {"s", "n"} ⟨2⟩ :=
    .assign rfl rfl (.name rfl rfl) (.inl rfl) hvalue (.inl ⟨rfl, by decide +kernel⟩)
  have hsum : IsScalar wordContext.arena wordContext.facts .initial {"s", "n"} ⟨5⟩ :=
    .binary rfl rfl (.parens rfl rfl hassign) (.name rfl rfl (.inr rfl))
  have hcode : (expression ⟨5⟩ wordContext wordState).1 =
      .binary (Code.keepAndStore (.binary (.name "s") .concat (.string "!")) "s" (.name valueTemp))
        .concat (.name "n") := by cbv
  obtain ⟨v, m', hrun⟩ : ∃ v m', (expression ⟨5⟩ wordContext wordState).1.eval
      (callAt maxCallDepth) [] wordMachine = (.ok v, m') := by
    rw [hcode]
    exact ⟨_, _, rfl⟩
  obtain ⟨hkind, hholds⟩ := expression_kind initial_wellFormed initial_wellFormed hsum
    (by decide +kernel) (fun _ h => absurd h List.not_mem_nil) rfl wordMachine_holds hrun
  exact ⟨v, m', hrun, hkind .string (by decide +kernel), hholds⟩

/-- A number that is added to a string gives a string, but is typed as a number. -/
theorem not_kind_of_added_number :
    IsScalar wordContext.arena wordContext.facts .initial {"s", "n"} ⟨6⟩ ∧
    (wordContext.facts.expressionType wordContext.arena ⟨7⟩ .initial).1 = .number ∧
    ∃ v m', (expression ⟨7⟩ wordContext wordState).1.eval (callAt maxCallDepth) [] wordMachine =
      (.ok v, m') ∧ v.kind = .string := by
  have hcode : (expression ⟨7⟩ wordContext wordState).1 =
      Code.keepAndStore (.binary (.name "s") .concat (.number "1")) "s" (.name valueTemp) := by cbv
  refine ⟨.constant rfl rfl rfl, by decide +kernel, ?_⟩
  rw [hcode]
  exact ⟨_, _, rfl, rfl⟩

end Words

end Lowering

end ScriptToLua
