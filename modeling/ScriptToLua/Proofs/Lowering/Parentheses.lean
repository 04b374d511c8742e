import Mathlib
import ScriptToLua.Compile
import ScriptToLua.Proofs.Lowering.Growth
import ScriptToLua.Proofs.Source.Strip
import ScriptToLua.Proofs.Types.Parentheses

/-!
Parentheses around an expression change neither the chunk nor what is reported, wherever the
expression stands: `lowerFile_parenthesize`.
-/

namespace ScriptToLua

open Lua (Code Field)
open Source (Arena Node NodeId Span Stands)

/-- What a diagnostic says, wherever it says it. -/
def Diagnostic.said (d : Diagnostic) : Nat × String := (d.code, d.text)

namespace Lowering

/-- The same file with the node at `w` in parentheses. -/
def Context.parenthesize (ctx : Context) (w : NodeId) (span : Span) : Context :=
  { ctx with arena := ctx.arena.parenthesize w span }

@[simp]
theorem Context.parenthesize_arena (ctx : Context) (w : NodeId) (span : Span) :
    (ctx.parenthesize w span).arena = ctx.arena.parenthesize w span := rfl

theorem Context.get?_shiftAfter (ctx : Context) (w : NodeId) (span : Span) (id : NodeId) :
    (ctx.parenthesize w span).arena.get? (w.shiftAfter id) =
      (ctx.arena.get? id).map (Node.mapRefs w.shiftFrom) := Arena.get?_shiftAfter id

/-- The states differ at most in where problems are. -/
structure State.Matches (st st' : State) : Prop where
  store : st'.store = st.store
  reported : st'.reported.map Diagnostic.said = st.reported.map Diagnostic.said
  depthReported : st'.depthReported = st.depthReported

/-- With the types of `base` stored, both lowerings have the same result and the same to report. -/
def Matches {α : Type} (ctx ctx' : Context) (base : TypeStore) (act act' : LowerM α) : Prop :=
  ∀ st st' : State, base.Extends st.store → st.Matches st' →
    (act' ctx' st').1 = (act ctx st).1 ∧ base.Extends (act ctx st).2.store ∧
      (act ctx st).2.Matches (act' ctx' st').2

namespace Matches

variable {ctx ctx' : Context} {base : TypeStore} {α β γ : Type}

theorem pure (a : α) : Matches ctx ctx' base (Pure.pure a) (Pure.pure a) :=
  fun _ _ he hst => ⟨rfl, he, hst⟩

/-- What comes after the same results; `P` is what is known of them. -/
theorem bind_of {P : α → Prop} {act act' : LowerM α} {next next' : α → LowerM β}
    (h : Matches ctx ctx' base act act') (hp : ∀ st, base.Extends st.store → P (act ctx st).1)
    (hn : ∀ a, P a → Matches ctx ctx' base (next a) (next' a)) :
    Matches ctx ctx' base (act >>= next) (act' >>= next') := by
  intro st st' he hst
  obtain ⟨hresult, he', hst'⟩ := h st st' he hst
  have hnext := hn _ (hp st he) (act ctx st).2 (act' ctx' st').2 he' hst'
  rw [← hresult] at hnext
  have hrun : (act >>= next) ctx st = next (act' ctx' st').1 ctx (act ctx st).2 := by
    rw [hresult]
    rfl
  rw [hrun]
  exact hnext

theorem bind {act act' : LowerM α} {next next' : α → LowerM β}
    (h : Matches ctx ctx' base act act') (hn : ∀ a, Matches ctx ctx' base (next a) (next' a)) :
    Matches ctx ctx' base (act >>= next) (act' >>= next') :=
  h.bind_of (P := fun _ => True) (fun _ _ => trivial) fun a _ => hn a

/-- What runs like one of the computations can stand in its place. -/
theorem congr_left {act act₀ act' : LowerM α} (h : Matches ctx ctx' base act₀ act')
    (heq : ∀ st, base.Extends st.store → act ctx st = act₀ ctx st) :
    Matches ctx ctx' base act act' := by
  intro st st' he hst
  rw [heq st he]
  exact h st st' he hst

theorem congr_right {act act' act₀ : LowerM α} (h : Matches ctx ctx' base act act₀)
    (heq : ∀ st, act' ctx' st = act₀ ctx' st) : Matches ctx ctx' base act act' := by
  intro st st' he hst
  rw [heq st']
  exact h st st' he hst

theorem extends_ {act act' : LowerM α} (h : Matches ctx ctx' base act act') {st : State}
    (he : base.Extends st.store) : base.Extends (act ctx st).2.store :=
  (h st st he ⟨rfl, rfl, rfl⟩).2.1

/-- What comes after a look at the context. -/
theorem bind_read {next next' : Context → LowerM β}
    (h : Matches ctx ctx' base (next ctx) (next' ctx')) :
    Matches ctx ctx' base (read >>= next) (read >>= next') := h

/-- What comes after a look at a node. -/
theorem bind_node? {id id' : NodeId} {next next' : Option Node → LowerM β}
    (h : Matches ctx ctx' base (next (ctx.arena.get? id)) (next' (ctx'.arena.get? id'))) :
    Matches ctx ctx' base (node? id >>= next) (node? id' >>= next') := h

theorem withTypes {act act' : TypeM α} (h : SameFrom base act act') :
    Matches ctx ctx' base (withTypes act) (withTypes act') := by
  intro st st' he hst
  obtain ⟨hrun, he'⟩ := h st.store he
  have hrun' : act' st'.store = act st.store := hst.store ▸ hrun
  have hresult : (act' st'.store).1 = (act st.store).1 := congrArg Prod.fst hrun'
  have hstore : (act' st'.store).2 = (act st.store).2 := congrArg Prod.snd hrun'
  exact ⟨hresult, he', hstore, hst.reported, hst.depthReported⟩

theorem askTypes (ask : TypeStore → α) : Matches ctx ctx' base (askTypes ask) (askTypes ask) :=
  fun _ _ he hst => ⟨congrArg ask hst.store, he, hst⟩

theorem report (id id' : NodeId) (p : Problem) :
    Matches ctx ctx' base (report id p) (report id' p) := by
  intro st st' he hst
  have hsaid := congrArg (List.cons (p.message.code, Text.fill p.message.template p.details))
    hst.reported
  exact ⟨rfl, he, hst.store, hsaid, hst.depthReported⟩

theorem mapM {f f' : γ → LowerM α} {g : γ → γ} {l : List γ}
    (h : ∀ c ∈ l, Matches ctx ctx' base (f c) (f' (g c))) :
    Matches ctx ctx' base (l.mapM f) ((l.map g).mapM f') := by
  induction l with
  | nil => exact .pure []
  | cons c l ih =>
    rw [List.map_cons, List.mapM_cons, List.mapM_cons]
    refine (h c List.mem_cons_self).bind fun a => ?_
    exact (ih fun d hd => h d (List.mem_cons_of_mem c hd)).bind fun as => .pure (a :: as)

end Matches

/-- The node at `w` can be put into parentheses: nothing is recorded about single nodes, and it is not
a string that names a member. -/
structure CanWrap (ctx : Context) (base : TypeStore) (w : NodeId) : Prop where
  isTree : ctx.arena.IsTree
  has : ctx.arena.Has w
  untyped : ∀ id, ctx.facts.nodes.get? id = none
  key : NamesNoMember ctx.arena ctx.facts base w

section Functions

variable {ctx : Context} {base : TypeStore} {w : NodeId} {span : Span} (hw : CanWrap ctx base w)
  {levels : Nat} (hlevels : levels ≤ maxNesting) {lower lower' : Lowerer}
  (hl : ∀ id id', Stands w id id' → (ctx.arena.parenthesize w span).nestsWithin levels id' →
    Matches ctx (ctx.parenthesize w span) base (lower id) (lower' id'))

theorem exists_stripLayers (a : Arena) (layers : Nat) (id : NodeId) :
    ∃ k, underParens a layers id = a.stripLayers k id := by
  induction layers generalizing id with
  | zero => exact ⟨0, rfl⟩
  | succ layers ih =>
    rw [underParens]
    split
    · next inner hn =>
      obtain ⟨k, hk⟩ := ih inner
      refine ⟨k + 1, hk.trans ?_⟩
      simp only [Arena.stripLayers, Arena.peel?, hn]
    · exact ⟨0, rfl⟩

/-- What is no object literal does not depend on the type that is expected. -/
theorem lowerInContext_run (ctx : Context) {e inner : NodeId}
    (hi : underParens ctx.arena ctx.arena.size e = inner)
    (h : ∀ properties, ctx.arena.get? inner ≠ some (.object properties)) (lower : Lowerer)
    (t : TypeId) (st : State) : lowerInContext lower e t ctx st = lower inner ctx st := by
  have hread : (read : LowerM Context) ctx st = (ctx, st) := rfl
  rw [lowerInContext, bind_run, hread]
  dsimp only
  rw [hi]
  cases hn : ctx.arena.get? inner with
  | none => rfl
  | some n =>
    cases n with
    | object properties => exact absurd hn (h properties)
    | _ => rfl

/-- On the way down to an access, what is in parentheses or asserted is lowered like some node that is
nested less deeply. -/
theorem expressionAt_peel (ctx : Context) {id inner receiver key : NodeId} {layers : Nat}
    (hnest : ctx.arena.nestsWithin (levels + 1) id) (hp : ctx.arena.peel? id = some inner)
    (he : ctx.arena.get? (ctx.arena.stripLayers layers inner) = some (.element receiver key))
    (room : Nat) :
    ∃ next, ctx.arena.nestsWithin levels next ∧
      ctx.arena.stripLayers layers next = ctx.arena.stripLayers layers inner ∧
      ∀ st, expressionAt (room + 1) id ctx st = expressionAt room next ctx st := by
  unfold Arena.peel? at hp
  split at hp
  · next inner hn =>
    cases hp
    exact ⟨_, nestsWithin_child hnest hn List.mem_cons_self, rfl, expressionAt_run hn room⟩
  · next e t hn =>
    cases hp
    have hsettled : ctx.arena.peel? (ctx.arena.stripLayers layers inner) = none := by
      rw [Arena.peel?, he]
    obtain ⟨k, hk⟩ := exists_stripLayers ctx.arena ctx.arena.size inner
    have hsame : ctx.arena.stripLayers layers (underParens ctx.arena ctx.arena.size inner) =
        ctx.arena.stripLayers layers inner := by
      rw [hk, ← Arena.stripLayers_add, Arena.stripLayers_of_le hsettled (Nat.le_add_left _ _)]
    have hinner := underParens_closed (P := fun id => ctx.arena.nestsWithin levels id)
      nestsWithin_of_mem_children ctx.arena.size (nestsWithin_child hnest hn List.mem_cons_self)
    refine ⟨_, hinner, hsame, fun st => ?_⟩
    rw [expressionAt_run hn]
    refine lowerInContext_run ctx rfl (fun properties hobject => ?_) _ t st
    rw [← hsame, Arena.stripLayers_of_peel?_none (by rw [Arena.peel?, hobject]), hobject] at he
    cases he
  · cases hp

/-- An access in parentheses and assertions is read like the access itself, with less room. -/
theorem expressionAt_descend (ctx : Context) {id receiver key : NodeId} {layers room : Nat}
    (hnest : ctx.arena.nestsWithin levels id) (hroom : levels ≤ room)
    (he : ctx.arena.get? (ctx.arena.stripLayers layers id) = some (.element receiver key)) :
    ∃ levels' < levels, ∃ room', levels' ≤ room' ∧ ctx.arena.nestsWithin levels' receiver ∧
      ctx.arena.nestsWithin levels' key ∧ ∀ st, expressionAt room id ctx st =
        (elementAccess (expressionAt room') receiver key >>= readAccess) ctx st := by
  induction layers generalizing levels room id with
  | zero =>
    obtain ⟨levels, rfl⟩ := exists_of_nestsWithin hnest
    obtain ⟨room, rfl⟩ : ∃ k, room = k + 1 := ⟨room - 1, by omega⟩
    rw [Arena.stripLayers] at he
    refine ⟨levels, Nat.lt_succ_self _, room, by omega, nestsWithin_child hnest he List.mem_cons_self,
      nestsWithin_child hnest he (List.mem_cons_of_mem _ List.mem_cons_self), fun st => ?_⟩
    rw [expressionAt_run he]
    rfl
  | succ layers ih =>
    rw [Arena.stripLayers] at he
    obtain ⟨levels, rfl⟩ := exists_of_nestsWithin hnest
    obtain ⟨room, rfl⟩ : ∃ k, room = k + 1 := ⟨room - 1, by omega⟩
    cases hp : ctx.arena.peel? id with
    | none =>
      rw [hp] at he
      exact ih hnest hroom (by rwa [Arena.stripLayers_of_peel?_none hp])
    | some inner =>
      rw [hp] at he
      dsimp only at he
      obtain ⟨next, hnext, hlayers, hrun⟩ := expressionAt_peel ctx hnest hp he room
      obtain ⟨levels', hlt, room', hroom', hr, hk, hread⟩ :=
        ih hnext (Nat.le_of_succ_le_succ hroom) (hlayers ▸ he)
      exact ⟨levels', Nat.lt_succ_of_lt hlt, room', hroom', hr, hk,
        fun st => (hrun st).trans (hread st)⟩

theorem nestsWithin_shiftFrom {id c : NodeId} {n : Node} (hn : ctx.arena.get? id = some n)
    (hnest : (ctx.arena.parenthesize w span).nestsWithin levels (w.shiftAfter id))
    (hc : c ∈ n.children) : (ctx.arena.parenthesize w span).nestsWithin levels (w.shiftFrom c) :=
  nestsWithin_of_mem_children hnest (Arena.mem_children_shiftAfter hn hc)

include hw in
theorem nestsWithin_strip {id id' : NodeId} (h : Stands w id id')
    (hnest : (ctx.arena.parenthesize w span).nestsWithin levels id') :
    (ctx.arena.parenthesize w span).nestsWithin levels (w.shiftAfter (ctx.arena.strip id)) := by
  rw [← h.strip hw.isTree hw.has]
  exact strip_closed nestsWithin_of_mem_children hnest

include hw hlevels in
theorem typeOf_matches {id id' : NodeId} (h : Stands w id id')
    (hnest : (ctx.arena.parenthesize w span).nestsWithin levels id') :
    Matches ctx (ctx.parenthesize w span) base (typeOf id) (typeOf id') :=
  .withTypes (Typing.typeAt_stands hw.has hw.untyped hw.key h hnest hlevels hlevels hlevels)

theorem shapeOf_matches (t : TypeId) :
    Matches ctx (ctx.parenthesize w span) base (withTypes (shapeOf t)) (withTypes (shapeOf t)) :=
  .withTypes (.of_onlyAdds (shapeOf_onlyAdds t))

theorem ofType_matches (receiver : Code) (key : AccessKey) (t : TypeId) :
    Matches ctx (ctx.parenthesize w span) base (withTypes (Access.ofType receiver key t))
      (withTypes (Access.ofType receiver key t)) := by
  have haccess (shape : Shape) : Matches ctx (ctx.parenthesize w span) base
      (pure (⟨receiver, key, shape⟩ : Access)) (pure ⟨receiver, key, shape⟩) := .pure _
  exact (shapeOf_matches t).bind haccess

theorem readAccess_matches (a : Access) :
    Matches ctx (ctx.parenthesize w span) base (readAccess a) (readAccess a) :=
  .bind_read (.askTypes _)

include hl in
theorem lower_matches {id : NodeId}
    (h : (ctx.arena.parenthesize w span).nestsWithin levels (w.shiftFrom id)) :
    Matches ctx (ctx.parenthesize w span) base (lower id) (lower' (w.shiftFrom id)) :=
  hl id _ (.reference w id) h

include hw hlevels hl

theorem namedAccess_matches {receiver : NodeId} (name : String)
    (h : (ctx.arena.parenthesize w span).nestsWithin levels (w.shiftFrom receiver)) :
    Matches ctx (ctx.parenthesize w span) base (namedAccess lower receiver name)
      (namedAccess lower' (w.shiftFrom receiver) name) :=
  (typeOf_matches hw hlevels (.reference w receiver) h).bind fun _ =>
    (lower_matches hl h).bind fun _ => ofType_matches _ _ _

theorem elementAccess_matches {receiver key : NodeId}
    (h : (ctx.arena.parenthesize w span).nestsWithin levels (w.shiftFrom receiver))
    (hk : (ctx.arena.parenthesize w span).nestsWithin levels (w.shiftFrom key)) :
    Matches ctx (ctx.parenthesize w span) base (elementAccess lower receiver key)
      (elementAccess lower' (w.shiftFrom receiver) (w.shiftFrom key)) :=
  (typeOf_matches hw hlevels (.reference w receiver) h).bind fun _ =>
    (lower_matches hl h).bind fun _ =>
      (typeOf_matches hw hlevels (.reference w key) hk).bind fun _ =>
        (lower_matches hl hk).bind fun _ => ofType_matches _ _ _

theorem accessAt?_matches {id : NodeId}
    (h : (ctx.arena.parenthesize w span).nestsWithin levels (w.shiftAfter id)) :
    Matches ctx (ctx.parenthesize w span) base (accessAt? lower id)
      (accessAt? lower' (w.shiftAfter id)) := by
  refine .bind_node? ?_
  rw [ctx.get?_shiftAfter]
  cases hn : ctx.arena.get? id with
  | none => exact .pure none
  | some n =>
    have hchild {c : NodeId} (hc : c ∈ n.children) := nestsWithin_shiftFrom hn h hc
    cases n with
    | property receiver name =>
      exact (namedAccess_matches hw hlevels hl name (hchild List.mem_cons_self)).bind fun _ => .pure _
    | element receiver key =>
      exact (elementAccess_matches hw hlevels hl (hchild List.mem_cons_self)
        (hchild (List.mem_cons_of_mem _ List.mem_cons_self))).bind fun _ => .pure _
    | _ => exact .pure none

theorem hybridProperty_matches {p : Source.Key × NodeId}
    (h : ∀ c ∈ p.1.node?.toList ++ [p.2],
      (ctx.arena.parenthesize w span).nestsWithin levels (w.shiftFrom c)) :
    Matches ctx (ctx.parenthesize w span) base (hybridProperty lower p)
      (hybridProperty lower' (p.1.mapRefs w.shiftFrom, w.shiftFrom p.2)) := by
  obtain ⟨key, value⟩ := p
  have hvalue := lower_matches hl (h value (List.mem_append_right _ List.mem_cons_self))
  cases key with
  | computed key =>
    have hkey := h key List.mem_cons_self
    refine (typeOf_matches hw hlevels (.reference w key) hkey).bind fun t => ?_
    refine (lower_matches hl hkey).bind fun k => hvalue.bind fun v => ?_
    refine (Matches.askTypes _).bind fun number => ?_
    split <;> exact .pure _
  | _ => exact hvalue.bind fun v => .pure _

omit hw hlevels in
theorem recordField_matches {p : Source.Key × NodeId}
    (h : ∀ c ∈ p.1.node?.toList ++ [p.2],
      (ctx.arena.parenthesize w span).nestsWithin levels (w.shiftFrom c)) :
    Matches ctx (ctx.parenthesize w span) base (recordField lower p)
      (recordField lower' (p.1.mapRefs w.shiftFrom, w.shiftFrom p.2)) := by
  obtain ⟨key, value⟩ := p
  have hvalue := lower_matches hl (h value (List.mem_append_right _ List.mem_cons_self))
  cases key with
  | computed key =>
    exact (lower_matches hl (h key List.mem_cons_self)).bind fun k => hvalue.bind fun v => .pure _
  | _ => exact hvalue.bind fun v => .pure _

theorem objectLiteral_matches {properties : List (Source.Key × NodeId)} (t : TypeId)
    (h : ∀ c ∈ (Node.object properties).children,
      (ctx.arena.parenthesize w span).nestsWithin levels (w.shiftFrom c)) :
    Matches ctx (ctx.parenthesize w span) base (objectLiteral lower properties t)
      (objectLiteral lower' (properties.map fun p => (p.1.mapRefs w.shiftFrom, w.shiftFrom p.2))
        t) := by
  have hparts {p : Source.Key × NodeId} (hp : p ∈ properties) {c : NodeId}
      (hc : c ∈ p.1.node?.toList ++ [p.2]) := h c (List.mem_flatMap.2 ⟨p, hp, hc⟩)
  refine (shapeOf_matches t).bind fun shape => ?_
  split
  · refine .bind_read ((Matches.mapM fun p hp => ?_).bind fun _ => .pure _)
    exact hybridProperty_matches hw hlevels hl fun c hc => hparts hp hc
  · refine (Matches.mapM fun p hp => ?_).bind fun _ => .pure _
    exact recordField_matches hl fun c hc => hparts hp hc

theorem lowerInContext_matches {e e' : NodeId} (h : Stands w e e')
    (hnest : (ctx.arena.parenthesize w span).nestsWithin levels e') (t : TypeId) :
    Matches ctx (ctx.parenthesize w span) base (lowerInContext lower e t)
      (lowerInContext lower' e' t) := by
  have hinner : (ctx.arena.parenthesize w span).nestsWithin levels
      (underParens _ (ctx.arena.parenthesize w span).size e') :=
    underParens_closed nestsWithin_of_mem_children _ hnest
  refine .bind_read ?_
  rw [Context.parenthesize_arena]
  dsimp only
  rw [h.underParens hw.isTree hw.has] at hinner ⊢
  generalize underParens ctx.arena ctx.arena.size e = inner at hinner ⊢
  have hlower := hl inner _ (.node inner) hinner
  rw [Arena.get?_shiftAfter]
  cases hn : ctx.arena.get? inner with
  | none => exact hlower
  | some n =>
    cases n with
    | object properties =>
      dsimp only [Option.map_some, Node.mapRefs]
      split
      · exact hlower
      · exact objectLiteral_matches hw hlevels hl t fun c hc => nestsWithin_shiftFrom hn hinner hc
    | _ => exact hlower

omit hw hlevels in
theorem mapM_matches {ids : List NodeId}
    (h : ∀ c ∈ ids, (ctx.arena.parenthesize w span).nestsWithin levels (w.shiftFrom c)) :
    Matches ctx (ctx.parenthesize w span) base (ids.mapM lower)
      ((ids.map w.shiftFrom).mapM lower') :=
  .mapM fun c hc => lower_matches hl (h c hc)

omit hw hlevels in
theorem template_matches (head : String) {spans : List (NodeId × String)}
    (h : ∀ c ∈ spans.map Prod.fst,
      (ctx.arena.parenthesize w span).nestsWithin levels (w.shiftFrom c)) :
    Matches ctx (ctx.parenthesize w span) base (template lower head spans)
      (template lower' head (spans.map fun p => (w.shiftFrom p.1, p.2))) := by
  refine (Matches.mapM fun p hp => ?_).bind fun _ => .pure _
  exact (lower_matches hl (h p.1 (List.mem_map_of_mem hp))).bind fun _ => .pure _

omit hw hlevels in
theorem concatOperand_matches {id : NodeId} (t : TypeId)
    (h : (ctx.arena.parenthesize w span).nestsWithin levels (w.shiftFrom id)) :
    Matches ctx (ctx.parenthesize w span) base (concatOperand lower id t)
      (concatOperand lower' (w.shiftFrom id) t) := by
  refine (lower_matches hl h).bind fun code => (Matches.askTypes _).bind fun joins => ?_
  split <;> exact .pure _

theorem sum_matches {left right : NodeId}
    (h : (ctx.arena.parenthesize w span).nestsWithin levels (w.shiftFrom left))
    (h' : (ctx.arena.parenthesize w span).nestsWithin levels (w.shiftFrom right)) :
    Matches ctx (ctx.parenthesize w span) base (sum lower left right)
      (sum lower' (w.shiftFrom left) (w.shiftFrom right)) := by
  refine (typeOf_matches hw hlevels (.reference w left) h).bind fun leftType => ?_
  refine (typeOf_matches hw hlevels (.reference w right) h').bind fun rightType => ?_
  refine (Matches.askTypes _).bind fun text => ?_
  split
  · exact (concatOperand_matches hl leftType h).bind fun _ =>
      (concatOperand_matches hl rightType h').bind fun _ => .pure _
  · exact (lower_matches hl h).bind fun _ => (lower_matches hl h').bind fun _ => .pure _

theorem binary_matches (op : Source.BinaryOp) {left right : NodeId}
    (h : (ctx.arena.parenthesize w span).nestsWithin levels (w.shiftFrom left))
    (h' : (ctx.arena.parenthesize w span).nestsWithin levels (w.shiftFrom right)) :
    Matches ctx (ctx.parenthesize w span) base (binary lower left op right)
      (binary lower' (w.shiftFrom left) op (w.shiftFrom right)) := by
  unfold binary
  split
  · exact sum_matches hw hlevels hl h h'
  · exact (lower_matches hl h).bind fun _ => (lower_matches hl h').bind fun _ => .pure _

omit hl in
theorem addsToString_matches {target value : NodeId}
    (h : (ctx.arena.parenthesize w span).nestsWithin levels (w.shiftFrom target))
    (h' : (ctx.arena.parenthesize w span).nestsWithin levels (w.shiftFrom value)) :
    Matches ctx (ctx.parenthesize w span) base (addsToString target value)
      (addsToString (w.shiftFrom target) (w.shiftFrom value)) := by
  refine (typeOf_matches hw hlevels (.reference w target) h).bind fun _ => ?_
  refine (Matches.askTypes _).bind fun text => ?_
  split
  · exact .pure true
  · exact (typeOf_matches hw hlevels (.reference w value) h').bind fun _ => .askTypes _

omit hl in
theorem compoundOp_matches (op : Source.AssignOp) {target value : NodeId}
    (h : (ctx.arena.parenthesize w span).nestsWithin levels (w.shiftFrom target))
    (h' : (ctx.arena.parenthesize w span).nestsWithin levels (w.shiftFrom value)) :
    Matches ctx (ctx.parenthesize w span) base (compoundOp op target value)
      (compoundOp op (w.shiftFrom target) (w.shiftFrom value)) := by
  cases op with
  | add => exact (addsToString_matches hw hlevels h h').bind fun _ => .pure _
  | _ => exact .pure _

/-- The place of the access that was found at a target. -/
def placeOf (id : NodeId) (fold : Bool) : Option Access → LowerM (Option Place)
  | none => do
    report id .invalidTarget
    return none
  | some a => do
    if ← askTypes fun s => a.isLength s fold then
      report id .lengthAssignment
      return none
    else askTypes fun s => some (a.place s fold)

omit hw hlevels hl in
theorem placeOf_matches (id id' : NodeId) (fold : Bool) (o : Option Access) :
    Matches ctx (ctx.parenthesize w span) base (placeOf id fold o) (placeOf id' fold o) := by
  cases o with
  | none => exact (Matches.report id id' .invalidTarget).bind fun _ => .pure none
  | some a =>
    refine (Matches.askTypes _).bind fun length => ?_
    split
    · exact (Matches.report id id' .lengthAssignment).bind fun _ => .pure none
    · exact .askTypes _

theorem placeAt?_matches (id id' : NodeId) {target target' : NodeId} (h : Stands w target target')
    (hnest : (ctx.arena.parenthesize w span).nestsWithin levels target') :
    Matches ctx (ctx.parenthesize w span) base (placeAt? lower id target)
      (placeAt? lower' id' target') := by
  have hplace := (accessAt?_matches hw hlevels hl (nestsWithin_strip hw h hnest)).bind
    (placeOf_matches id id' ctx.fold)
  refine .bind_read ?_
  rw [Context.parenthesize_arena]
  dsimp only
  rw [h.strip hw.isTree hw.has, Arena.get?_shiftAfter]
  cases ctx.arena.get? (ctx.arena.strip target) with
  | none => exact hplace
  | some n =>
    cases n with
    | identifier x => exact .pure _
    | _ => exact hplace

theorem assignment?_matches (id id' : NodeId) {target value : NodeId} (op : Source.AssignOp)
    (use : Use) (h : (ctx.arena.parenthesize w span).nestsWithin levels (w.shiftFrom target))
    (h' : (ctx.arena.parenthesize w span).nestsWithin levels (w.shiftFrom value)) :
    Matches ctx (ctx.parenthesize w span) base (assignment? lower id target op value use)
      (assignment? lower' id' (w.shiftFrom target) op (w.shiftFrom value) use) := by
  refine (compoundOp_matches hw hlevels op h h').bind fun op => ?_
  refine (placeAt?_matches hw hlevels hl id id' (.reference w target) h).bind fun place => ?_
  refine (lower_matches hl h').bind fun code => ?_
  cases place <;> exact .pure _

theorem update?_matches (op : Source.UpdateOp) (before : Bool) {operand : NodeId} (use : Use)
    (h : (ctx.arena.parenthesize w span).nestsWithin levels (w.shiftFrom operand)) :
    Matches ctx (ctx.parenthesize w span) base (update? lower op before operand use)
      (update? lower' op before (w.shiftFrom operand) use) :=
  (placeAt?_matches hw hlevels hl _ _ (.reference w operand) h).bind fun _ => .pure _

theorem deletion?_matches (id id' : NodeId) {operand : NodeId} (use : Use)
    (h : (ctx.arena.parenthesize w span).nestsWithin levels (w.shiftFrom operand)) :
    Matches ctx (ctx.parenthesize w span) base (deletion? lower id operand use)
      (deletion? lower' id' (w.shiftFrom operand) use) := by
  have haccess := accessAt?_matches hw hlevels hl (nestsWithin_strip hw (.reference w operand) h)
  refine .bind_read ?_
  rw [Context.parenthesize_arena,
    (Stands.reference w operand).strip hw.isTree hw.has]
  refine haccess.bind fun a => ?_
  cases a with
  | some a => exact .askTypes _
  | none => exact (Matches.report id id' _).bind fun _ => .pure _

/-- A string in parentheses names no member for the type of the receiver. -/
theorem elementAccess_member? {id receiver : NodeId} {x : String}
    (hn : ctx.arena.get? id = some (.element receiver w)) (hx : ctx.arena.get? w = some (.string x))
    (hstring : ∀ st, (lower w ctx st).1 = .string x)
    (h : (ctx.arena.parenthesize w span).nestsWithin levels (w.shiftFrom receiver))
    (hk : (ctx.arena.parenthesize w span).nestsWithin levels (w.shiftFrom w)) (st : State)
    (he : base.Extends st.store) : (elementAccess lower receiver w ctx st).1.member? = none := by
  let st₁ := (typeOf receiver ctx st).2
  let st₂ := (lower receiver ctx st₁).2
  let st₃ := (typeOf w ctx st₂).2
  let st₄ := (lower w ctx st₃).2
  have haccess : (elementAccess lower receiver w ctx st).1 =
      ⟨(lower receiver ctx st₁).1, .element (lower w ctx st₃).1 (typeOf w ctx st₂).1,
        (shapeOf (ctx.facts.expressionType ctx.arena receiver st.store).1 st₄.store).1⟩ := rfl
  have he₁ := (typeOf_matches hw hlevels (.reference w receiver) h).extends_ he
  have he₂ := (lower_matches hl h).extends_ he₁
  have he₃ := (typeOf_matches hw hlevels (.reference w w) hk).extends_ he₂
  have he₄ := (lower_matches hl hk).extends_ he₃
  rw [haccess, hstring]
  exact hw.key id receiver x hn hx st.store st₄.store he he₄

theorem call_matches {callee : NodeId} {arguments : List NodeId}
    (hstring : (ctx.arena.parenthesize w span).nestsWithin levels (w.shiftFrom w) →
      ∀ x, ctx.arena.get? w = some (.string x) → ∀ st, (lower w ctx st).1 = .string x)
    (helement : ∀ receiver, ctx.arena.get? (ctx.arena.strip callee) = some (.element receiver w) →
      Matches ctx (ctx.parenthesize w span) base (elementAccess lower receiver w >>= readAccess)
        (lower' (w.shiftFrom callee)))
    (h : (ctx.arena.parenthesize w span).nestsWithin levels (w.shiftFrom callee))
    (hargs : ∀ c ∈ arguments,
      (ctx.arena.parenthesize w span).nestsWithin levels (w.shiftFrom c)) :
    Matches ctx (ctx.parenthesize w span) base (call lower callee arguments)
      (call lower' (w.shiftFrom callee) (arguments.map w.shiftFrom)) := by
  have hargs := mapM_matches hl hargs
  have hplain : Matches ctx (ctx.parenthesize w span) base
      (call.plainCall lower callee arguments)
      (call.plainCall lower' (w.shiftFrom callee) (arguments.map w.shiftFrom)) :=
    (lower_matches hl h).bind fun _ => hargs.bind fun _ => .pure _
  have hinner := nestsWithin_strip hw (.reference w callee) h
  refine .bind_read ?_
  rw [Context.parenthesize_arena]
  dsimp only
  rw [(Stands.reference w callee).strip hw.isTree hw.has, Arena.get?_shiftAfter]
  cases hn : ctx.arena.get? (ctx.arena.strip callee) with
  | none => exact hplain
  | some n =>
    have hchild {c : NodeId} (hc : c ∈ n.children) := nestsWithin_shiftFrom hn hinner hc
    cases n with
    | property receiver name =>
      refine (namedAccess_matches hw hlevels hl name (hchild List.mem_cons_self)).bind fun a => ?_
      refine hargs.bind fun args => ?_
      split
      · exact (Matches.report _ _ _).bind fun _ => .pure _
      · exact .pure _
    | element receiver key =>
      have hr := hchild List.mem_cons_self
      have hk := hchild (List.mem_cons_of_mem _ List.mem_cons_self)
      dsimp only [Option.map_some, Node.mapRefs]
      by_cases heq : key = w
      · subst heq
        rw [Arena.get?_shiftFrom_self hw.has]
        dsimp only
        cases hx : ctx.arena.get? key with
        | none => exact hplain
        | some k =>
          cases k with
          | string x =>
            have hmember := elementAccess_member? hw hlevels hl hn hx (hstring hk x hx) hr hk
            have hread := (helement receiver hn).bind fun f => hargs.bind fun args =>
              .pure (Code.call f args)
            refine hread.congr_left fun st he => ?_
            dsimp only
            rw [bind_run, hmember st he]
            rfl
          | _ => exact hplain
      · rw [NodeId.shiftFrom_eq heq, Arena.get?_shiftAfter]
        cases ctx.arena.get? key with
        | none => exact hplain
        | some k =>
          cases k with
          | string name =>
            rw [← NodeId.shiftFrom_eq heq]
            refine (elementAccess_matches hw hlevels hl hr hk).bind fun a => ?_
            split
            · exact hargs.bind fun _ => .pure _
            · exact (readAccess_matches a).bind fun _ => hargs.bind fun _ => .pure _
          | _ => exact hplain
    | _ => exact hplain

end Functions

section Expressions

variable {ctx : Context} {base : TypeStore} {w : NodeId} {span : Span} (hw : CanWrap ctx base w)
  {levels : Nat}

include hw

theorem expressionNode_matches {id : NodeId} {n : Node} {room room' : Nat}
    (hlevels : levels + 1 ≤ maxNesting)
    (hl : ∀ id id', Stands w id id' → (ctx.arena.parenthesize w span).nestsWithin levels id' →
      Matches ctx (ctx.parenthesize w span) base (expressionAt room id) (expressionAt room' id'))
    (hn : ctx.arena.get? id = some n)
    (hnest : (ctx.arena.parenthesize w span).nestsWithin (levels + 1) (w.shiftAfter id))
    (hstring : (ctx.arena.parenthesize w span).nestsWithin levels (w.shiftFrom w) →
      ∀ x, ctx.arena.get? w = some (.string x) → ∀ st,
        (expressionAt room w ctx st).1 = .string x)
    (helement : ∀ callee receiver,
      (ctx.arena.parenthesize w span).nestsWithin levels (w.shiftFrom callee) →
      ctx.arena.get? (ctx.arena.strip callee) = some (.element receiver w) →
      Matches ctx (ctx.parenthesize w span) base
        (elementAccess (expressionAt room) receiver w >>= readAccess)
        (expressionAt room' (w.shiftFrom callee))) :
    Matches ctx (ctx.parenthesize w span) base (expressionNode (expressionAt room) id n)
      (expressionNode (expressionAt room') (w.shiftAfter id) (n.mapRefs w.shiftFrom)) := by
  have hlevels' : levels ≤ maxNesting := by omega
  have hchild {c : NodeId} (hc : c ∈ n.children) :
      (ctx.arena.parenthesize w span).nestsWithin levels (w.shiftFrom c) := nestsWithin_child_shiftFrom hn hnest hc
  cases n with
  | array elements => exact (mapM_matches hl fun c hc => hchild hc).bind fun _ => .pure _
  | object properties =>
    exact (typeOf_matches hw hlevels (.node id) hnest).bind fun t =>
      objectLiteral_matches hw hlevels' hl t fun c hc => hchild hc
  | property receiver name =>
    exact (namedAccess_matches hw hlevels' hl name (hchild List.mem_cons_self)).bind
      readAccess_matches
  | element receiver key =>
    exact (elementAccess_matches hw hlevels' hl (hchild List.mem_cons_self)
      (hchild (List.mem_cons_of_mem _ List.mem_cons_self))).bind readAccess_matches
  | call callee arguments =>
    have hcallee := hchild List.mem_cons_self
    exact call_matches hw hlevels' hl hstring (fun receiver h => helement callee receiver hcallee h)
      hcallee fun c hc => hchild (List.mem_cons_of_mem _ hc)
  | binary left op right =>
    exact binary_matches hw hlevels' hl op (hchild List.mem_cons_self)
      (hchild (List.mem_cons_of_mem _ List.mem_cons_self))
  | assign target op value =>
    exact (assignment?_matches hw hlevels' hl _ _ op .value (hchild List.mem_cons_self)
      (hchild (List.mem_cons_of_mem _ List.mem_cons_self))).bind fun _ => .pure _
  | unary op operand => exact (lower_matches hl (hchild List.mem_cons_self)).bind fun _ => .pure _
  | update op before operand =>
    exact (update?_matches hw hlevels' hl op before .value (hchild List.mem_cons_self)).bind
      fun _ => .pure _
  | delete operand =>
    exact (deletion?_matches hw hlevels' hl _ _ .value (hchild List.mem_cons_self)).bind
      fun _ => .pure _
  | template head spans => exact template_matches hl head fun c hc => hchild hc
  | asserted expression type =>
    exact lowerInContext_matches hw hlevels' hl (.reference w expression)
      (hchild List.mem_cons_self) type
  | parenthesized inner => exact lower_matches hl (hchild List.mem_cons_self)
  | number _ | string _ | boolean _ | null | undefined | identifier _ => exact .pure _
  | _ => exact (Matches.report _ _ _).bind fun _ => .pure _

/-- What stands for an expression is lowered like it. -/
theorem expressionAt_matches {room room' : Nat} {id id' : NodeId} (hlevels : levels ≤ maxNesting)
    (hroom : levels ≤ room) (hroom' : levels ≤ room') (h : Stands w id id')
    (hnest : (ctx.arena.parenthesize w span).nestsWithin levels id') :
    Matches ctx (ctx.parenthesize w span) base (expressionAt room id) (expressionAt room' id') := by
  induction levels using Nat.strong_induction_on generalizing room room' id id' with
  | _ levels ih =>
    obtain ⟨levels, rfl⟩ := exists_of_nestsWithin hnest
    obtain ⟨room', rfl⟩ : ∃ k, room' = k + 1 := ⟨room' - 1, by omega⟩
    have hlt := Nat.lt_succ_self levels
    cases h with
    | parens =>
      have hget : (ctx.parenthesize w span).arena.get? (w.shiftFrom w) = some (.parenthesized w) :=
        Arena.get?_shiftFrom_self hw.has
      have hinner := nestsWithin_child hnest hget List.mem_cons_self
      exact (ih levels hlt (by omega) (by omega) (by omega) (.self w) hinner).congr_right
        (expressionAt_run hget room')
    | node =>
      obtain ⟨room, rfl⟩ : ∃ k, room = k + 1 := ⟨room - 1, by omega⟩
      refine .bind_node? ?_
      rw [ctx.get?_shiftAfter]
      cases hn : ctx.arena.get? id with
      | none => exact .pure _
      | some n =>
        refine expressionNode_matches hw hlevels (fun id id' h hnest => ?_) hn hnest ?_ ?_
        · exact ih levels hlt (by omega) (by omega) (by omega) h hnest
        · intro hnest x hx st
          obtain ⟨levels, rfl⟩ := exists_of_nestsWithin hnest
          obtain ⟨room, rfl⟩ : ∃ k, room = k + 1 := ⟨room - 1, by omega⟩
          rw [expressionAt_run hx]
          rfl
        · intro callee receiver hcallee he
          have hget : (ctx.parenthesize w span).arena.get?
              ((ctx.parenthesize w span).arena.strip (w.shiftFrom callee)) =
                some (.element (w.shiftFrom receiver) (w.shiftFrom w)) := by
            rw [Context.parenthesize_arena,
              (Stands.reference w callee).strip hw.isTree hw.has, Arena.get?_shiftAfter, he]
            rfl
          obtain ⟨levels', hlt', room'', hroom'', hr, hk, hrun⟩ :=
            expressionAt_descend (ctx.parenthesize w span) hcallee
              (Nat.le_of_succ_le_succ hroom') hget
          refine Matches.congr_right ?_ hrun
          refine (elementAccess_matches hw (by omega) (fun id id' h hnest => ?_) hr hk).bind
            readAccess_matches
          exact ih levels' (by omega) (by omega) (by omega) hroom'' h hnest

end Expressions

/-- A node that is not there is no statement. -/
theorem statementAt_none {ctx : Context} {id : NodeId} (h : ctx.arena.get? id = none) (room : Nat)
    (st : State) : statementAt room id ctx st = ([], st) := by
  cases room with
  | zero => rfl
  | succ room =>
    rw [statementAt, bind_node?_run, h]
    rfl

theorem statementAt_missing {ctx : Context} {base : TypeStore} {w id : NodeId} {span : Span}
    (hw : ctx.arena.Has w) (h : ¬ ctx.arena.Has id) (room room' : Nat) :
    Matches ctx (ctx.parenthesize w span) base (statementAt room id)
      (statementAt room' (w.shiftFrom id)) :=
  ((Matches.pure []).congr_left fun st _ =>
    statementAt_none (Arena.get?_of_not_has h) room st).congr_right
      (statementAt_none (Arena.get?_shiftFrom_of_not_has hw h) room')

section Statements

variable {ctx : Context} {base : TypeStore} {w : NodeId} {span : Span} (hw : CanWrap ctx base w)
  (hnest : ∀ id n, (ctx.arena.parenthesize w span).get? id = some n → n.isStatement = false →
    (ctx.arena.parenthesize w span).nestsWithin maxNesting id)

/-- A statement where an expression should be is reported. -/
theorem expressionNode_statement {lower lower' : Lowerer} (id id' : NodeId) {n : Node}
    (h : n.isStatement) (f : NodeId → NodeId) :
    Matches ctx (ctx.parenthesize w span) base (expressionNode lower id n)
      (expressionNode lower' id' (n.mapRefs f)) := by
  cases n with
  | variableDecl | ambientDecl | expressionStatement | returns | block | functionDecl | file =>
    exact (Matches.report id id' _).bind fun _ => .pure _
  | _ => cases h

include hw hnest

/-- What stands for a node that is no statement is not nested too deeply. -/
theorem nestsWithin_or_isStatement {id id' : NodeId} (h : Stands w id id') :
    (ctx.arena.parenthesize w span).nestsWithin maxNesting id' ∨
      id' = w.shiftAfter id ∧ ∃ n, ctx.arena.get? id = some n ∧ n.isStatement := by
  cases h with
  | parens => exact .inl (hnest _ _ (Arena.get?_shiftFrom_self hw.has) rfl)
  | node =>
    have hget := ctx.get?_shiftAfter w span id
    rw [Context.parenthesize_arena] at hget
    cases hn : ctx.arena.get? id with
    | none =>
      rw [hn] at hget
      refine .inl ?_
      rw [maxNesting, Arena.nestsWithin, Arena.children_of_get?_none hget, List.all_nil]
    | some n =>
      rw [hn] at hget
      cases hs : n.isStatement with
      | true => exact .inr ⟨rfl, n, rfl, hs⟩
      | false => exact .inl (hnest _ _ hget (by rw [Node.isStatement_mapRefs, hs]))

theorem expression_matches {id id' : NodeId} (h : Stands w id id') :
    Matches ctx (ctx.parenthesize w span) base (expression id) (expression id') := by
  rcases nestsWithin_or_isStatement hw hnest h with hn | ⟨rfl, n, hn, hs⟩
  · exact expressionAt_matches hw (Nat.le_refl _) (Nat.le_refl _) (Nat.le_refl _) h hn
  · have hget : (ctx.parenthesize w span).arena.get? (w.shiftAfter id) =
        some (n.mapRefs w.shiftFrom) := Arena.get?_shiftAfter_of_get? hn
    refine .bind_node? ?_
    rw [hn, hget]
    exact expressionNode_statement id _ hs w.shiftFrom

theorem initialValue_matches (x : String) (initializer : NodeId) :
    Matches ctx (ctx.parenthesize w span) base (initialValue x initializer)
      (initialValue x (w.shiftFrom initializer)) := by
  have hstands := Stands.reference w initializer
  refine .bind_read ?_
  rw [show (ctx.parenthesize w span).facts = ctx.facts from rfl]
  rcases nestsWithin_or_isStatement hw hnest hstands with hn | ⟨heq, n, hn, hs⟩
  · exact lowerInContext_matches hw (Nat.le_refl _)
      (fun _ _ h hn => expressionAt_matches hw (Nat.le_refl _) (Nat.le_refl _) (Nat.le_refl _) h hn)
      hstands hn _
  · have hbare : ctx.arena.inParens? initializer = none := by
      rw [Arena.inParens?, hn]
      cases n with
      | parenthesized inner => cases hs
      | _ => rfl
    have hinner : underParens ctx.arena ctx.arena.size initializer = initializer := by
      rw [Source.underParens_eq_descend, Source.descend_of_none hbare]
    have hinner' : underParens (ctx.arena.parenthesize w span) (ctx.arena.parenthesize w span).size
        (w.shiftFrom initializer) = _ := hstands.underParens hw.isTree hw.has
    rw [hinner, ← heq] at hinner'
    have hobject (properties : List (Source.Key × NodeId)) :
        ctx.arena.get? initializer ≠ some (.object properties) := by
      intro ho
      cases hn.symm.trans ho
      cases hs
    have hobject' (properties : List (Source.Key × NodeId)) :
        (ctx.parenthesize w span).arena.get? (w.shiftFrom initializer) ≠
          some (.object properties) := by
      rw [heq, ctx.get?_shiftAfter, hn]
      intro ho
      have h := congrArg Node.isStatement (Option.some.inj ho)
      rw [Node.isStatement_mapRefs, hs] at h
      cases h
    exact ((expression_matches hw hnest hstands).congr_left fun st _ =>
      lowerInContext_run ctx hinner hobject _ _ st).congr_right
        (lowerInContext_run (ctx.parenthesize w span) hinner' hobject' _ _)

theorem expressionStatement_matches (e : NodeId) :
    Matches ctx (ctx.parenthesize w span) base (expressionStatement e)
      (expressionStatement (w.shiftFrom e)) := by
  have hl (id id' : NodeId) (h : Stands w id id')
      (hn : (ctx.arena.parenthesize w span).nestsWithin maxNesting id') :
      Matches ctx (ctx.parenthesize w span) base (expression id) (expression id') :=
    expressionAt_matches hw (Nat.le_refl _) (Nat.le_refl _) (Nat.le_refl _) h hn
  refine .bind_read ?_
  rw [Context.parenthesize_arena]
  dsimp only
  rw [(Stands.reference w e).strip hw.isTree hw.has]
  generalize ctx.arena.strip e = inner
  have hget := ctx.get?_shiftAfter w span inner
  rw [Context.parenthesize_arena] at hget
  rw [hget]
  cases hn : ctx.arena.get? inner with
  | none => exact .pure []
  | some n =>
    have hother := (expression_matches hw hnest (.node inner)).bind fun v =>
      .pure [asStatement v]
    have hchild (hs : n.isStatement = false) {c : NodeId} (hc : c ∈ n.children) :
        (ctx.arena.parenthesize w span).nestsWithin maxNesting (w.shiftFrom c) := by
      rw [hn] at hget
      exact nestsWithin_shiftFrom hn (hnest _ _ hget (by rw [Node.isStatement_mapRefs, hs])) hc
    cases n with
    | assign target op value =>
      exact (assignment?_matches hw (Nat.le_refl _) hl _ _ op .statement
        (hchild rfl List.mem_cons_self)
        (hchild rfl (List.mem_cons_of_mem _ List.mem_cons_self))).bind fun _ => .pure _
    | update op before operand =>
      exact (update?_matches hw (Nat.le_refl _) hl op before .statement
        (hchild rfl List.mem_cons_self)).bind fun _ => .pure _
    | delete operand =>
      exact (deletion?_matches hw (Nat.le_refl _) hl _ _ .statement
        (hchild rfl List.mem_cons_self)).bind fun _ => .pure _
    | _ => exact hother

theorem statementAt_matches {room room' : Nat} {id id' : NodeId}
    {n : Node} (hn : ctx.arena.get? w = some n) (hs : n.isStatement = false) (h : Stands w id id')
    (hroom : id.index < room) (hroom' : id'.index < room') :
    Matches ctx (ctx.parenthesize w span) base (statementAt room id) (statementAt room' id') := by
  induction room generalizing room' id id' with
  | zero => cases hroom
  | succ room ih =>
    obtain ⟨room', rfl⟩ : ∃ k, room' = k + 1 := ⟨room' - 1, by omega⟩
    refine .bind_node? ?_
    rw [Context.parenthesize_arena]
    cases h with
    | parens =>
      rw [Arena.get?_shiftFrom_self hw.has, hn]
      cases n with
      | variableDecl | ambientDecl | expressionStatement | returns | block | functionDecl | file =>
        cases hs
      | _ => exact (Matches.report _ _ _).bind fun _ => .pure _
    | node =>
      rw [Arena.get?_shiftAfter]
      cases hid : ctx.arena.get? id with
      | none => exact .pure _
      | some n =>
        have hparts {ids : List NodeId} (hids : ids = n.children) :
            Matches ctx (ctx.parenthesize w span) base (statements (statementAt room) ids)
              (statements (statementAt room') (ids.map w.shiftFrom)) := by
          refine (Matches.mapM fun c hc => ?_).bind fun _ => .pure _
          by_cases hhas : ctx.arena.Has c
          · have hchild : c ∈ ctx.arena.children id := by rwa [Arena.children_of_get? hid, ← hids]
            have hlt := hw.isTree.lt ⟨hchild, hhas⟩
            have hlt' := NodeId.shiftFrom_lt (w := w) hlt
            exact ih (.reference w c) (by omega) (by omega)
          · exact statementAt_missing hw.has hhas room room'
        cases n with
        | variableDecl x initializer =>
          cases initializer with
          | none => exact .pure _
          | some initializer =>
            exact (initialValue_matches hw hnest x initializer).bind fun _ => .pure _
        | functionDecl x parameters body => exact (hparts rfl).bind fun _ => .pure _
        | block ids => exact (hparts rfl).bind fun _ => .pure _
        | expressionStatement e => exact expressionStatement_matches hw hnest e
        | returns value =>
          cases value with
          | none => exact .pure _
          | some value =>
            exact (expression_matches hw hnest (.reference w value)).bind fun _ => .pure _
        | file name ids => exact hparts rfl
        | ambientDecl _ => exact .pure _
        | _ => exact (Matches.report _ _ _).bind fun _ => .pure _

end Statements

end Lowering

theorem fileName_parenthesize {a : Arena} {w : NodeId} {span : Span} {n : Node}
    (hn : a.get? w = some n) (hs : n.isStatement = false) (root : NodeId) :
    fileName (a.parenthesize w span) (w.shiftFrom root) = fileName a root := by
  unfold fileName
  by_cases hroot : root = w
  · subst hroot
    rw [Arena.get?_shiftFrom_self (Arena.has_of_get? hn), hn]
    cases n with
    | file name ids => cases hs
    | _ => rfl
  · rw [NodeId.shiftFrom_eq hroot, Arena.get?_shiftAfter]
    cases a.get? root with
    | none => rfl
    | some n => cases n <;> rfl

/-- An expression may stand in parentheses: the chunk stays the same, and the diagnostics say the
same. The one exception is a string between the brackets of an access, where it names a member that the
type of the receiver declares. -/
theorem lowerFile_parenthesize {a : Arena} {w : NodeId} {span : Span} {n : Node} {store : TypeStore}
    {facts : TypeFacts} (ha : a.IsTree) (hn : a.get? w = some n) (hs : n.isStatement = false)
    (hfacts : ∀ id, facts.nodes.get? id = none)
    (hnest : ∀ id n, (a.parenthesize w span).get? id = some n → n.isStatement = false →
      (a.parenthesize w span).nestsWithin maxNesting id)
    (hkey : NamesNoMember a facts store w) (root : NodeId) (fold : Bool) :
    let lowered := lowerFile a root store facts fold
    let lowered' := lowerFile (a.parenthesize w span) (w.shiftFrom root) store facts fold
    lowered'.1 = lowered.1 ∧
      lowered'.2.map Diagnostic.said = lowered.2.map Diagnostic.said := by
  intro lowered lowered'
  let ctx : Lowering.Context := ⟨a, facts, fold, fileName a root⟩
  have hw : Lowering.CanWrap ctx store w := ⟨ha, Arena.has_of_get? hn, hfacts, hkey⟩
  have hctx : (⟨a.parenthesize w span, facts, fold,
      fileName (a.parenthesize w span) (w.shiftFrom root)⟩ : Lowering.Context) =
        ctx.parenthesize w span := by
    rw [fileName_parenthesize hn hs]
    rfl
  have hchunk : Lowering.Matches ctx (ctx.parenthesize w span) store (Lowering.chunk root)
      (Lowering.chunk (w.shiftFrom root)) := by
    refine .bind_read ?_
    by_cases hroot : a.Has root
    · refine Lowering.statementAt_matches hw hnest hn hs (.reference w root) hroot ?_
      rw [show (ctx.parenthesize w span).arena.size = a.size + 1 from
        Arena.size_parenthesize hw.has, NodeId.shiftFrom]
      have hlt : root.index < a.size := hroot
      dsimp only
      split <;> omega
    · exact Lowering.statementAt_missing hw.has hroot _ _
  obtain ⟨hcode, -, hst⟩ := hchunk ⟨store, [], false⟩ ⟨store, [], false⟩ (.refl store)
    ⟨rfl, rfl, rfl⟩
  have hlowered : lowered' = (fun o => (o.1, o.2.reported.reverse))
      (Lowering.chunk (w.shiftFrom root) (ctx.parenthesize w span) ⟨store, [], false⟩) := by
    rw [← hctx]
    rfl
  rw [hlowered]
  refine ⟨hcode, ?_⟩
  dsimp only
  rw [List.map_reverse, hst.reported, ← List.map_reverse]
  rfl

section Programs

/-- `e["foo"]()` -/
def methodCall : Arena :=
  let nodes : List Node :=
    [.identifier "e", .string "foo", .element ⟨0⟩ ⟨1⟩, .call ⟨2⟩ [], .expressionStatement ⟨3⟩,
      .file "main.ts" [⟨4⟩]]
  ⟨(nodes.map fun n => (n, ⟨0, 0⟩)).toArray⟩

theorem nestsWithin_methodCall (id : NodeId) (n : Node)
    (hn : (methodCall.parenthesize ⟨1⟩ ⟨0, 0⟩).get? id = some n) (hs : n.isStatement = false) :
    (methodCall.parenthesize ⟨1⟩ ⟨0, 0⟩).nestsWithin maxNesting id := by
  obtain ⟨i⟩ := id
  have hi : i < 7 := Arena.has_of_get? hn
  have hall : ∀ i < 7, ((methodCall.parenthesize ⟨1⟩ ⟨0, 0⟩).get? ⟨i⟩).all fun n =>
      n.isStatement || (methodCall.parenthesize ⟨1⟩ ⟨0, 0⟩).nestsWithin maxNesting ⟨i⟩ := by
    decide +kernel
  simpa [hn, hs] using hall i hi

/-- `foo` names no member of an `e` of unknown type. -/
theorem lowerFile_parenthesize_of_string :
    let lowered := lowerFile methodCall ⟨5⟩ .initial .empty true
    let lowered' := lowerFile (methodCall.parenthesize ⟨1⟩ ⟨0, 0⟩) ⟨6⟩ .initial .empty true
    methodCall.IsTree ∧ methodCall.get? ⟨1⟩ = some (.string "foo") ∧
      NamesNoMember methodCall .empty .initial ⟨1⟩ ∧ lowered'.1 = lowered.1 ∧
      lowered'.2.map Diagnostic.said = lowered.2.map Diagnostic.said := by
  have ha : methodCall.IsTree := by decide +kernel
  have hkey : NamesNoMember methodCall .empty .initial ⟨1⟩ := by
    intro id receiver x hn hx s s' hs hs'
    have hreceiver : receiver = ⟨0⟩ := by
      obtain ⟨i⟩ := id
      have hi : i < 6 := Arena.has_of_get? hn
      interval_cases i <;> cases hn
      rfl
    have htype : (TypeFacts.empty.expressionType methodCall receiver s).1 = .unknown := by
      rw [hreceiver]
      rfl
    have hget : s'.get? .unknown = some (.intrinsic .unknown) :=
      (TypeStore.Extends.get? hs' (by decide)).trans rfl
    have hrun (next : TypeStore → TypeM Shape) : (get >>= next) s' = next s' s' := rfl
    rw [htype, shapeOf, maxShapeDepth, shapeAt, hrun, hget]
    rfl
  exact ⟨ha, rfl, hkey, lowerFile_parenthesize ha rfl rfl (fun _ => rfl) nestsWithin_methodCall hkey
    ⟨5⟩ true⟩

/-- `foo` is a method of the declared type of `e`; in parentheses it is not called as one. -/
theorem not_lowerFile_parenthesize :
    let store := (intern (.object [{ name := "foo", type := ⟨7⟩, isMethod := true }])
      (intern (.function [] .number) .initial).2).2
    let facts := TypeFacts.empty.declare "e" ⟨8⟩
    methodCall.IsTree ∧
      Lua.printChunk {} (lowerFile methodCall ⟨5⟩ store facts true).1 = "e:foo()\n" ∧
      Lua.printChunk {} (lowerFile (methodCall.parenthesize ⟨1⟩ ⟨0, 0⟩) ⟨6⟩ store facts true).1 =
        "e[\"foo\"]()\n" := by
  decide +kernel

end Programs

end ScriptToLua
