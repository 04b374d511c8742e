import Mathlib
import ScriptToLua.Compile
import ScriptToLua.Proofs.Source.Tree

/-!
How deeply expressions may be nested. The levels of an expression are counted on the way down, and
when there are too many this is reported once. Where a value of some type is expected, parentheses
and object literals are looked through without counting them: `lowerFile_tooDeep`.
-/

namespace ScriptToLua

open Source (Arena Node NodeId)

/-- From the node at `id` on, more than `n` nodes lie one below another. -/
def goesBeyond (below : NodeId → List NodeId) : (n : Nat) → NodeId → Bool
  | 0, _ => true
  | n + 1, id => (below id).any (goesBeyond below n)

namespace Lowering

section Operands

variable (a : Arena)

/-- The operands of the access at a node, if there is an access. -/
def accessOperands (id : NodeId) : List NodeId :=
  match a.get? id with
  | some (.property receiver _) => [receiver]
  | some (.element receiver key) => [receiver, key]
  | _ => []

/-- What is lowered for a callee: a member that is named is called on its receiver. -/
def calleeOperands (callee : NodeId) : List NodeId :=
  match a.get? (a.strip callee) with
  | some (.property receiver _) => [receiver]
  | some (.element receiver key) =>
    match a.get? key with
    | some (.string _) => [receiver, key]
    | _ => [callee]
  | _ => [callee]

/-- What is counted of an expression where a value of type `t` is expected: neither the parentheses
around it nor, if the type is known, an object literal. -/
def countedInContext (e : NodeId) (t : TypeId) : List NodeId :=
  let inner := underParens a a.size e
  match a.get? inner with
  | some (.object properties) =>
    if t = .unknown then [inner] else (Node.object properties).children
  | _ => [inner]

variable (inContext : NodeId → TypeId → List NodeId)

/-- The nodes that are lowered for a node; `inContext` says which where a type is expected. -/
def operands : Node → List NodeId
  | .call callee arguments => calleeOperands a callee ++ arguments
  | .assign target _ value => accessOperands a (a.strip target) ++ [value]
  | .update _ _ operand => accessOperands a (a.strip operand)
  | .delete operand => accessOperands a (a.strip operand)
  | .asserted e t => inContext e t
  | n => if n.isStatement then [] else n.children

def operandsAt (id : NodeId) : List NodeId := ((a.get? id).map (operands a inContext)).getD []

/-- The expressions that are lowered for a statement. Assignments, updates and deletions that stand
as statements are part of them. -/
def startsOf (facts : TypeFacts) : Node → List NodeId
  | .variableDecl x (some initializer) => inContext initializer (facts.declaredType x)
  | .returns (some value) => [value]
  | .expressionStatement e =>
    match a.get? (a.strip e) with
    | none => []
    | some (.assign target _ value) => accessOperands a (a.strip target) ++ [value]
    | some (.update _ _ operand) => accessOperands a (a.strip operand)
    | some (.delete operand) => accessOperands a (a.strip operand)
    | some _ => [a.strip e]
  | _ => []

/-- The statements that a statement is made of. -/
def partsOf : Node → List NodeId
  | .block ids => ids
  | .functionDecl _ _ ids => ids
  | .file _ ids => ids
  | _ => []

/-- The second node is one of the statements that the first is made of. -/
def IsPart (s c : NodeId) : Prop := ∃ n, a.get? s = some n ∧ c ∈ partsOf n

/-- The expressions that are lowered for the statements under `id`, down to `room` levels. -/
def startsWithin (facts : TypeFacts) : (room : Nat) → NodeId → List NodeId
  | 0, _ => []
  | room + 1, id =>
    match a.get? id with
    | some n => startsOf a inContext facts n ++ (partsOf n).flatMap (startsWithin facts room)
    | none => []

/-- Some expression in a statement under `root` has more levels than are lowered. -/
def NestsTooDeeply (facts : TypeFacts) (root : NodeId) : Prop :=
  ∃ s n e, Relation.ReflTransGen (IsPart a) root s ∧ a.get? s = some n ∧
    e ∈ startsOf a inContext facts n ∧ goesBeyond (operandsAt a inContext) maxNesting e

end Operands

/-- How often it has been reported that an expression is nested too deeply. -/
def depthReports (ds : List Diagnostic) : Nat := ds.countP fun d => d.code = Message.tooDeep.code

/-- Nesting is reported once. -/
def State.ReportsOnce (st : State) : Prop := depthReports st.reported = st.depthReported.toNat

/-- The computation lowers the nodes `ids`, and reports that they are nested too deeply if one of
them is `deep`, unless that has been reported before. -/
def Tracks {α : Type} (ctx : Context) (deep : NodeId → Bool) (ids : List NodeId) (act : LowerM α) :
    Prop :=
  ∀ st : State, st.ReportsOnce → (act ctx st).2.ReportsOnce ∧
    (act ctx st).2.depthReported = (st.depthReported || ids.any deep)

namespace Tracks

variable {ctx : Context} {deep : NodeId → Bool} {ids ids' : List NodeId} {α β : Type}

theorem bind {act : LowerM α} {next : α → LowerM β} (h : Tracks ctx deep ids act)
    (hn : ∀ a, Tracks ctx deep ids' (next a)) : Tracks ctx deep (ids ++ ids') (act >>= next) := by
  intro st hst
  obtain ⟨h₁, hd₁⟩ := h st hst
  obtain ⟨h₂, hd₂⟩ := hn (act ctx st).1 (act ctx st).2 h₁
  refine ⟨h₂, ?_⟩
  rw [List.any_append, ← Bool.or_assoc, ← hd₁]
  exact hd₂

/-- A computation that changes no more than the types. -/
theorem of_eq {act : LowerM α} (hr : ∀ st, (act ctx st).2.reported = st.reported)
    (hd : ∀ st, (act ctx st).2.depthReported = st.depthReported) : Tracks ctx deep [] act := by
  intro st hst
  refine ⟨?_, by rw [hd, List.any_nil, Bool.or_false]⟩
  rw [State.ReportsOnce, hr, hd]
  exact hst

theorem pure (a : α) : Tracks ctx deep [] (Pure.pure a) := .of_eq (fun _ => rfl) fun _ => rfl

theorem read : Tracks ctx deep [] read := .of_eq (fun _ => rfl) fun _ => rfl

theorem withTypes (act : TypeM α) : Tracks ctx deep [] (withTypes act) :=
  .of_eq (fun _ => rfl) fun _ => rfl

theorem askTypes (ask : TypeStore → α) : Tracks ctx deep [] (askTypes ask) :=
  .of_eq (fun _ => rfl) fun _ => rfl

theorem typeOf (id : NodeId) : Tracks ctx deep [] (typeOf id) := .of_eq (fun _ => rfl) fun _ => rfl

/-- What comes last lowers nothing. -/
theorem last {act : LowerM α} {next : α → LowerM β} (h : Tracks ctx deep ids act)
    (hn : ∀ a, Tracks ctx deep [] (next a)) : Tracks ctx deep ids (act >>= next) := by
  have hbind := h.bind hn
  rwa [List.append_nil] at hbind

/-- What comes after a look at the context. -/
theorem bind_read {next : Context → LowerM β} (h : Tracks ctx deep ids (next ctx)) :
    Tracks ctx deep ids (MonadReader.read >>= next) := h

/-- What comes after a look at a node. -/
theorem bind_node? {id : NodeId} {next : Option Node → LowerM β}
    (h : Tracks ctx deep ids (next (ctx.arena.get? id))) :
    Tracks ctx deep ids (node? id >>= next) := h

theorem report (id : NodeId) {p : Problem} (hp : p.message.code ≠ Message.tooDeep.code) :
    Tracks ctx deep [] (report id p) := by
  intro st hst
  refine ⟨?_, by rw [List.any_nil, Bool.or_false]; rfl⟩
  have hcount : depthReports (Lowering.report id p ctx st).2.reported = depthReports st.reported :=
    List.countP_cons_of_neg fun h => hp (of_decide_eq_true h)
  exact hcount.trans hst

theorem reportDepth {id : NodeId} (h : deep id) : Tracks ctx deep [id] (reportDepth id) := by
  intro st hst
  rw [List.any_cons, h, Bool.true_or, Bool.or_true]
  cases hd : st.depthReported with
  | true =>
    have hrun : (Lowering.reportDepth id ctx st).2 = st := by
      obtain ⟨store, reported, depthReported⟩ := st
      cases hd
      rfl
    rw [hrun]
    exact ⟨hst, hd⟩
  | false =>
    obtain ⟨store, reported, depthReported⟩ := st
    cases hd
    refine ⟨?_, rfl⟩
    have hcount : depthReports (Lowering.reportDepth id ctx ⟨store, reported, false⟩).2.reported =
        depthReports reported + 1 := List.countP_cons_of_pos (by rfl)
    exact hcount.trans (congrArg (· + 1) hst)

theorem mapM {γ : Type} {f : γ → LowerM α} {parts : γ → List NodeId}
    (h : ∀ c, Tracks ctx deep (parts c) (f c)) (l : List γ) :
    Tracks ctx deep (l.flatMap parts) (l.mapM f) := by
  induction l with
  | nil => exact .pure []
  | cons c l ih =>
    rw [List.mapM_cons, List.flatMap_cons]
    exact (h c).bind fun a => ih.last fun as => .pure (a :: as)

end Tracks

section Functions

variable {ctx : Context} {deep : NodeId → Bool} {lower : Lowerer}
  (hl : ∀ id, Tracks ctx deep [id] (lower id))

include hl

theorem mapM_tracks (ids : List NodeId) : Tracks ctx deep ids (ids.mapM lower) := by
  have h := Tracks.mapM hl ids
  rwa [List.flatMap_singleton'] at h

theorem namedAccess_tracks (receiver : NodeId) (name : String) :
    Tracks ctx deep [receiver] (namedAccess lower receiver name) :=
  (Tracks.typeOf receiver).bind fun _ => (hl receiver).last fun _ => .withTypes _

theorem elementAccess_tracks (receiver key : NodeId) :
    Tracks ctx deep [receiver, key] (elementAccess lower receiver key) :=
  (Tracks.typeOf receiver).bind fun _ => (hl receiver).bind fun _ => (Tracks.typeOf key).bind fun _ =>
    (hl key).last fun _ => .withTypes _

theorem accessAt?_tracks (id : NodeId) :
    Tracks ctx deep (accessOperands ctx.arena id) (accessAt? lower id) := by
  refine Tracks.bind_node? ?_
  unfold accessOperands
  cases ctx.arena.get? id with
  | none => exact .pure none
  | some n =>
    cases n with
    | property receiver x => exact (namedAccess_tracks hl receiver x).last fun _ => .pure _
    | element receiver key => exact (elementAccess_tracks hl receiver key).last fun _ => .pure _
    | _ => exact .pure none

omit hl in
theorem readAccess_tracks (a : Access) : Tracks ctx deep [] (readAccess a) :=
  Tracks.read.bind fun _ => .askTypes _

theorem hybridProperty_tracks (p : Source.Key × NodeId) :
    Tracks ctx deep (p.1.node?.toList ++ [p.2]) (hybridProperty lower p) := by
  obtain ⟨key, value⟩ := p
  cases key with
  | computed key =>
    refine (Tracks.typeOf key).bind fun _ => (hl key).bind fun _ => (hl value).last fun _ => ?_
    exact (Tracks.askTypes _).bind fun number => by split <;> exact .pure _
  | _ => exact (hl value).last fun _ => .pure _

theorem recordField_tracks (p : Source.Key × NodeId) :
    Tracks ctx deep (p.1.node?.toList ++ [p.2]) (recordField lower p) := by
  obtain ⟨key, value⟩ := p
  cases key with
  | computed key => exact (hl key).bind fun _ => (hl value).last fun _ => .pure _
  | _ => exact (hl value).last fun _ => .pure _

theorem objectLiteral_tracks (properties : List (Source.Key × NodeId)) (t : TypeId) :
    Tracks ctx deep (Node.object properties).children (objectLiteral lower properties t) := by
  refine (Tracks.withTypes _).bind fun shape => ?_
  split
  · exact Tracks.read.bind fun _ =>
      (Tracks.mapM (hybridProperty_tracks hl) properties).last fun _ => .pure _
  · exact (Tracks.mapM (recordField_tracks hl) properties).last fun _ => .pure _

theorem lowerInContext_tracks (e : NodeId) (t : TypeId) :
    Tracks ctx deep (countedInContext ctx.arena e t) (lowerInContext lower e t) := by
  refine Tracks.bind_read ?_
  unfold countedInContext
  dsimp only
  generalize underParens ctx.arena ctx.arena.size e = inner
  cases ctx.arena.get? inner with
  | none => exact hl inner
  | some n =>
    cases n with
    | object properties =>
      dsimp only
      split
      · exact hl inner
      · exact objectLiteral_tracks hl properties t
    | _ => exact hl inner

theorem template_tracks (head : String) (spans : List (NodeId × String)) :
    Tracks ctx deep (spans.map Prod.fst) (template lower head spans) := by
  have hspan (p : NodeId × String) : Tracks ctx deep [p.1] (do
      return [textOf (← lower p.1), .string p.2]) := (hl p.1).last fun _ => .pure _
  have h := (Tracks.mapM hspan spans).last fun parts =>
    .pure (joinTexts (.string head :: parts.flatten))
  rw [← List.map_eq_flatMap] at h
  exact h

theorem concatOperand_tracks (id : NodeId) (t : TypeId) :
    Tracks ctx deep [id] (concatOperand lower id t) := by
  refine (hl id).last fun code => (Tracks.askTypes _).bind fun joins => ?_
  split <;> exact .pure _

theorem sum_tracks (left right : NodeId) : Tracks ctx deep [left, right] (sum lower left right) := by
  refine (Tracks.typeOf left).bind fun leftType => (Tracks.typeOf right).bind fun rightType => ?_
  refine (Tracks.askTypes _).bind fun text => ?_
  split
  · exact (concatOperand_tracks hl left leftType).bind fun _ =>
      (concatOperand_tracks hl right rightType).last fun _ => .pure _
  · exact (hl left).bind fun _ => (hl right).last fun _ => .pure _

theorem binary_tracks (left : NodeId) (op : Source.BinaryOp) (right : NodeId) :
    Tracks ctx deep [left, right] (binary lower left op right) := by
  unfold binary
  split
  · exact sum_tracks hl left right
  · exact (hl left).bind fun _ => (hl right).last fun _ => .pure _

theorem call_tracks (callee : NodeId) (arguments : List NodeId) :
    Tracks ctx deep (calleeOperands ctx.arena callee ++ arguments) (call lower callee arguments) := by
  have hargs : Tracks ctx deep arguments (arguments.mapM lower) := mapM_tracks hl arguments
  have hplain : Tracks ctx deep ([callee] ++ arguments) (call.plainCall lower callee arguments) :=
    (hl callee).bind fun _ => hargs.last fun _ => .pure _
  refine Tracks.bind_read ?_
  unfold calleeOperands
  dsimp only
  cases ctx.arena.get? (ctx.arena.strip callee) with
  | none => exact hplain
  | some n =>
    cases n with
    | property receiver name =>
      refine (namedAccess_tracks hl receiver name).bind fun a => hargs.last fun args => ?_
      split
      · exact (Tracks.report _ (by rw [Problem.message]; decide)).bind fun _ => .pure _
      · exact .pure _
    | element receiver key =>
      dsimp only
      cases ctx.arena.get? key with
      | none => exact hplain
      | some k =>
        cases k with
        | string name =>
          refine (elementAccess_tracks hl receiver key).bind fun a => ?_
          split
          · exact hargs.last fun _ => .pure _
          · exact (readAccess_tracks a).bind fun _ => hargs.last fun _ => .pure _
        | _ => exact hplain
    | _ => exact hplain

omit hl in
theorem addsToString_tracks (target value : NodeId) :
    Tracks ctx deep [] (addsToString target value) := by
  refine (Tracks.typeOf target).bind fun _ => (Tracks.askTypes _).bind fun text => ?_
  split
  · exact .pure true
  · exact (Tracks.typeOf value).bind fun _ => .askTypes _

omit hl in
theorem compoundOp_tracks (op : Source.AssignOp) (target value : NodeId) :
    Tracks ctx deep [] (compoundOp op target value) := by
  cases op with
  | add => exact (addsToString_tracks target value).bind fun _ => .pure _
  | _ => exact .pure _

theorem placeAt?_tracks (id target : NodeId) :
    Tracks ctx deep (accessOperands ctx.arena (ctx.arena.strip target))
      (placeAt? lower id target) := by
  have haccess := accessAt?_tracks hl (ctx.arena.strip target)
  refine Tracks.bind_read ?_
  dsimp only
  split
  · next x hx =>
    rw [accessOperands, hx]
    exact .pure _
  · refine haccess.last fun a => ?_
    cases a with
    | none => exact (Tracks.report _ (by decide)).bind fun _ => .pure none
    | some a =>
      refine (Tracks.askTypes _).bind fun length => ?_
      split
      · exact (Tracks.report _ (by decide)).bind fun _ => .pure none
      · exact .askTypes _

theorem assignment?_tracks (id target : NodeId) (op : Source.AssignOp) (value : NodeId) (use : Use) :
    Tracks ctx deep (accessOperands ctx.arena (ctx.arena.strip target) ++ [value])
      (assignment? lower id target op value use) := by
  refine (compoundOp_tracks op target value).bind fun op => ?_
  refine (placeAt?_tracks hl id target).bind fun place => (hl value).last fun code => ?_
  cases place <;> exact .pure _

theorem update?_tracks (op : Source.UpdateOp) (before : Bool) (operand : NodeId) (use : Use) :
    Tracks ctx deep (accessOperands ctx.arena (ctx.arena.strip operand))
      (update? lower op before operand use) :=
  (placeAt?_tracks hl operand operand).last fun _ => .pure _

theorem deletion?_tracks (id operand : NodeId) (use : Use) :
    Tracks ctx deep (accessOperands ctx.arena (ctx.arena.strip operand))
      (deletion? lower id operand use) := by
  refine Tracks.bind_read ((accessAt?_tracks hl _).last fun a => ?_)
  cases a with
  | some a => exact .askTypes _
  | none => exact (Tracks.report _ (by decide)).bind fun _ => .pure _

theorem expressionNode_tracks (id : NodeId) (n : Node) :
    Tracks ctx deep (operands ctx.arena (countedInContext ctx.arena) n)
      (expressionNode lower id n) := by
  cases n with
  | array elements => exact (mapM_tracks hl elements).last fun _ => .pure _
  | object properties => exact (Tracks.typeOf id).bind fun t => objectLiteral_tracks hl properties t
  | property receiver name => exact (namedAccess_tracks hl receiver name).last readAccess_tracks
  | element receiver key => exact (elementAccess_tracks hl receiver key).last readAccess_tracks
  | call callee arguments => exact call_tracks hl callee arguments
  | binary left op right => exact binary_tracks hl left op right
  | assign target op value =>
    exact (assignment?_tracks hl id target op value .value).last fun _ => .pure _
  | unary op operand => exact (hl operand).last fun _ => .pure _
  | update op before operand =>
    exact (update?_tracks hl op before operand .value).last fun _ => .pure _
  | delete operand => exact (deletion?_tracks hl id operand .value).last fun _ => .pure _
  | template head spans => exact template_tracks hl head spans
  | asserted expression type => exact lowerInContext_tracks hl expression type
  | parenthesized inner => exact hl inner
  | number _ | string _ | boolean _ | null | undefined | identifier _ => exact .pure _
  | _ => exact (Tracks.report id (by decide)).bind fun _ => .pure _

omit hl in
/-- An expression that has more levels than there is room for is reported. -/
theorem expressionAt_tracks (room : Nat) (id : NodeId) :
    Tracks ctx (goesBeyond (operandsAt ctx.arena (countedInContext ctx.arena)) room) [id]
      (expressionAt room id) := by
  induction room generalizing id with
  | zero => exact (Tracks.reportDepth rfl).last fun _ => .pure _
  | succ room ih =>
    have hnode : Tracks ctx (goesBeyond (operandsAt ctx.arena (countedInContext ctx.arena)) room)
        (operandsAt ctx.arena (countedInContext ctx.arena) id) (expressionAt (room + 1) id) := by
      refine Tracks.bind_node? ?_
      unfold operandsAt
      cases ctx.arena.get? id with
      | none => exact .pure _
      | some n => exact expressionNode_tracks ih id n
    intro st hst
    obtain ⟨h, hd⟩ := hnode st hst
    refine ⟨h, hd.trans ?_⟩
    rw [List.any_cons, List.any_nil, Bool.or_false, goesBeyond]

end Functions

section Statements

variable {ctx : Context}

/-- The expression has more levels that are counted than are lowered. -/
def isTooDeep (a : Arena) : NodeId → Bool := goesBeyond (operandsAt a (countedInContext a)) maxNesting

theorem expression_tracks (id : NodeId) :
    Tracks ctx (isTooDeep ctx.arena) [id] (expression id) := expressionAt_tracks maxNesting id

theorem expressionStatement_tracks (e : NodeId) :
    Tracks ctx (isTooDeep ctx.arena)
      (startsOf ctx.arena (countedInContext ctx.arena) ctx.facts (.expressionStatement e))
      (expressionStatement e) := by
  refine Tracks.bind_read ?_
  unfold startsOf
  dsimp only
  cases ctx.arena.get? (ctx.arena.strip e) with
  | none => exact .pure _
  | some n =>
    cases n with
    | assign target op value =>
      exact (assignment?_tracks expression_tracks _ target op value .statement).last fun _ => .pure _
    | update op before operand =>
      exact (update?_tracks expression_tracks op before operand .statement).last fun _ => .pure _
    | delete operand =>
      exact (deletion?_tracks expression_tracks _ operand .statement).last fun _ => .pure _
    | _ => exact (expression_tracks _).last fun _ => .pure _

theorem initialValue_tracks (x : String) (initializer : NodeId) :
    Tracks ctx (isTooDeep ctx.arena)
      (countedInContext ctx.arena initializer (ctx.facts.declaredType x))
      (initialValue x initializer) :=
  Tracks.bind_read (lowerInContext_tracks expression_tracks initializer _)

theorem statementAt_tracks (room : Nat) (id : NodeId) :
    Tracks ctx (isTooDeep ctx.arena)
      (startsWithin ctx.arena (countedInContext ctx.arena) ctx.facts room id)
      (statementAt room id) := by
  induction room generalizing id with
  | zero => exact .pure _
  | succ room ih =>
    have hparts (ids : List NodeId) := (Tracks.mapM ih ids).last fun css =>
      .pure (sealReturns css.flatten)
    refine Tracks.bind_node? ?_
    unfold startsWithin
    cases ctx.arena.get? id with
    | none => exact .pure _
    | some n =>
      cases n with
      | variableDecl x initializer =>
        cases initializer with
        | none => exact .pure _
        | some initializer => exact (initialValue_tracks x initializer).bind fun _ => .pure _
      | returns value =>
        cases value with
        | none => exact .pure _
        | some value => exact (expression_tracks value).last fun _ => .pure _
      | expressionStatement e =>
        have h : Tracks ctx _ _ _ := expressionStatement_tracks e
        rwa [← List.append_nil (startsOf _ _ _ _)] at h
      | block ids => exact (hparts ids).last fun _ => .pure _
      | functionDecl x parameters ids => exact (hparts ids).last fun _ => .pure _
      | file name ids => exact hparts ids
      | ambientDecl x => exact .pure _
      | _ => exact (Tracks.report id (by decide)).bind fun _ => .pure _

end Statements

section Reached

variable {a : Arena} {inContext : NodeId → TypeId → List NodeId} {facts : TypeFacts}
  {s id e : NodeId} {n : Node}

/-- A path can leave where it starts for good. -/
theorem exists_path_avoiding {α : Type} {R : α → α → Prop} {x y : α}
    (h : Relation.ReflTransGen R x y) :
    y = x ∨ ∃ z, R x z ∧ z ≠ x ∧ Relation.ReflTransGen (fun u v => R u v ∧ v ≠ x) z y := by
  induction h with
  | refl => exact .inl rfl
  | @tail u v _ hr ih =>
    by_cases hv : v = x
    · exact .inl hv
    · rcases ih with rfl | ⟨z, hz, hne, hpath⟩
      · exact .inr ⟨v, hr, hv, .refl⟩
      · exact .inr ⟨z, hz, hne, hpath.tail ⟨hr, hv⟩⟩

theorem mem_startsWithin_of_path (room : Nat) (allowed : Finset NodeId) (hcard : allowed.card ≤ room)
    (hid : id ∈ allowed)
    (hpath : Relation.ReflTransGen (fun u v => IsPart a u v ∧ v ∈ allowed) id s)
    (hs : a.get? s = some n) (he : e ∈ startsOf a inContext facts n) :
    e ∈ startsWithin a inContext facts room id := by
  classical
  induction room generalizing allowed id with
  | zero =>
    rw [Finset.card_eq_zero.1 (Nat.le_zero.1 hcard)] at hid
    exact absurd hid (Finset.notMem_empty id)
  | succ room ih =>
    rcases exists_path_avoiding hpath with rfl | ⟨z, ⟨⟨m, hm, hz⟩, hallowed⟩, hne, hrest⟩
    · rw [startsWithin, hs]
      exact List.mem_append_left _ he
    · have hz' : z ∈ allowed.erase id := Finset.mem_erase.2 ⟨hne, hallowed⟩
      have hcard' : (allowed.erase id).card ≤ room := by
        rw [Finset.card_erase_of_mem hid]
        exact Nat.sub_le_of_le_add hcard
      rw [startsWithin, hm]
      refine List.mem_append_right _ (List.mem_flatMap.2 ⟨z, hz, ih _ hcard' hz' ?_⟩)
      refine Relation.ReflTransGen.mono (fun u v h => ?_) z s hrest
      exact ⟨h.1.1, Finset.mem_erase.2 ⟨h.2, h.1.2⟩⟩

theorem exists_path_of_mem_startsWithin {room : Nat}
    (h : e ∈ startsWithin a inContext facts room id) :
    ∃ s n, Relation.ReflTransGen (IsPart a) id s ∧ a.get? s = some n ∧
      e ∈ startsOf a inContext facts n := by
  induction room generalizing id with
  | zero => exact absurd h List.not_mem_nil
  | succ room ih =>
    unfold startsWithin at h
    split at h
    · next n hn =>
      rcases List.mem_append.1 h with h | h
      · exact ⟨id, n, .refl, hn, h⟩
      · obtain ⟨c, hc, he⟩ := List.mem_flatMap.1 h
        obtain ⟨s, m, hpath, hs⟩ := ih he
        exact ⟨s, m, .head ⟨n, hn, hc⟩ hpath, hs⟩
    · exact absurd h List.not_mem_nil

/-- There is room for all statements under a node: a path need not come to a node twice. -/
theorem mem_startsWithin_size :
    e ∈ startsWithin a inContext facts a.size id ↔
      ∃ s n, Relation.ReflTransGen (IsPart a) id s ∧ a.get? s = some n ∧
        e ∈ startsOf a inContext facts n := by
  classical
  refine ⟨exists_path_of_mem_startsWithin, ?_⟩
  rintro ⟨s, n, hpath, hs, he⟩
  let nodes : Finset NodeId := (Finset.range a.size).image NodeId.mk
  have hmem {id : NodeId} {n : Node} (h : a.get? id = some n) : id ∈ nodes :=
    Finset.mem_image.2 ⟨id.index, Finset.mem_range.2 (Arena.has_of_get? h), rfl⟩
  have hinside {n : Node} {s : NodeId} (hpath : Relation.ReflTransGen (IsPart a) id s)
      (hs : a.get? s = some n) :
      id ∈ nodes ∧ Relation.ReflTransGen (fun u v => IsPart a u v ∧ v ∈ nodes) id s := by
    induction hpath generalizing n with
    | refl => exact ⟨hmem hs, .refl⟩
    | tail _ hpart ih =>
      obtain ⟨m, hm, hc⟩ := hpart
      obtain ⟨hid, hpath⟩ := ih hm
      exact ⟨hid, hpath.tail ⟨⟨m, hm, hc⟩, hmem hs⟩⟩
  obtain ⟨hid, hpath⟩ := hinside hpath hs
  have hcard : nodes.card ≤ a.size := by
    simpa using (Finset.card_image_le (s := Finset.range a.size) (f := NodeId.mk))
  exact mem_startsWithin_of_path a.size nodes hcard hid hpath hs he

end Reached

section Comparison

variable {a : Arena} {facts : TypeFacts} {root e : NodeId} {t : TypeId}

theorem goesBeyond_of_mem {below : NodeId → List NodeId} {m : Nat} {id c : NodeId}
    (hc : c ∈ below id) (h : goesBeyond below m c) : goesBeyond below m id := by
  induction m generalizing id c with
  | zero => rfl
  | succ m ih =>
    obtain ⟨d, hd, hdeep⟩ := List.any_eq_true.1 h
    exact List.any_eq_true.2 ⟨c, hc, ih hd hdeep⟩

/-- Whatever is lowered where a type is expected counts. -/
def every (e : NodeId) (_ : TypeId) : List NodeId := [e]

theorem goesBeyond_underParens {m layers : Nat}
    (h : goesBeyond (operandsAt a every) m (underParens a layers e)) :
    goesBeyond (operandsAt a every) m e := by
  induction layers generalizing e with
  | zero => exact h
  | succ layers ih =>
    unfold underParens at h
    split at h
    · next inner hn =>
      have hmem : inner ∈ operandsAt a every e := by
        rw [operandsAt, hn]
        exact List.mem_singleton_self inner
      exact goesBeyond_of_mem hmem (ih h)
    · exact h

theorem goesBeyond_of_counted {m : Nat} {c : NodeId} (hc : c ∈ countedInContext a e t)
    (h : goesBeyond (operandsAt a every) m c) : goesBeyond (operandsAt a every) m e := by
  suffices h : goesBeyond (operandsAt a every) m (underParens a a.size e) from
    goesBeyond_underParens h
  unfold countedInContext at hc
  dsimp only at hc
  split at hc
  · next properties hn =>
    split at hc
    · rwa [List.mem_singleton.1 hc] at h
    · refine goesBeyond_of_mem ?_ h
      rw [operandsAt, hn]
      exact hc
  · rwa [List.mem_singleton.1 hc] at h

theorem goesBeyond_every {m : Nat} {id : NodeId}
    (h : goesBeyond (operandsAt a (countedInContext a)) m id) :
    goesBeyond (operandsAt a every) m id := by
  induction m generalizing id with
  | zero => rfl
  | succ m ih =>
    obtain ⟨c, hc, hdeep⟩ := List.any_eq_true.1 h
    have hdeep := ih hdeep
    unfold operandsAt at hc
    cases hn : a.get? id with
    | none =>
      rw [hn] at hc
      exact absurd hc List.not_mem_nil
    | some n =>
      rw [hn] at hc
      refine List.any_eq_true.2 ?_
      rw [operandsAt, hn]
      cases n with
      | asserted e t => exact ⟨e, List.mem_singleton_self e, goesBeyond_of_counted hc hdeep⟩
      | _ => exact ⟨c, hc, hdeep⟩

/-- What is counted is there. -/
theorem nestsTooDeeply_every (h : NestsTooDeeply a (countedInContext a) facts root) :
    NestsTooDeeply a every facts root := by
  obtain ⟨s, n, e, hpath, hs, he, hdeep⟩ := h
  have hdeep := goesBeyond_every hdeep
  cases n with
  | variableDecl x initializer =>
    cases initializer with
    | none => exact absurd he List.not_mem_nil
    | some initializer =>
      exact ⟨s, _, initializer, hpath, hs, List.mem_singleton_self initializer,
        goesBeyond_of_counted he hdeep⟩
  | returns value => cases value <;> exact ⟨s, _, e, hpath, hs, he, hdeep⟩
  | _ => exact ⟨s, _, e, hpath, hs, he, hdeep⟩

/-- At `e` a value of type `t` is expected. -/
inductive IsExpected (a : Arena) (facts : TypeFacts) (e : NodeId) : TypeId → Prop
  | asserted {id : NodeId} {t : TypeId} (h : a.get? id = some (.asserted e t)) :
    IsExpected a facts e t
  | initializer {id : NodeId} {x : String} (h : a.get? id = some (.variableDecl x (some e))) :
    IsExpected a facts e (facts.declaredType x)

/-- The expression is neither in parentheses nor, if the type is known, an object literal. -/
def IsBare (a : Arena) (e : NodeId) (t : TypeId) : Prop :=
  match a.get? e with
  | some (.parenthesized _) => False
  | some (.object _) => t = .unknown
  | _ => True

theorem countedInContext_of_isBare (h : IsBare a e t) : countedInContext a e t = every e t := by
  have hinner (layers : Nat) : underParens a layers e = e := by
    cases layers with
    | zero => rfl
    | succ layers =>
      unfold underParens
      split
      · next inner hn =>
        rw [IsBare, hn] at h
        exact h.elim
      · rfl
  rw [countedInContext, hinner]
  split
  · next properties hn =>
    rw [IsBare, hn] at h
    rw [if_pos h, every]
  · rfl

theorem nestsTooDeeply_iff (h : ∀ e t, IsExpected a facts e t → IsBare a e t) :
    NestsTooDeeply a (countedInContext a) facts root ↔ NestsTooDeeply a every facts root := by
  have hoperands (id : NodeId) : operandsAt a (countedInContext a) id = operandsAt a every id := by
    unfold operandsAt
    cases hn : a.get? id with
    | none => rfl
    | some n =>
      cases n with
      | asserted e t => exact countedInContext_of_isBare (h e t (.asserted hn))
      | _ => rfl
  have hstarts {s : NodeId} {n : Node} (hs : a.get? s = some n) :
      startsOf a (countedInContext a) facts n = startsOf a every facts n := by
    cases n with
    | variableDecl x initializer =>
      cases initializer with
      | none => rfl
      | some e => exact countedInContext_of_isBare (h e _ (.initializer hs))
    | returns value => cases value <;> rfl
    | _ => rfl
  refine exists_congr fun s => exists_congr fun n => exists_congr fun e => ?_
  rw [funext hoperands]
  exact and_congr_right fun _ => and_congr_right fun hs => by rw [hstarts hs]

end Comparison

end Lowering

/-- What is reported about the nesting in a file. -/
theorem depthReports_lowerFile (a : Arena) (root : NodeId) (store : TypeStore) (facts : TypeFacts)
    (fold : Bool) :
    Lowering.depthReports (lowerFile a root store facts fold).2 =
      ((Lowering.startsWithin a (Lowering.countedInContext a) facts a.size root).any
        (Lowering.isTooDeep a)).toNat := by
  let ctx : Lowering.Context := ⟨a, facts, fold, fileName a root⟩
  have htracks : Lowering.Tracks ctx (Lowering.isTooDeep a)
      (Lowering.startsWithin a (Lowering.countedInContext a) facts a.size root)
      (Lowering.chunk root) := .bind_read (Lowering.statementAt_tracks a.size root)
  obtain ⟨honce, hdepth⟩ := htracks ⟨store, [], false⟩ rfl
  rw [Bool.false_or] at hdepth
  rw [Lowering.State.ReportsOnce, hdepth] at honce
  exact List.countP_reverse.trans honce

/-- Nesting that is too deep is reported once, exactly where the levels that are counted are too
many; what lies deeper becomes `nil`. All levels are counted unless parentheses or object literals
stand where a value of some type is expected. -/
theorem lowerFile_tooDeep (a : Arena) (root : NodeId) (store : TypeStore) (facts : TypeFacts)
    (fold : Bool) :
    let reports := Lowering.depthReports (lowerFile a root store facts fold).2
    let TooDeep := fun inContext => Lowering.NestsTooDeeply a inContext facts root
    reports ≤ 1 ∧ (reports = 1 ↔ TooDeep (Lowering.countedInContext a)) ∧
      (TooDeep (Lowering.countedInContext a) → TooDeep Lowering.every) ∧
      ((∀ e t, Lowering.IsExpected a facts e t → Lowering.IsBare a e t) →
        (reports = 1 ↔ TooDeep Lowering.every)) ∧
      ∀ id ctx st, (Lowering.expressionAt 0 id ctx st).1 = .nil := by
  intro reports TooDeep
  have hcounted : reports = 1 ↔ TooDeep (Lowering.countedInContext a) := by
    rw [show reports = _ from depthReports_lowerFile a root store facts fold, Bool.toNat_eq_one,
      List.any_eq_true]
    constructor
    · rintro ⟨e, he, hdeep⟩
      obtain ⟨s, n, hpath, hs, he⟩ := Lowering.mem_startsWithin_size.1 he
      exact ⟨s, n, e, hpath, hs, he, hdeep⟩
    · rintro ⟨s, n, e, hpath, hs, he, hdeep⟩
      exact ⟨e, Lowering.mem_startsWithin_size.2 ⟨s, n, hpath, hs, he⟩, hdeep⟩
  refine ⟨?_, hcounted, Lowering.nestsTooDeeply_every, fun h => ?_, fun _ _ _ => rfl⟩
  · rw [show reports = _ from depthReports_lowerFile a root store facts fold]
    exact Bool.toNat_le _
  · exact hcounted.trans (Lowering.nestsTooDeeply_iff h)

section Parentheses

/-- `const x = ((1))` with `layers` pairs of parentheses. -/
def parenthesized (layers : Nat) : Arena :=
  let parens := (List.range layers).map fun i => Node.parenthesized ⟨i⟩
  let nodes := .number "1" :: parens ++
    [.variableDecl "x" (some ⟨layers⟩), .file "main.ts" [⟨layers + 1⟩]]
  ⟨(nodes.map fun n => (n, ⟨0, 0⟩)).toArray⟩

variable {layers : Nat}

theorem parenthesized_size (layers : Nat) : (parenthesized layers).size = layers + 3 := by
  simp [parenthesized, Arena.size]

theorem parenthesized_get?_succ {i : Nat} (h : i < layers) :
    (parenthesized layers).get? ⟨i + 1⟩ = some (.parenthesized ⟨i⟩) := by
  simp [parenthesized, Arena.get?, h, List.getElem?_append]

theorem parenthesized_get?_declaration (layers : Nat) :
    (parenthesized layers).get? ⟨layers + 1⟩ = some (.variableDecl "x" (some ⟨layers⟩)) := by
  simp [parenthesized, Arena.get?]

theorem parenthesized_get?_file (layers : Nat) :
    (parenthesized layers).get? ⟨layers + 2⟩ = some (.file "main.ts" [⟨layers + 1⟩]) := by
  simp [parenthesized, Arena.get?]

/-- The parentheses lie one below another. -/
theorem goesBeyond_parenthesized {m i : Nat} (hm : m ≤ i) (hi : i ≤ layers) :
    goesBeyond (Lowering.operandsAt (parenthesized layers) Lowering.every) m ⟨i⟩ := by
  induction m generalizing i with
  | zero => rfl
  | succ m ih =>
    obtain ⟨i, rfl⟩ : ∃ k, i = k + 1 := ⟨i - 1, by omega⟩
    refine List.any_eq_true.2 ⟨⟨i⟩, ?_, ih (Nat.le_of_succ_le_succ hm) (Nat.le_of_lt hi)⟩
    rw [Lowering.operandsAt, parenthesized_get?_succ hi]
    exact List.mem_singleton_self _

/-- They are looked through, down to the number. -/
theorem underParens_parenthesized {room i : Nat} (hi : i ≤ layers) (hroom : i ≤ room) :
    Lowering.underParens (parenthesized layers) room ⟨i⟩ = ⟨0⟩ := by
  induction i generalizing room with
  | zero => cases room <;> rfl
  | succ i ih =>
    obtain ⟨room, rfl⟩ : ∃ k, room = k + 1 := ⟨room - 1, by omega⟩
    rw [Lowering.underParens, parenthesized_get?_succ hi]
    exact ih (Nat.le_of_lt hi) (Nat.le_of_succ_le_succ hroom)

/-- However many they are, nothing is reported. -/
theorem depthReports_parenthesized (layers : Nat) (store : TypeStore) (facts : TypeFacts)
    (fold : Bool) :
    Lowering.depthReports (lowerFile (parenthesized layers) ⟨layers + 2⟩ store facts fold).2 = 0 := by
  have hnumber : (parenthesized layers).get? ⟨0⟩ = some (.number "1") := rfl
  have hcounted (t : TypeId) :
      Lowering.countedInContext (parenthesized layers) ⟨layers⟩ t = [⟨0⟩] := by
    rw [Lowering.countedInContext, underParens_parenthesized (Nat.le_refl _)
      (by rw [parenthesized_size]; omega), hnumber]
  have hshallow : Lowering.isTooDeep (parenthesized layers) ⟨0⟩ = false := by
    rw [Lowering.isTooDeep, maxNesting, goesBeyond, Lowering.operandsAt, hnumber]
    rfl
  have hdeclaration : Lowering.startsWithin (parenthesized layers)
      (Lowering.countedInContext (parenthesized layers)) facts (layers + 2) ⟨layers + 1⟩ = [⟨0⟩] := by
    rw [Lowering.startsWithin, parenthesized_get?_declaration]
    exact congrArg (· ++ []) (hcounted _)
  have hfile : Lowering.startsWithin (parenthesized layers)
      (Lowering.countedInContext (parenthesized layers)) facts (layers + 3) ⟨layers + 2⟩ = [⟨0⟩] := by
    rw [Lowering.startsWithin, parenthesized_get?_file]
    exact congrArg (· ++ []) hdeclaration
  rw [depthReports_lowerFile, parenthesized_size, hfile, List.any_cons, hshallow]
  rfl

/-- A variable that starts with a number in more parentheses than are lowered. -/
theorem not_lowerFile_tooDeep :
    Lowering.NestsTooDeeply (parenthesized 501) Lowering.every .empty ⟨503⟩ ∧
      Lowering.depthReports (lowerFile (parenthesized 501) ⟨503⟩ .initial .empty true).2 = 0 := by
  refine ⟨?_, depthReports_parenthesized 501 .initial .empty true⟩
  exact ⟨⟨502⟩, _, ⟨501⟩, .single ⟨_, parenthesized_get?_file 501, List.mem_singleton_self _⟩,
    parenthesized_get?_declaration 501, List.mem_singleton_self _,
    goesBeyond_parenthesized (Nat.le_succ _) (Nat.le_refl _)⟩

end Parentheses

end ScriptToLua
