import Mathlib
import ScriptToLua.Proofs.Source.Tree

/-!
Putting a node into parentheses. The parentheses come right after the node, and all references to
the node go to them; nodes that come later move up. What stands under parentheses and assertions is the
same node as before: `Stands.strip`.
-/

namespace ScriptToLua.Source

/-- The nodes after `w` move up by one. -/
def NodeId.shiftAfter (w id : NodeId) : NodeId :=
  ⟨if id.index ≤ w.index then id.index else id.index + 1⟩

/-- The nodes from `w` on move up by one. -/
def NodeId.shiftFrom (w id : NodeId) : NodeId :=
  ⟨if id.index < w.index then id.index else id.index + 1⟩

def Key.mapRefs (f : NodeId → NodeId) : Key → Key
  | computed key => computed (f key)
  | key => key

/-- The node with its references changed by `f`. -/
def Node.mapRefs (f : NodeId → NodeId) : Node → Node
  | array elements => array (elements.map f)
  | object properties => object (properties.map fun p => (p.1.mapRefs f, f p.2))
  | property receiver name => property (f receiver) name
  | element receiver key => element (f receiver) (f key)
  | call callee arguments => call (f callee) (arguments.map f)
  | binary left op right => binary (f left) op (f right)
  | assign target op value => assign (f target) op (f value)
  | unary op operand => unary op (f operand)
  | update op before operand => update op before (f operand)
  | delete operand => delete (f operand)
  | template head spans => template head (spans.map fun p => (f p.1, p.2))
  | asserted expression type => asserted (f expression) type
  | parenthesized inner => parenthesized (f inner)
  | variableDecl name initializer => variableDecl name (initializer.map f)
  | expressionStatement expression => expressionStatement (f expression)
  | returns value => returns (value.map f)
  | block statements => block (statements.map f)
  | functionDecl name parameters body => functionDecl name parameters (body.map f)
  | file name statements => file name (statements.map f)
  | n => n

/-- The arena with the node at `w` in parentheses. -/
def Arena.parenthesize (a : Arena) (w : NodeId) (span : Span) : Arena :=
  let entries := a.entries.toList.map fun e => (e.1.mapRefs w.shiftFrom, e.2)
  ⟨(entries.insertIdx (w.index + 1) (.parenthesized w, span)).toArray⟩

theorem Node.children_mapRefs (f : NodeId → NodeId) (n : Node) :
    (n.mapRefs f).children = n.children.map f := by
  cases n with
  | object properties =>
    simp only [mapRefs, children, List.flatMap_map, List.map_flatMap]
    refine List.flatMap_congr fun p _ => ?_
    obtain ⟨key, value⟩ := p
    cases key <;> rfl
  | template head spans => simp [mapRefs, children, Function.comp_def]
  | variableDecl name initializer => cases initializer <;> rfl
  | returns value => cases value <;> rfl
  | _ => rfl

theorem Node.isStatement_mapRefs (f : NodeId → NodeId) (n : Node) :
    (n.mapRefs f).isStatement = n.isStatement := by cases n <;> rfl

namespace NodeId

variable {w id : NodeId}

theorem shiftAfter_self (w : NodeId) : w.shiftAfter w = w := by
  rw [shiftAfter, if_pos (Nat.le_refl _)]

theorem shiftFrom_eq (h : id ≠ w) : w.shiftFrom id = w.shiftAfter id := by
  have hindex : id.index ≠ w.index := fun he => h (by cases id; cases w; cases he; rfl)
  simp only [shiftFrom, shiftAfter, Nat.lt_iff_le_and_ne]
  simp [hindex]

theorem shiftFrom_self (w : NodeId) : w.shiftFrom w = ⟨w.index + 1⟩ := by
  rw [shiftFrom, if_neg (Nat.lt_irrefl _)]

theorem shiftFrom_lt {c : NodeId} (h : c.index < id.index) :
    (w.shiftFrom c).index < (w.shiftAfter id).index := by
  simp only [shiftFrom, shiftAfter]
  split <;> split <;> omega

end NodeId

namespace Arena

variable {a : Arena} {w id : NodeId} {span : Span}

theorem size_parenthesize (hw : a.Has w) : (a.parenthesize w span).size = a.size + 1 := by
  have hlt : w.index < a.entries.size := hw
  simp [parenthesize, size, List.length_insertIdx, hlt]

theorem get?_shiftAfter (id : NodeId) :
    (a.parenthesize w span).get? (w.shiftAfter id) =
      (a.get? id).map (Node.mapRefs w.shiftFrom) := by
  simp only [get?, parenthesize, NodeId.shiftAfter, List.getElem?_toArray]
  split
  · next h =>
    rw [List.getElem?_insertIdx_of_lt (Nat.lt_succ_of_le h)]
    simp [Function.comp_def]
  · next h =>
    rw [List.getElem?_insertIdx_of_gt (by omega)]
    simp [Function.comp_def]

theorem get?_shiftAfter_of_get? {n : Node} (hn : a.get? id = some n) :
    (a.parenthesize w span).get? (w.shiftAfter id) = some (n.mapRefs w.shiftFrom) := by
  rw [get?_shiftAfter, hn, Option.map_some]

theorem mem_children_shiftAfter {n : Node} {c : NodeId} (hn : a.get? id = some n)
    (hc : c ∈ n.children) :
    w.shiftFrom c ∈ (a.parenthesize w span).children (w.shiftAfter id) := by
  rw [children_of_get? (get?_shiftAfter_of_get? hn), Node.children_mapRefs]
  exact List.mem_map_of_mem hc

theorem get?_shiftFrom_self (hw : a.Has w) :
    (a.parenthesize w span).get? (w.shiftFrom w) = some (.parenthesized w) := by
  have hlt : w.index < a.entries.size := hw
  simp only [get?, parenthesize, NodeId.shiftFrom_self, List.getElem?_toArray]
  rw [List.getElem?_insertIdx_self]
  simp [hlt]

/-- Nothing stands for a node that is not there. -/
theorem get?_shiftFrom_of_not_has (hw : a.Has w) (h : ¬ a.Has id) :
    (a.parenthesize w span).get? (w.shiftFrom id) = none := by
  have hne : id ≠ w := fun heq => h (heq ▸ hw)
  rw [NodeId.shiftFrom_eq hne, get?_shiftAfter, get?_of_not_has h, Option.map_none]

theorem peel?_shiftAfter (id : NodeId) :
    (a.parenthesize w span).peel? (w.shiftAfter id) = (a.peel? id).map w.shiftFrom := by
  unfold peel?
  rw [get?_shiftAfter]
  cases a.get? id with
  | none => rfl
  | some n => cases n <;> rfl

theorem peel?_shiftFrom_self (hw : a.Has w) :
    (a.parenthesize w span).peel? (w.shiftFrom w) = some w := by
  rw [peel?, get?_shiftFrom_self hw]

/-- The expression in the parentheses at a node. -/
def inParens? (a : Arena) (id : NodeId) : Option NodeId :=
  match a.get? id with
  | some (.parenthesized inner) => some inner
  | _ => none

theorem inParens?_shiftAfter (id : NodeId) :
    (a.parenthesize w span).inParens? (w.shiftAfter id) = (a.inParens? id).map w.shiftFrom := by
  unfold inParens?
  rw [get?_shiftAfter]
  cases a.get? id with
  | none => rfl
  | some n => cases n <;> rfl

theorem inParens?_shiftFrom_self (hw : a.Has w) :
    (a.parenthesize w span).inParens? (w.shiftFrom w) = some w := by
  rw [inParens?, get?_shiftFrom_self hw]

end Arena

/-- The second node is what has become of the first: the node itself or the parentheses around it. -/
inductive Stands (w : NodeId) : NodeId → NodeId → Prop
  | node (id : NodeId) : Stands w id (w.shiftAfter id)
  | parens : Stands w w (w.shiftFrom w)

theorem Stands.self (w : NodeId) : Stands w w w := by
  have h := Stands.node (w := w) w
  rwa [NodeId.shiftAfter_self] at h

/-- References go to what stands for a node. -/
theorem Stands.reference (w id : NodeId) : Stands w id (w.shiftFrom id) := by
  by_cases h : id = w
  · rw [h]
    exact .parens
  · rw [NodeId.shiftFrom_eq h]
    exact .node id

section Descent

/-- Follows `f` for at most `layers` steps. -/
def descend (f : NodeId → Option NodeId) : (layers : Nat) → NodeId → NodeId
  | 0, id => id
  | layers + 1, id =>
    match f id with
    | some inner => descend f layers inner
    | none => id

theorem descend_of_none {f : NodeId → Option NodeId} {id : NodeId} (h : f id = none)
    (layers : Nat) : descend f layers id = id := by
  cases layers with
  | zero => rfl
  | succ layers => rw [descend, h]

theorem stripLayers_eq_descend (a : Arena) (layers : Nat) (id : NodeId) :
    a.stripLayers layers id = descend a.peel? layers id := by
  induction layers generalizing id with
  | zero => rfl
  | succ layers ih =>
    rw [Arena.stripLayers, descend]
    cases a.peel? id with
    | none => rfl
    | some inner => exact ih inner

theorem underParens_eq_descend (a : Arena) (layers : Nat) (id : NodeId) :
    Lowering.underParens a layers id = descend a.inParens? layers id := by
  induction layers generalizing id with
  | zero => rfl
  | succ layers ih =>
    rw [Lowering.underParens, descend, Arena.inParens?]
    cases a.get? id with
    | none => rfl
    | some n =>
      cases n with
      | parenthesized inner => exact ih inner
      | _ => rfl

variable {w : NodeId} {f g : NodeId → Option NodeId}
  (hnode : ∀ id, g (w.shiftAfter id) = (f id).map w.shiftFrom) (hparens : g (w.shiftFrom w) = some w)
  (hdown : ∀ id c, f id = some c → c.index < id.index ∨ f c = none ∧ c ≠ w)

include hnode hparens hdown

/-- With enough steps, what stands for a node leads to what stands where the node leads to. -/
theorem Stands.descend {layers layers' : Nat} {id id' : NodeId} (h : Stands w id id')
    (hl : id.index < layers ∨ f id = none ∧ id ≠ w)
    (hl' : id'.index < layers' ∨ f id = none ∧ id ≠ w) :
    descend g layers' id' = w.shiftAfter (descend f layers id) := by
  induction layers' generalizing layers id id' with
  | zero =>
    obtain ⟨hnone, hne⟩ := hl'.resolve_left (Nat.not_lt_zero _)
    cases h with
    | node => rw [descend_of_none hnone, Source.descend]
    | parens => exact absurd rfl hne
  | succ layers' ih =>
    cases h with
    | parens =>
      have hlt := hl'.resolve_right fun h => h.2 rfl
      rw [Source.descend, hparens]
      rw [NodeId.shiftFrom_self] at hlt
      exact ih (.self w) hl (.inl (Nat.lt_of_succ_lt_succ hlt))
    | node =>
      cases hf : f id with
      | none =>
        have hg : g (w.shiftAfter id) = none := by rw [hnode, hf, Option.map_none]
        rw [descend_of_none hf, descend_of_none hg]
      | some c =>
        have hlt : id.index < layers := hl.resolve_right fun h => by simp [hf] at h
        have hlt' : (w.shiftAfter id).index < layers' + 1 :=
          hl'.resolve_right fun h => by simp [hf] at h
        obtain ⟨layers, rfl⟩ : ∃ k, layers = k + 1 := ⟨layers - 1, by omega⟩
        rw [Source.descend, hnode, hf, Option.map_some, Source.descend, hf]
        refine ih (.reference w c) ((hdown id c hf).imp_left fun h => by omega)
          ((hdown id c hf).imp_left fun h => ?_)
        exact Nat.lt_of_lt_of_le (NodeId.shiftFrom_lt h) (Nat.le_of_lt_succ hlt')

end Descent

namespace Stands

variable {a : Arena} {w id id' : NodeId} {span : Span}

/-- Steps from nodes to children need no more room than there are nodes. -/
theorem descend_size (ha : a.IsTree) (hw : a.Has w) (h : Stands w id id')
    {f g : NodeId → Option NodeId} (hnode : ∀ id, g (w.shiftAfter id) = (f id).map w.shiftFrom)
    (hparens : g (w.shiftFrom w) = some w) (hchild : ∀ id c, f id = some c → c ∈ a.children id) :
    Source.descend g (a.parenthesize w span).size id' =
      w.shiftAfter (Source.descend f a.size id) := by
  have hout (id : NodeId) (hid : ¬ a.Has id) : f id = none ∧ id ≠ w := by
    refine ⟨?_, fun he => hid (he ▸ hw)⟩
    cases hf : f id with
    | none => rfl
    | some c => exact absurd (Arena.has_of_mem_children (hchild id c hf)) hid
  rw [Arena.size_parenthesize hw]
  refine h.descend hnode hparens (fun id c hc => ?_) ?_ ?_
  · by_cases hhas : a.Has c
    · exact .inl (ha.lt ⟨hchild id c hc, hhas⟩)
    · exact .inr (hout c hhas)
  · exact (Classical.em (a.Has id)).imp_right (hout id)
  · refine (Classical.em (a.Has id)).imp (fun hid => ?_) (hout id)
    cases h with
    | node =>
      rw [NodeId.shiftAfter]
      split
      · exact Nat.lt_succ_of_lt hid
      · exact Nat.succ_lt_succ hid
    | parens =>
      rw [NodeId.shiftFrom_self]
      exact Nat.succ_lt_succ hid

theorem strip (ha : a.IsTree) (hw : a.Has w) (h : Stands w id id') :
    (a.parenthesize w span).strip id' = w.shiftAfter (a.strip id) := by
  rw [Arena.strip, Arena.strip, stripLayers_eq_descend, stripLayers_eq_descend]
  refine h.descend_size ha hw Arena.peel?_shiftAfter (Arena.peel?_shiftFrom_self hw) fun id c hc => ?_
  rw [Arena.children_of_peel? hc]
  exact List.mem_singleton_self c

theorem underParens (ha : a.IsTree) (hw : a.Has w) (h : Stands w id id') :
    Lowering.underParens (a.parenthesize w span) (a.parenthesize w span).size id' =
      w.shiftAfter (Lowering.underParens a a.size id) := by
  rw [underParens_eq_descend, underParens_eq_descend]
  refine h.descend_size ha hw Arena.inParens?_shiftAfter (Arena.inParens?_shiftFrom_self hw)
    fun id c hc => ?_
  unfold Arena.inParens? at hc
  split at hc
  · next inner hn =>
    cases hc
    rw [Arena.children_of_get? hn]
    exact List.mem_singleton_self c
  · cases hc

end Stands

end ScriptToLua.Source
