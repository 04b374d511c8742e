import Mathlib
import ScriptToLua.Lowering.Expression

/-!
Arenas that hold trees. Every node has at most one parent, which comes after it, so what is counted
down the tree is counted once: `Arena.IsTree.weigh_eq_ncard`.
-/

namespace ScriptToLua.Source

/-- The node of a computed key. -/
def Key.node? : Key → Option NodeId
  | computed key => some key
  | _ => none

/-- The nodes that a node refers to, in the order of the text. -/
def Node.children : Node → List NodeId
  | array elements => elements
  | object properties => properties.flatMap fun p => p.1.node?.toList ++ [p.2]
  | property receiver _ => [receiver]
  | element receiver key => [receiver, key]
  | call callee arguments => callee :: arguments
  | binary left _ right => [left, right]
  | assign target _ value => [target, value]
  | unary _ operand => [operand]
  | update _ _ operand => [operand]
  | delete operand => [operand]
  | template _ spans => spans.map Prod.fst
  | asserted expression _ => [expression]
  | parenthesized inner => [inner]
  | variableDecl _ initializer => initializer.toList
  | expressionStatement expression => [expression]
  | returns value => value.toList
  | block statements => statements
  | functionDecl _ _ body => body
  | file _ statements => statements
  | _ => []

namespace Arena

variable {a : Arena} {id c : NodeId} {n : Node} {p : NodeId → Bool}

/-- The arena has the node. -/
def Has (a : Arena) (id : NodeId) : Prop := id.index < a.size

instance (a : Arena) (id : NodeId) : Decidable (a.Has id) :=
  inferInstanceAs (Decidable (id.index < a.size))

def children (a : Arena) (id : NodeId) : List NodeId := ((a.get? id).map Node.children).getD []

/-- Children come before their parents, and no node is referred to twice. -/
structure IsTree (a : Arena) : Prop where
  below : ∀ i < a.size, ∀ c ∈ a.children ⟨i⟩, a.Has c → c.index < i
  once : ((List.range a.size).flatMap fun i => (a.children ⟨i⟩).filter (a.Has ·)).Nodup

instance (a : Arena) : Decidable a.IsTree :=
  decidable_of_iff _ ⟨fun h => ⟨h.1, h.2⟩, fun h => And.intro h.below h.once⟩

/-- The second node is a child of the first. -/
def IsChild (a : Arena) (id c : NodeId) : Prop := c ∈ a.children id ∧ a.Has c

/-- The second node is in the tree under the first. -/
def Reaches (a : Arena) : NodeId → NodeId → Prop := Relation.ReflTransGen a.IsChild

theorem has_of_get? (h : a.get? id = some n) : a.Has id := by
  obtain ⟨e, he, -⟩ := Option.map_eq_some_iff.1 h
  exact (Array.getElem?_eq_some_iff.1 he).1

theorem get?_of_not_has (h : ¬ a.Has id) : a.get? id = none := by
  rw [get?, Array.getElem?_eq_none (Nat.not_lt.1 h), Option.map_none]

theorem children_of_get? (h : a.get? id = some n) : a.children id = n.children := by
  rw [children, h, Option.map_some, Option.getD_some]

theorem children_of_get?_none (h : a.get? id = none) : a.children id = [] := by
  rw [children, h, Option.map_none, Option.getD_none]

/-- What is peeled off has one child. -/
theorem children_of_peel? (h : a.peel? id = some c) : a.children id = [c] := by
  unfold peel? at h
  split at h
  · next inner hn =>
    cases h
    exact children_of_get? hn
  · next e t hn =>
    cases h
    exact children_of_get? hn
  · cases h

theorem has_of_mem_children (h : c ∈ a.children id) : a.Has id := by
  by_contra hid
  rw [children_of_get?_none (get?_of_not_has hid)] at h
  exact List.not_mem_nil h

namespace IsTree

theorem lt (h : a.IsTree) (hc : a.IsChild id c) : c.index < id.index :=
  h.below id.index (has_of_mem_children hc.1) c hc.1 hc.2

theorem le_of_reaches (h : a.IsTree) (hr : a.Reaches id c) : c.index ≤ id.index := by
  induction hr with
  | refl => exact Nat.le_refl _
  | tail _ hc ih => exact (Nat.le_of_lt (h.lt hc)).trans ih

/-- A node has one parent. -/
theorem parent_unique (h : a.IsTree) {id' : NodeId} (hc : a.IsChild id c) (hc' : a.IsChild id' c) :
    id = id' := by
  have hpairwise := (List.nodup_flatMap.1 h.once).2
  have hsymm : Std.Symm (Function.onFun List.Disjoint fun i =>
      (a.children ⟨i⟩).filter (a.Has ·)) := ⟨fun _ _ hd => List.Disjoint.symm hd⟩
  by_contra hne
  have hmem {j : NodeId} (hj : a.IsChild j c) : j.index ∈ List.range a.size :=
    List.mem_range.2 (has_of_mem_children hj.1)
  have hin {j : NodeId} (hj : a.IsChild j c) :
      c ∈ (a.children ⟨j.index⟩).filter (a.Has ·) :=
    List.mem_filter.2 ⟨hj.1, decide_eq_true hj.2⟩
  have hindex : id.index ≠ id'.index := fun heq => hne (by cases id; cases id'; cases heq; rfl)
  exact hpairwise.forall (hmem hc) (hmem hc') hindex (hin hc) (hin hc')

theorem siblings (h : a.IsTree) (id : NodeId) :
    (a.children id).Pairwise fun c c' => a.Has c → a.Has c' → c ≠ c' := by
  by_cases hid : a.Has id
  · have hnodup := (List.nodup_flatMap.1 h.once).1 id.index (List.mem_range.2 hid)
    refine (List.pairwise_filter.1 hnodup).imp fun hne hc hc' => ?_
    exact hne (decide_eq_true hc) (decide_eq_true hc')
  · rw [children_of_get?_none (get?_of_not_has hid)]
    exact .nil

/-- Of two nodes above one node, one is above the other. -/
theorem comparable (h : a.IsTree) {x y z : NodeId} (hx : a.Reaches x z) (hy : a.Reaches y z) :
    a.Reaches x y ∨ a.Reaches y x := by
  have hunique : Relator.RightUnique (Function.swap a.IsChild) :=
    fun _ _ _ hb hc => h.parent_unique hb hc
  have hup {u v : NodeId} : a.Reaches u v ↔ Relation.ReflTransGen (Function.swap a.IsChild) v u :=
    Relation.reflTransGen_swap.symm
  rcases Relation.ReflTransGen.total_of_right_unique hunique (hup.1 hx) (hup.1 hy) with hxy | hxy
  · exact .inr (hup.2 hxy)
  · exact .inl (hup.2 hxy)

/-- The trees under two children of a node have nothing in common. -/
theorem disjoint (h : a.IsTree) {c c' x : NodeId} (hc : a.IsChild id c) (hc' : a.IsChild id c')
    (hne : c ≠ c') (hx : a.Reaches c x) : ¬ a.Reaches c' x := by
  have hbelow {d d' : NodeId} (hd : a.IsChild id d) (hd' : a.IsChild id d') (hdd : d ≠ d') :
      ¬ a.Reaches d d' := by
    intro hr
    rcases Relation.ReflTransGen.cases_tail hr with heq | ⟨e, hde, he⟩
    · exact hdd heq.symm
    · obtain rfl := h.parent_unique he hd'
      exact absurd (h.le_of_reaches hde) (Nat.not_le.2 (h.lt hd))
  intro hx'
  rcases h.comparable hx hx' with hr | hr
  · exact hbelow hc hc' hne hr
  · exact hbelow hc' hc (Ne.symm hne) hr

end IsTree

/-- How many nodes with `p` there are in the tree under a node, down to `room` levels. -/
def tally (a : Arena) (p : NodeId → Bool) : (room : Nat) → NodeId → Nat
  | 0, _ => 0
  | room + 1, id => (if p id then 1 else 0) + ((a.children id).map (tally a p room)).sum

/-- How many nodes with `p` there are in the tree under a node. -/
def weigh (a : Arena) (p : NodeId → Bool) (id : NodeId) : Nat := a.tally p a.size id

/-- Only nodes of the arena have the property. -/
def Within (a : Arena) (p : NodeId → Bool) : Prop := ∀ id, p id → a.Has id

theorem tally_of_not_has (hp : a.Within p) (room : Nat) (h : ¬ a.Has id) :
    a.tally p room id = 0 := by
  cases room with
  | zero => rfl
  | succ room =>
    rw [tally, if_neg fun hpid => h (hp id hpid), children_of_get?_none (get?_of_not_has h)]
    rfl

/-- No level is needed beyond the position of the node. -/
theorem tally_eq (h : a.IsTree) (hp : a.Within p) {room room' : Nat} (hr : id.index < room)
    (hr' : id.index < room') : a.tally p room id = a.tally p room' id := by
  induction room generalizing id room' with
  | zero => cases hr
  | succ room ih =>
    obtain ⟨room', rfl⟩ : ∃ k, room' = k + 1 := ⟨room' - 1, by omega⟩
    have hsum : (a.children id).map (tally a p room) = (a.children id).map (tally a p room') := by
      refine List.map_congr_left fun c hc => ?_
      by_cases hhas : a.Has c
      · have hlt := h.lt ⟨hc, hhas⟩
        exact ih (by omega) (by omega)
      · rw [tally_of_not_has hp _ hhas, tally_of_not_has hp _ hhas]
    rw [tally, tally, hsum]

/-- What is counted under a node is the node and what is counted under its children. -/
theorem IsTree.weigh_eq (h : a.IsTree) (hp : a.Within p) (id : NodeId) :
    a.weigh p id = (if p id then 1 else 0) + ((a.children id).map (a.weigh p)).sum := by
  by_cases hid : a.Has id
  · have hone : a.weigh p id = a.tally p (a.size + 1) id :=
      tally_eq h hp hid (Nat.lt_succ_of_lt hid)
    rw [hone, tally]
    rfl
  · rw [weigh, tally_of_not_has hp _ hid, if_neg fun hpid => hid (hp id hpid),
      children_of_get?_none (get?_of_not_has hid)]
    rfl

/-- The nodes with `p` in the tree under a node. -/
def marked (a : Arena) (p : NodeId → Bool) (id : NodeId) : Set NodeId := {x | a.Reaches id x ∧ p x}

theorem marked_finite (hp : a.Within p) (id : NodeId) : (a.marked p id).Finite := by
  have hrange : (Set.range fun i : Fin a.size => (⟨i⟩ : NodeId)).Finite := Set.finite_range _
  exact hrange.subset fun x hx => ⟨⟨x.index, hp x hx.2⟩, rfl⟩

theorem ncard_of_disjoint {S : NodeId → Set NodeId} {l : List NodeId}
    (h : l.Pairwise fun c c' => Disjoint (S c) (S c')) (hf : ∀ c ∈ l, (S c).Finite) :
    {x | ∃ c ∈ l, x ∈ S c}.ncard = (l.map fun c => (S c).ncard).sum := by
  induction l with
  | nil => simp
  | cons c l ih =>
    obtain ⟨hc, hl⟩ := List.pairwise_cons.1 h
    have hrest := ih hl fun c' hc' => hf c' (List.mem_cons_of_mem c hc')
    have hfinite : {x | ∃ c' ∈ l, x ∈ S c'}.Finite := by
      have hunion := Set.Finite.biUnion (List.finite_toSet l) fun c' hc' =>
        hf c' (List.mem_cons_of_mem c hc')
      exact hunion.subset fun x ⟨c', hc', hx⟩ => Set.mem_biUnion hc' hx
    have hdisjoint : Disjoint (S c) {x | ∃ c' ∈ l, x ∈ S c'} := by
      rw [Set.disjoint_left]
      rintro x hx ⟨c', hc', hx'⟩
      exact Set.disjoint_left.1 (hc c' hc') hx hx'
    have hsplit : {x | ∃ c' ∈ c :: l, x ∈ S c'} = S c ∪ {x | ∃ c' ∈ l, x ∈ S c'} := by
      ext x
      simp only [List.mem_cons, exists_eq_or_imp, Set.mem_ofPred_eq, Set.mem_union]
    rw [hsplit, Set.ncard_union_eq hdisjoint (hf c List.mem_cons_self) hfinite, hrest]
    rfl

theorem has_of_mem_marked (hp : a.Within p) {x : NodeId} (h : x ∈ a.marked p id) : a.Has id := by
  rcases Relation.ReflTransGen.cases_head h.1 with rfl | ⟨c, hc, -⟩
  · exact hp _ h.2
  · exact has_of_mem_children hc.1

theorem marked_of_not_has (hp : a.Within p) (h : ¬ a.Has id) : a.marked p id = ∅ :=
  Set.eq_empty_of_forall_notMem fun _ hx => h (has_of_mem_marked hp hx)

theorem marked_eq (hp : a.Within p) (id : NodeId) :
    a.marked p id = {x | x = id ∧ p id} ∪ {x | ∃ c ∈ a.children id, x ∈ a.marked p c} := by
  ext x
  constructor
  · rintro ⟨hr, hpx⟩
    rcases Relation.ReflTransGen.cases_head hr with rfl | ⟨c, hc, hr⟩
    · exact .inl ⟨rfl, hpx⟩
    · exact .inr ⟨c, hc.1, hr, hpx⟩
  · rintro (⟨rfl, hpx⟩ | ⟨c, hc, hx⟩)
    · exact ⟨.refl, hpx⟩
    · exact ⟨.head ⟨hc, has_of_mem_marked hp hx⟩ hx.1, hx.2⟩

theorem IsTree.marked_disjoint (h : a.IsTree) (hp : a.Within p) (id : NodeId) :
    (a.children id).Pairwise fun c c' => Disjoint (a.marked p c) (a.marked p c') := by
  refine List.Pairwise.imp_of_mem ?_ (h.siblings id)
  intro c c' hc hc' hne
  rw [Set.disjoint_left]
  intro x hx hx'
  have hhas := has_of_mem_marked hp hx
  have hhas' := has_of_mem_marked hp hx'
  exact h.disjoint ⟨hc, hhas⟩ ⟨hc', hhas'⟩ (hne hhas hhas') hx.1 hx'.1

/-- What is in the tree under a node is the node and what is in the trees under its children. -/
theorem IsTree.ncard_marked (h : a.IsTree) (hp : a.Within p) (id : NodeId) :
    (a.marked p id).ncard =
      (if p id then 1 else 0) + ((a.children id).map fun c => (a.marked p c).ncard).sum := by
  have hdisjoint : Disjoint {x | x = id ∧ p id} {x | ∃ c ∈ a.children id, x ∈ a.marked p c} := by
    rw [Set.disjoint_left]
    rintro x ⟨rfl, -⟩ ⟨c, hc, hx⟩
    have hlt := h.lt ⟨hc, has_of_mem_marked hp hx⟩
    exact absurd (h.le_of_reaches hx.1) (Nat.not_le.2 hlt)
  have hone : {x | x = id ∧ p id}.ncard = if p id then 1 else 0 := by
    cases p id <;> simp
  have hfinite : {x | x = id ∧ p id}.Finite :=
    (Set.finite_singleton id).subset fun x hx => hx.1
  have hrest : {x | ∃ c ∈ a.children id, x ∈ a.marked p c}.Finite :=
    (marked_finite hp id).subset (marked_eq hp id ▸ Set.subset_union_right)
  rw [marked_eq hp id, Set.ncard_union_eq hdisjoint hfinite hrest, hone,
    ncard_of_disjoint (h.marked_disjoint hp id) fun c _ => marked_finite hp c]

/-- Counting down the tree counts the nodes with `p` that are in it. -/
theorem IsTree.weigh_eq_ncard (h : a.IsTree) (hp : a.Within p) (id : NodeId) :
    a.weigh p id = (a.marked p id).ncard := by
  have hout {c : NodeId} (hc : ¬ a.Has c) : a.weigh p c = (a.marked p c).ncard := by
    rw [weigh, tally_of_not_has hp _ hc, marked_of_not_has hp hc, Set.ncard_empty]
  obtain ⟨i⟩ := id
  induction i using Nat.strong_induction_on with
  | _ i ih =>
    rw [h.weigh_eq hp, h.ncard_marked hp]
    congr 2
    refine List.map_congr_left fun c hc => ?_
    by_cases hhas : a.Has c
    · exact ih c.index (h.lt ⟨hc, hhas⟩)
    · exact hout hhas

section Strip

theorem stripLayers_of_peel?_none (h : a.peel? id = none) (layers : Nat) :
    a.stripLayers layers id = id := by
  cases layers with
  | zero => rfl
  | succ layers => simp only [stripLayers, h]

/-- Where nothing is left to peel, one layer more takes nothing off. -/
theorem stripLayers_succ {layers : Nat} (h : a.peel? (a.stripLayers layers id) = none) :
    a.stripLayers (layers + 1) id = a.stripLayers layers id := by
  induction layers generalizing id with
  | zero => exact stripLayers_of_peel?_none h 1
  | succ layers ih =>
    rw [stripLayers] at h
    rw [stripLayers, stripLayers]
    cases hpeel : a.peel? id with
    | none => rfl
    | some inner =>
      rw [hpeel] at h
      exact ih h

theorem peel?_of_not_has (h : ¬ a.Has id) : a.peel? id = none := by
  rw [peel?, get?_of_not_has h]

/-- As many layers as there are nodes up to this one leave nothing to peel. -/
theorem IsTree.peel?_stripLayers (h : a.IsTree) {layers : Nat} (hl : id.index < layers) :
    a.peel? (a.stripLayers layers id) = none := by
  induction layers generalizing id with
  | zero => cases hl
  | succ layers ih =>
    rw [stripLayers]
    cases hpeel : a.peel? id with
    | none => exact hpeel
    | some inner =>
      by_cases hhas : a.Has inner
      · have hlt := h.lt ⟨children_of_peel? hpeel ▸ List.mem_singleton_self inner, hhas⟩
        exact ih (by omega)
      · have hnone := peel?_of_not_has hhas
        change a.peel? (a.stripLayers layers inner) = none
        rw [stripLayers_of_peel?_none hnone]
        exact hnone

theorem IsTree.strip_of_peel? (h : a.IsTree) {inner : NodeId} (hp : a.peel? id = some inner) :
    a.strip id = a.strip inner := by
  have hchild : inner ∈ a.children id := children_of_peel? hp ▸ List.mem_singleton_self inner
  have hid : id.index < a.size := has_of_mem_children hchild
  obtain ⟨size, hsize⟩ : ∃ size, a.size = size + 1 := ⟨a.size - 1, by omega⟩
  have hstep : a.stripLayers (size + 1) id = a.stripLayers size inner := by
    simp only [stripLayers, hp]
  rw [strip, strip, hsize, hstep]
  by_cases hhas : a.Has inner
  · have hlt := h.lt ⟨hchild, hhas⟩
    exact (stripLayers_succ (h.peel?_stripLayers (by omega))).symm
  · have hnone := peel?_of_not_has hhas
    rw [stripLayers_of_peel?_none hnone, stripLayers_of_peel?_none hnone]

/-- What parentheses and assertions stand around is what they weigh. -/
theorem IsTree.weigh_of_peel? (h : a.IsTree) (hp : a.Within p)
    (hpeel : ∀ id, p id → a.peel? id = none) {inner : NodeId} (hi : a.peel? id = some inner) :
    a.weigh p id = a.weigh p inner := by
  have hid : ¬ p id := by
    intro hpid
    rw [hpeel id hpid] at hi
    cases hi
  rw [h.weigh_eq hp, if_neg hid, children_of_peel? hi]
  simp

theorem IsTree.weigh_strip (h : a.IsTree) (hp : a.Within p)
    (hpeel : ∀ id, p id → a.peel? id = none) (id : NodeId) :
    a.weigh p (a.strip id) = a.weigh p id := by
  have hlayers (layers : Nat) (id : NodeId) :
      a.weigh p (a.stripLayers layers id) = a.weigh p id := by
    induction layers generalizing id with
    | zero => rfl
    | succ layers ih =>
      rw [stripLayers]
      cases hi : a.peel? id with
      | none => rfl
      | some inner => exact (ih inner).trans (h.weigh_of_peel? hp hpeel hi).symm
  exact hlayers a.size id

end Strip

end Arena

end ScriptToLua.Source
