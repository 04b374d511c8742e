import Mathlib
import ScriptToLua.Proofs.Source.Tree

/-!
Taking off parentheses and assertions. Where some number of layers leaves nothing to take off, as many
layers as there are nodes do too, whatever the arena looks like: `strip_eq_stripLayers`. Where children come
before their parents, taking off one layer after the other ends, and leaves what `strip` gives:
`strip_complete`.
-/

namespace ScriptToLua.Source.Arena

variable {a : Arena} {id : NodeId}

theorem stripLayers_add (i k : Nat) (id : NodeId) :
    a.stripLayers (i + k) id = a.stripLayers k (a.stripLayers i id) := by
  induction i generalizing id with
  | zero => rw [Nat.zero_add, stripLayers]
  | succ i ih =>
    rw [Nat.succ_add, stripLayers, stripLayers]
    cases h : a.peel? id with
    | none => exact (stripLayers_of_peel?_none h k).symm
    | some inner => exact ih inner

/-- Further layers take nothing off. -/
theorem stripLayers_of_le {n m : Nat} (h : a.peel? (a.stripLayers n id) = none) (hle : n ≤ m) :
    a.stripLayers m id = a.stripLayers n id := by
  obtain ⟨k, rfl⟩ := Nat.exists_eq_add_of_le hle
  rw [stripLayers_add, stripLayers_of_peel?_none h]

/-- The nodes on the way down are different, or it would never end. -/
theorem layers_le_size {n : Nat} (hmin : ∀ i < n, a.peel? (a.stripLayers i id) ≠ none)
    (h : a.peel? (a.stripLayers n id) = none) : n ≤ a.size := by
  have hhas (i : Fin n) : (a.stripLayers i id).index < a.size := by
    by_contra hout
    exact hmin i i.isLt (peel?_of_not_has hout)
  have hne (i j : Nat) (hij : i < j) (hj : j < n) :
      a.stripLayers i id ≠ a.stripLayers j id := by
    intro he
    have hend : a.stripLayers (i + (n - j)) id = a.stripLayers n id := by
      rw [stripLayers_add, he, ← stripLayers_add, Nat.add_sub_cancel' hj.le]
    exact hmin (i + (n - j)) (by omega) (hend ▸ h)
  have hinj : Function.Injective fun i : Fin n => (⟨_, hhas i⟩ : Fin a.size) := by
    intro i j he
    have hid : a.stripLayers i id = a.stripLayers j id :=
      congrArg NodeId.mk (congrArg Fin.val he)
    rcases Nat.lt_trichotomy i j with hlt | heq | hlt
    · exact absurd hid (hne i j hlt j.isLt)
    · exact Fin.ext heq
    · exact absurd hid.symm (hne j i hlt i.isLt)
  simpa using Fintype.card_le_of_injective _ hinj

theorem strip_eq_stripLayers {n : Nat} (h : a.peel? (a.stripLayers n id) = none) :
    a.strip id = a.stripLayers n id := by
  classical
  have hex : ∃ n, a.peel? (a.stripLayers n id) = none := ⟨n, h⟩
  have hleast := Nat.find_spec hex
  have hsize := layers_le_size (fun i hi => Nat.find_min hex hi) hleast
  rw [strip, stripLayers_of_le hleast hsize, stripLayers_of_le hleast (Nat.find_min' hex h)]

/-- What stands under parentheses. -/
theorem strip_of_peel? {inner : NodeId} (hp : a.peel? id = some inner)
    (h : a.peel? (a.strip inner) = none) : a.strip id = a.strip inner := by
  have hstep : a.stripLayers (a.size + 1) id = a.strip inner := by
    rw [stripLayers, hp, strip]
  rw [strip_eq_stripLayers (hstep ▸ h), hstep]

section Descent

variable {inner r : NodeId} {n : Node}

/-- Children come before their parents. -/
def Descends (a : Arena) : Prop := ∀ i < a.size, ∀ c ∈ a.children ⟨i⟩, c.index < i

instance (a : Arena) : Decidable a.Descends := by unfold Descends; infer_instance

/-- Taking off one layer after the other, for as long as there is one, ends and leaves the second
node. -/
inductive StripsTo (a : Arena) : NodeId → NodeId → Prop
  | stop {id : NodeId} (h : a.peel? id = none) : StripsTo a id id
  | peel {id inner r : NodeId} (h : a.peel? id = some inner) (hr : StripsTo a inner r) :
    StripsTo a id r

namespace StripsTo

theorem peel?_eq_none (h : a.StripsTo id r) : a.peel? r = none := by
  induction h with
  | stop h => exact h
  | peel _ _ ih => exact ih

theorem exists_layers (h : a.StripsTo id r) : ∃ layers, a.stripLayers layers id = r := by
  induction h with
  | stop => exact ⟨0, rfl⟩
  | peel h _ ih =>
    obtain ⟨layers, hlayers⟩ := ih
    refine ⟨layers + 1, ?_⟩
    rw [stripLayers, h]
    exact hlayers

/-- The layers that `strip` allows for are enough wherever taking off layers ends. -/
theorem strip_eq (h : a.StripsTo id r) : a.strip id = r := by
  obtain ⟨layers, hlayers⟩ := h.exists_layers
  have hend : a.peel? (a.stripLayers layers id) = none := by
    rw [hlayers]
    exact h.peel?_eq_none
  rw [strip_eq_stripLayers hend, hlayers]

end StripsTo

namespace Descends

theorem lt_of_peel? (h : a.Descends) (hp : a.peel? id = some inner) : inner.index < id.index := by
  have hchild : inner ∈ a.children id := by
    rw [children_of_peel? hp]
    exact List.mem_singleton_self inner
  exact h id.index (has_of_mem_children hchild) inner hchild

/-- By induction on the position, as every layer leads to an earlier one. -/
theorem exists_stripsTo (h : a.Descends) (id : NodeId) :
    ∃ r, a.StripsTo id r ∧ r.index ≤ id.index := by
  obtain ⟨i⟩ := id
  induction i using Nat.strong_induction_on with
  | _ i ih =>
    cases hp : a.peel? ⟨i⟩ with
    | none => exact ⟨⟨i⟩, .stop hp, Nat.le_refl i⟩
    | some inner =>
      have hlt := h.lt_of_peel? hp
      obtain ⟨r, hr, hle⟩ := ih inner.index hlt
      exact ⟨r, .peel hp hr, hle.trans hlt.le⟩

theorem stripsTo (h : a.Descends) (id : NodeId) : a.StripsTo id (a.strip id) := by
  obtain ⟨r, hr, -⟩ := h.exists_stripsTo id
  rwa [hr.strip_eq]

end Descends

theorem peel?_push_of_ne (n : Node) (h : id ≠ (a.push n).1) :
    (a.push n).2.peel? id = a.peel? id := by
  have hne : id.index ≠ a.entries.size := fun he => h (congrArg NodeId.mk he)
  have hget : (a.push n).2.get? id = a.get? id := by
    simp only [get?, push, Array.getElem?_push]
    rw [if_neg hne]
  rw [peel?, peel?, hget]

theorem get?_push_self (a : Arena) (n : Node) : (a.push n).2.get? (a.push n).1 = some n := by
  simp only [get?, push, size, Array.getElem?_push_size, Option.map_some]

/-- What is taken off lies below the new node, so the new node is not among it. -/
theorem StripsTo.push (h : a.StripsTo id r) (ha : a.Descends) (n : Node)
    (hid : id ≠ (a.push n).1) : (a.push n).2.StripsTo id r := by
  induction h with
  | stop h => exact .stop ((peel?_push_of_ne n hid).trans h)
  | @peel id inner r h _ ih =>
    have hin : a.Has id := by
      by_contra hout
      rw [peel?_of_not_has hout] at h
      cases h
    have hlt : inner.index < a.size := (ha.lt_of_peel? h).trans hin
    have hinner : inner ≠ (a.push n).1 := fun he => hlt.ne (congrArg NodeId.index he)
    exact .peel ((peel?_push_of_ne n hid).trans h) (ih hinner)

/-- Where children come before their parents, taking off one layer after the other ends at `strip` and
nowhere else. What is left does not come after the node, is no expression in parentheses and no assertion,
and has nothing more to take off. It is the same from every expression in parentheses and every assertion
around the node, whether it is in the arena already or comes in as the next node. (The id of the next node
stands for no expression that the next node could be around.) -/
theorem strip_complete (h : a.Descends) (id : NodeId) :
    (∀ r, a.StripsTo id r ↔ r = a.strip id) ∧
    (a.strip id).index ≤ id.index ∧
    (∀ n, a.get? (a.strip id) = some n →
      (∀ inner, n ≠ .parenthesized inner) ∧ ∀ expression type, n ≠ .asserted expression type) ∧
    a.strip (a.strip id) = a.strip id ∧
    (∀ outer, a.get? outer = some (.parenthesized id) ∨
      (∃ type, a.get? outer = some (.asserted id type)) → a.strip outer = a.strip id) ∧
    ∀ n, n = .parenthesized id ∨ (∃ type, n = .asserted id type) → id ≠ (a.push n).1 →
      (a.push n).2.strip (a.push n).1 = a.strip id := by
  have hstrips := h.stripsTo id
  have hend := hstrips.peel?_eq_none
  refine ⟨?_, ?_, ?_, ?_, ?_, ?_⟩
  · intro r
    constructor
    · intro hr
      exact hr.strip_eq.symm
    · rintro rfl
      exact hstrips
  · obtain ⟨r, hr, hle⟩ := h.exists_stripsTo id
    rwa [hr.strip_eq]
  · intro n hn
    rw [peel?, hn] at hend
    constructor
    · rintro inner rfl
      cases hend
    · rintro expression type rfl
      cases hend
  · exact (StripsTo.stop hend).strip_eq
  · intro outer ho
    have hpeel : a.peel? outer = some id := by
      rcases ho with ho | ⟨type, ho⟩
      · rw [peel?, ho]
      · rw [peel?, ho]
    exact (StripsTo.peel hpeel hstrips).strip_eq
  · intro n hn hid
    have hpeel : (a.push n).2.peel? (a.push n).1 = some id := by
      rw [peel?, get?_push_self]
      rcases hn with rfl | ⟨type, rfl⟩
      · rfl
      · rfl
    exact (StripsTo.peel hpeel (hstrips.push h n hid)).strip_eq

/-- `((x as number))` -/
def wrappedName : Arena :=
  ⟨#[(.identifier "x", ⟨2, 3⟩), (.asserted ⟨0⟩ .number, ⟨2, 13⟩), (.parenthesized ⟨1⟩, ⟨1, 14⟩),
    (.parenthesized ⟨2⟩, ⟨0, 15⟩)]⟩

theorem strip_complete_of_wrapped :
    wrappedName.Descends ∧ (∀ r, wrappedName.StripsTo ⟨3⟩ r ↔ r = ⟨0⟩) ∧
      wrappedName.strip ⟨2⟩ = ⟨0⟩ ∧ wrappedName.strip .absent = .absent ∧
      (wrappedName.push (.asserted ⟨3⟩ .string)).2.strip ⟨4⟩ = ⟨0⟩ ∧
      (wrappedName.push (.parenthesized .absent)).2.strip ⟨4⟩ = .absent := by
  have h : wrappedName.Descends := by decide
  obtain ⟨hends, -, -, -, -, hname⟩ := strip_complete h ⟨3⟩
  obtain ⟨-, -, -, -, -, habsent⟩ := strip_complete h .absent
  have hzero : wrappedName.strip ⟨3⟩ = ⟨0⟩ := by decide
  have hnone : wrappedName.strip .absent = .absent := by decide
  refine ⟨h, ?_, ?_, hnone, ?_, ?_⟩
  · rwa [hzero] at hends
  · obtain ⟨-, -, -, -, hinside, -⟩ := strip_complete h ⟨2⟩
    exact (hinside ⟨3⟩ (.inl rfl)).symm.trans hzero
  · exact (hname _ (.inr ⟨.string, rfl⟩) (by decide)).trans hzero
  · exact (habsent _ (.inl rfl) (by decide)).trans hnone

end Descent

end ScriptToLua.Source.Arena
