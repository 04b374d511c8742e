import Mathlib
import ScriptToLua.OrderedMap

/-!
Properties that all values of an ordered map have, how a lookup sees maps laid over each other, and maps
whose values correspond.
-/

namespace ScriptToLua

namespace OrderedMap

variable {κ υ : Type} [DecidableEq κ] {P : υ → Prop} {m : OrderedMap κ υ}

/-- All values of the map have `P`. -/
def AllValues (P : υ → Prop) (m : OrderedMap κ υ) : Prop := ∀ e ∈ m.entries, P e.2

omit [DecidableEq κ] in
theorem AllValues.empty : AllValues P (OrderedMap.empty : OrderedMap κ υ) :=
  fun _ he => absurd he List.not_mem_nil

theorem AllValues.get? (h : m.AllValues P) {k : κ} {v : υ} (hk : m.get? k = some v) : P v := by
  obtain ⟨l, hl⟩ := m
  change ∀ e ∈ l, P e.2 at h
  change find? k l = some v at hk
  clear hl
  induction l with
  | nil => cases hk
  | cons e l ih =>
    rw [find?] at hk
    split at hk
    · cases hk
      exact h e List.mem_cons_self
    · exact ih (fun e' he' => h e' (List.mem_cons_of_mem e he')) hk

theorem AllValues.insert (h : m.AllValues P) (k : κ) {v : υ} (hv : P v) :
    (m.insert k v).AllValues P := by
  obtain ⟨l, hl⟩ := m
  change ∀ e ∈ l, P e.2 at h
  change ∀ e ∈ put k v l, P e.2
  clear hl
  induction l with
  | nil =>
    intro e he
    rw [List.mem_singleton.1 he]
    exact hv
  | cons d l ih =>
    have hd := h d List.mem_cons_self
    have hl := ih fun e he => h e (List.mem_cons_of_mem d he)
    intro e he
    rw [put] at he
    split at he
    · rcases List.mem_cons.1 he with rfl | he
      · exact hv
      · exact h e (List.mem_cons_of_mem d he)
    · rcases List.mem_cons.1 he with rfl | he
      · exact hd
      · exact hl e he

omit [DecidableEq κ] in
theorem AllValues.filter (h : m.AllValues P) (p : κ → Bool) : (m.filter p).AllValues P :=
  fun e he => h e (List.mem_filter.1 he).1

theorem AllValues.erase (h : m.AllValues P) (k : κ) : (m.erase k).AllValues P := h.filter _

theorem AllValues.insertAll (h : m.AllValues P) {l : List (κ × υ)} (hl : ∀ e ∈ l, P e.2) :
    (m.insertAll l).AllValues P := by
  induction l generalizing m with
  | nil => exact h
  | cons e l ih =>
    exact ih (h.insert e.1 (hl e List.mem_cons_self)) fun e' he' =>
      hl e' (List.mem_cons_of_mem e he')

theorem get?_of_mem {e : κ × υ} (h : e ∈ m.entries) : m.get? e.1 = some e.2 := by
  obtain ⟨l, hl⟩ := m
  change find? e.1 l = some e.2
  change e ∈ l at h
  induction l with
  | nil => cases h
  | cons d l ih =>
    obtain ⟨hnew, hl⟩ := List.nodup_cons.1 hl
    rw [find?]
    rcases List.mem_cons.1 h with rfl | h
    · rw [if_pos rfl]
    · have hne : d.1 ≠ e.1 := fun he => hnew (he ▸ List.mem_map_of_mem h)
      rw [if_neg hne, ih hl h]

/-- Of two maps laid over each other the upper one is seen first. -/
theorem get?_insertAll_entries (m m' : OrderedMap κ υ) (k : κ) :
    (m.insertAll m'.entries).get? k = (m'.get? k).or (m.get? k) := by
  obtain ⟨l, hl⟩ := m'
  change (m.insertAll l).get? k = (find? k l).or (m.get? k)
  induction l generalizing m with
  | nil => rfl
  | cons e l ih =>
    obtain ⟨hnew, hrest⟩ := List.nodup_cons.1 hl
    refine (ih (m.insert e.1 e.2) hrest).trans ?_
    rw [get?_insert, find?]
    by_cases hk : e.1 = k
    · have hnone : find? k l = none := by
        rw [← Option.not_isSome_iff_eq_none, find?_isSome, ← hk]
        exact hnew
      rw [if_pos hk, if_pos hk, hnone]
      rfl
    · rw [if_neg hk, if_neg hk]

theorem get?_insertAll_map {υ' : Type} {g : υ → υ'} {m' : OrderedMap κ υ'}
    (h : ∀ k, m'.get? k = (m.get? k).map g) (l : List (κ × υ)) (k : κ) :
    (m'.insertAll (l.map fun e => (e.1, g e.2))).get? k = ((m.insertAll l).get? k).map g := by
  induction l generalizing m m' with
  | nil => exact h k
  | cons e l ih =>
    refine ih fun k => ?_
    rw [get?_insert, get?_insert, h]
    split <;> rfl

/-- Whether there are entries is seen by asking for each key. -/
theorem isEmpty_iff : m.isEmpty ↔ ∀ k, m.contains k = false := by
  constructor
  · intro h k
    obtain ⟨l, hl⟩ := m
    obtain rfl : l = [] := List.isEmpty_iff.1 h
    rfl
  · intro h
    refine List.isEmpty_iff.2 (List.eq_nil_iff_forall_not_mem.2 fun e he => ?_)
    have hc := (contains_iff_mem m e.1).2 (List.mem_map_of_mem he)
    cases hc.symm.trans (h e.1)

/-- Maps with the same keys in the same order, and with corresponding values. -/
def Pairs {υ' : Type} (V : υ → υ' → Prop) (m : OrderedMap κ υ) (m' : OrderedMap κ υ') : Prop :=
  List.Forall₂ (fun e e' => e.1 = e'.1 ∧ V e.2 e'.2) m.entries m'.entries

namespace Pairs

variable {υ' : Type} {V : υ → υ' → Prop} {m' : OrderedMap κ υ'} {v : υ} {v' : υ'}

omit [DecidableEq κ] in
theorem empty : Pairs V (OrderedMap.empty : OrderedMap κ υ) .empty := .nil

omit [DecidableEq κ] in
theorem size (h : Pairs V m m') : m.size = m'.size := h.length_eq

theorem get? (h : Pairs V m m') (k : κ) : Option.Rel V (m.get? k) (m'.get? k) := by
  obtain ⟨l, hl⟩ := m
  obtain ⟨l', hl'⟩ := m'
  change List.Forall₂ _ l l' at h
  change Option.Rel V (find? k l) (find? k l')
  clear hl hl'
  induction h with
  | nil => exact .none
  | @cons e e' l l' he _ ih =>
    simp only [find?, ← he.1]
    split
    · exact .some he.2
    · exact ih

theorem contains (h : Pairs V m m') (k : κ) : m.contains k = m'.contains k := by
  have hk := h.get? k
  unfold OrderedMap.contains
  generalize m.get? k = o, m'.get? k = o' at hk
  cases hk <;> rfl

theorem insert (h : Pairs V m m') (k : κ) (hv : V v v') :
    Pairs V (m.insert k v) (m'.insert k v') := by
  obtain ⟨l, hl⟩ := m
  obtain ⟨l', hl'⟩ := m'
  change List.Forall₂ _ l l' at h
  change List.Forall₂ _ (put k v l) (put k v' l')
  clear hl hl'
  induction h with
  | nil => exact .cons ⟨rfl, hv⟩ .nil
  | @cons e e' l l' he hr ih =>
    simp only [put, ← he.1]
    split
    · exact .cons ⟨rfl, hv⟩ hr
    · exact .cons ⟨rfl, he.2⟩ ih

theorem erase (h : Pairs V m m') (k : κ) : Pairs V (m.erase k) (m'.erase k) := by
  obtain ⟨l, hl⟩ := m
  obtain ⟨l', hl'⟩ := m'
  change List.Forall₂ _ l l' at h
  change List.Forall₂ _ (l.filter _) (l'.filter _)
  clear hl hl'
  induction h with
  | nil => exact .nil
  | @cons e e' l l' he hr ih =>
    simp only [List.filter_cons, ← he.1]
    split
    · exact .cons ⟨he.1, he.2⟩ ih
    · exact ih

omit [DecidableEq κ] in
theorem refl {V : υ → υ → Prop} (h : m.AllValues fun v => V v v) : Pairs V m m :=
  List.forall₂_same.2 fun e he => ⟨rfl, h e he⟩

end Pairs

end OrderedMap

end ScriptToLua
