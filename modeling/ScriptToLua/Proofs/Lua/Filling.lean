import Mathlib
import ScriptToLua.Proofs.Lua.Hiding
import ScriptToLua.Proofs.Lua.Keys
import ScriptToLua.Proofs.Lua.Termination

/-!
Tables that are filled from the first slot on. Nothing sees the new table before all elements are there,
so the elements run as if it were not being filled: `fillAll_items_hidden`. It ends up with their values
in its slots and nothing else (`Table.isArray_fill`), and from there on its border is its first hole,
however it is written to (`Table.Sound.border_eq_iff`).
-/

namespace ScriptToLua.Lua

namespace Table

variable {t t' : Table} {vs : List Value} {n : Nat}

/-- One table comes from another by a write. -/
def Writes (t t' : Table) : Prop := ∃ k v, t.set k v = .ok t'

theorem Writes.slot (t : Table) (n : Nat) (v : Value) : t.Writes (t.write (Key.slot n) v) := by
  refine ⟨.number (Float.ofNat n), v, ?_⟩
  rw [set, Key.ofValue_slot]
  rfl

theorem Reached.of_writes (h : t.Reached) (hw : Relation.ReflTransGen Writes t t') : t'.Reached := by
  induction hw with
  | refl => exact h
  | tail _ hset ih =>
    obtain ⟨k, v, hset⟩ := hset
    exact .set ih hset

theorem Reached.fill (h : t.Reached) (n : Nat) (vs : List Value) : (fill n vs t).Reached := by
  induction vs generalizing n t with
  | nil => exact h
  | cons v vs ih =>
    obtain ⟨k, w, hset⟩ := Writes.slot t n v
    exact ih (.set h hset) (n + 1)

/-- Each slot that is filled holds its value, as long as the numbers of all of them are exact. -/
theorem read_fill_slot (h : n + vs.length ≤ 2 ^ 53 + 1) (t : Table) {i : Nat} (hi : i < vs.length) :
    (fill n vs t).read (Key.slot (n + i)) = vs[i] := by
  induction vs generalizing n t i with
  | nil => cases hi
  | cons v vs ih =>
    rw [List.length_cons] at h hi
    cases i with
    | succ i =>
      have hn : n + (i + 1) = n + 1 + i := by omega
      rw [fill, hn, ih (by omega) _ (by omega), List.getElem_cons_succ]
    | zero =>
      have hwrite : (t.write (Key.slot n) v).read (Key.slot n) = v := by rw [read_write, if_pos rfl]
      cases vs with
      | nil => exact hwrite
      | cons w ws =>
        -- A slot after this one has a number up to 2 ^ 53, so this one has a smaller number.
        have hsmall : n < 2 ^ 53 := by
          rw [List.length_cons] at h
          omega
        change (fill (n + 1) (w :: ws) (t.write (Key.slot n) v)).read (Key.slot n) = v
        rw [read_fill_lt hsmall (Nat.lt_add_one n), hwrite]

theorem read_fill_of_ne {k : Key} (h : ∀ i < vs.length, k ≠ Key.slot (n + i)) (t : Table) :
    (fill n vs t).read k = t.read k := by
  induction vs generalizing n t with
  | nil => rfl
  | cons v vs ih =>
    have hhead : k ≠ Key.slot n := h 0 (Nat.zero_lt_succ _)
    have htail (i : Nat) (hi : i < vs.length) : k ≠ Key.slot (n + 1 + i) := by
      have hn : n + 1 + i = n + (i + 1) := by omega
      rw [hn]
      exact h (i + 1) (Nat.succ_lt_succ hi)
    rw [fill, ih htail, read_write, if_neg hhead]

/-- The table holds the values in its slots from the first one on, and nothing under other keys. -/
structure IsArray (t : Table) (vs : List Value) : Prop where
  slots : ∀ i (h : i < vs.length), t.get (.number (Float.ofNat (i + 1))) = vs[i]
  others : ∀ k, t.contains k → ∃ i, ∃ h : i < vs.length, k = Key.slot (i + 1) ∧ vs[i].isNil = false

theorem isArray_fill (h : vs.length ≤ 2 ^ 53) : (fill 1 vs .empty).IsArray vs := by
  have hsum : 1 + vs.length ≤ 2 ^ 53 + 1 := by omega
  have hread (i : Nat) (hi : i < vs.length) :
      (fill 1 vs .empty).read (Key.slot (i + 1)) = vs[i] := by
    rw [Nat.add_comm i 1]
    exact read_fill_slot hsum .empty hi
  have hsound : (fill 1 vs .empty).Sound := (Reached.fill .empty 1 vs).sound
  refine ⟨fun i hi => ?_, fun k hk => ?_⟩
  · rw [get_of_key (Key.ofValue_slot (i + 1)), hread i hi]
  · have hvalue : ((fill 1 vs .empty).read k).isNil = false := by rw [hsound.read_isNil, hk]; rfl
    by_contra hnone
    have hne (i : Nat) (hi : i < vs.length) : k ≠ Key.slot (1 + i) := by
      rintro rfl
      rw [Nat.add_comm 1 i] at hvalue hnone
      rw [hread i hi] at hvalue
      exact hnone ⟨i, hi, rfl, hvalue⟩
    rw [read_fill_of_ne hne] at hvalue
    cases hvalue

/-- Where no entry is `nil`, the border is the first hole among the slots. -/
theorem Sound.border_eq_iff (h : t.Sound) (n : Nat) :
    t.border = n ↔ (∀ i, 1 ≤ i → i ≤ n → (t.read (.int i)).isNil = false) ∧
      (t.read (.int (n + 1 : Nat))).isNil := by
  have hslot (i : Nat) : (t.read (.int i)).isNil = !t.contains (.int i) := h.read_isNil _
  rw [Table.border_eq_iff]
  simp only [hslot, Bool.not_eq_false', Bool.not_eq_true']
  refine and_congr_left fun _ => ⟨fun hslots i hi hin => ?_, fun hslots i hi => ?_⟩
  · obtain ⟨j, rfl⟩ := Nat.exists_eq_add_of_le' hi
    exact hslots j hin
  · exact hslots (i + 1) (Nat.succ_pos i) hi

end Table

/-- The slots that a border can end at have integer keys. -/
theorem Key.slot_eq_int {n : Nat} (h : n < 9000000000000000) : Key.slot n = .int n := by
  have hn : n < 2 ^ 53 := by omega
  have habs : (n : Int).natAbs < 9000000000000000 := h
  simp only [Key.slot, Key.ofFloat, Decimal.integer?_ofNat hn, if_pos habs]

theorem evalAll_length {call : Caller} {c : Chain} {m m' : Machine} {es : List Code} {vs : List Value}
    (h : Code.evalAll call c es m = (.ok vs, m')) : vs.length = es.length := by
  induction es generalizing m vs with
  | nil =>
    rw [Code.evalAll] at h
    cases h
    rfl
  | cons e es ih =>
    rw [Code.evalAll] at h
    obtain ⟨v, m₁, -, h⟩ := EvalM.bind_eq_ok h
    obtain ⟨vs', m₂, hrest, h⟩ := EvalM.bind_eq_ok h
    cases h
    exact congrArg Nat.succ (ih hrest)

section Fill

variable (room : Nat) (c : Chain) {id : TableId} {t : Table} {m : Machine}

theorem evalAll_hidden (hm : m.Fits (.hiding id t)) (es : List Code) :
    (Code.evalAll (callAt room) c es m).2.Fits (.hiding id t) :=
  (((evalAll_blind (callAt_blind id room) c es).keeps t).run m hm).1

/-- The elements of a table that nothing refers to are evaluated as if it were not being filled. -/
theorem fillAll_items_hidden (hm : m.Fits (.hiding id t)) (es : List Code) (n : Nat) :
    let o := Code.evalAll (callAt room) c es m
    ∃ t', Field.fillAll (callAt room) c id n (es.map Field.item) m =
        (o.1.map fun _ => (), o.2.setTable id t') ∧
      ∀ vs, o.1 = .ok vs → t' = Table.fill n vs t := by
  have hkept {m' : Machine} {t : Table} (hm' : m'.Fits (.hiding id t)) : m' = m'.setTable id t := by
    have htable : m'.table id = t := hm'.content id rfl
    rw [← htable, Machine.setTable_table (hm'.size id rfl)]
  induction es generalizing m t n with
  | nil =>
    refine ⟨t, congrArg (Prod.mk _) (hkept hm), fun vs hvs => ?_⟩
    cases hvs
    rfl
  | cons e es ih =>
    have hblind := eval_blind (callAt_blind id room) c e
    obtain ⟨hm₁, -⟩ := (hblind.keeps t).run m hm
    rw [List.map_cons, Code.evalAll, Field.fillAll, EvalM.bind_run, EvalM.bind_run]
    generalize e.eval (callAt room) c m = o at hm₁
    obtain ⟨fault | v, m₁⟩ := o
    · refine ⟨t, congrArg (Prod.mk _) (hkept hm₁), fun vs hvs => ?_⟩
      cases hvs
    · -- The write changes the hidden table only, which the elements that follow do not see.
      have hset : EvalM.setEntry id (.number (Float.ofNat n)) v m₁ =
          (.ok (), m₁.setTable id (t.write (Key.slot n) v)) := by
        have htable : m₁.table id = t := hm₁.content id rfl
        rw [EvalM.setEntry_run, Table.set, Key.ofValue_slot, htable]
        rfl
      obtain ⟨t', hfill, ht'⟩ := ih (hm₁.setHidden (t.write (Key.slot n) v)) (n + 1)
      rw [(evalAll_blind (callAt_blind id room) c es).swap _ hm₁] at hfill ht'
      dsimp only at hfill ht' ⊢
      rw [EvalM.bind_run_ok hset, hfill, Machine.setTable_setTable, EvalM.bind_run]
      refine ⟨t', ?_, ?_⟩
      · rcases Code.evalAll (callAt room) c es m₁ with ⟨_ | _, _⟩ <;> rfl
      · rcases hrest : Code.evalAll (callAt room) c es m₁ with ⟨fault | vs, m₂⟩
        · rintro vs ⟨⟩
        · rintro _ ⟨⟩
          exact ht' vs (by rw [hrest])

end Fill

end ScriptToLua.Lua
