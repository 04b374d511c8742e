import Mathlib
import ScriptToLua.Lowering.Index
import ScriptToLua.Proofs.Lua.Computation
import ScriptToLua.Proofs.Decimal.Integers
import ScriptToLua.Proofs.Numeral

/-!
The slots of arrays. The slot for an index has one key, whether it is worked out by the lowering, by
running code or by counting the elements of a table constructor.
-/

namespace ScriptToLua.Lua

open Decimal

/-- The key of a slot. -/
def Key.slot (n : Nat) : Key := .ofFloat (Float.ofNat n)

theorem Key.ofFloat_cases (x : Float) :
    (∃ n, (Real.ofFloat x).integer? = some n ∧ Key.ofFloat x = .int n) ∨
      Key.ofFloat x = .float x.toBits := by
  unfold Key.ofFloat
  cases (Real.ofFloat x).integer? with
  | none => exact .inr rfl
  | some n =>
    by_cases h : n.natAbs < 9000000000000000
    · exact .inl ⟨n, rfl, if_pos h⟩
    · exact .inr (if_neg h)

/-- Numbers with the same key are the same integer, or neither of them is an integer. -/
theorem Key.integer?_of_eq {x y : Float} (h : Key.ofFloat x = Key.ofFloat y) :
    (Real.ofFloat x).integer? = (Real.ofFloat y).integer? := by
  rcases ofFloat_cases x with ⟨n, hn, hx⟩ | hx
  · rcases ofFloat_cases y with ⟨n', hn', hy⟩ | hy
    · rw [hx, hy, Key.int.injEq] at h
      rw [hn, hn', h]
    · rw [hx, hy] at h
      cases h
  · rcases ofFloat_cases y with ⟨n', hn', hy⟩ | hy
    · rw [hx, hy] at h
      cases h
    · rw [hx, hy, Key.float.injEq] at h
      rw [Real.ofFloat, Real.ofFloat, h]

/-- A slot below `2 ^ 53` has a key of its own. -/
theorem Key.slot_inj {n j : Nat} (hj : j < 2 ^ 53) : Key.slot n = Key.slot j ↔ n = j := by
  constructor
  · intro h
    have hi := Key.integer?_of_eq h
    rw [integer?_ofNat hj] at hi
    rcases Nat.lt_or_ge n (2 ^ 53) with hn | hn
    · rw [integer?_ofNat hn, Option.some.injEq] at hi
      exact_mod_cast hi
    · exact absurd hi (integer?_ofNat_large hn hj)
  · rintro rfl
    rfl

theorem Key.ofValue_slot (n : Nat) : Key.ofValue (.number (Float.ofNat n)) = .ok (Key.slot n) := by
  have hn : (Float.ofNat n).isNaN = false := by
    rcases Nat.lt_or_ge n (2 ^ 53) with h | h
    · exact isNaN_ofNat h
    · exact isNaN_ofNat_large h
  simp only [Key.ofValue, hn]
  rfl

theorem Key.slot_ne_string (n : Nat) (x : String) : Key.slot n ≠ .string x := by
  rcases ofFloat_cases (Float.ofNat n) with ⟨i, -, h⟩ | h
  · rw [Key.slot, h]
    nofun
  · rw [Key.slot, h]
    nofun

theorem eval_natural {n : Nat} (h : n < 2 ^ 53) (call : Caller) (c : Chain) :
    (Code.number (toString n)).eval call c = pure (.number (Float.ofNat n)) := by
  simp only [Code.eval, floatOf?_toString, Scaled.toFloat_natCast h]

/-- The slot for an index is one above it. -/
theorem eval_oneBased (fold : Bool) {k : Nat} (h : k + 1 < 2 ^ 53) (call : Caller) (c : Chain) :
    (Lowering.oneBased fold (.number (toString k))).eval call c =
      pure (.number (Float.ofNat (k + 1))) := by
  have hk : k < 2 ^ 53 := Nat.lt_of_succ_lt h
  cases fold with
  | true =>
    have hs : Lowering.successor? (.number (toString k)) = some ((k + 1 : Nat) : Int) := by
      have hi : Code.integer? (.number (toString k)) = some (k : Int) :=
        integerOf?_toString (by omega)
      have hb : ((k : Int) + 1 < 2 ^ 63) := by omega
      rw [Lowering.successor?, hi, Option.map_some, Option.filter_some, if_pos (by simpa using hb)]
      rfl
    have he : Lowering.oneBased true (.number (toString k)) = .number (toString (k + 1)) := by
      simp only [Lowering.oneBased, hs]
      rfl
    rw [he]
    exact eval_natural h call c
  | false =>
    have he : Lowering.oneBased false (.number (toString k)) =
        .binary (.number (toString k)) .add (.number (toString 1)) := rfl
    have ha : BinaryOp.apply .add (.number (Float.ofNat k)) (.number (Float.ofNat 1)) =
        .ok (.number (Float.ofNat k + Float.ofNat 1)) := rfl
    have hs : BinaryOp.add.settledBy (.number (Float.ofNat k)) = false := rfl
    simp only [he, Code.eval, floatOf?_toString, Scaled.toFloat_natCast hk,
      Scaled.toFloat_natCast (by decide : 1 < 2 ^ 53), pure_bind, hs, ha, ofNat_add_one h]
    rfl

namespace Table

theorem read_write (t : Table) (k k' : Key) (v : Value) :
    (t.write k v).read k' = if k' = k then v else t.read k' := by
  unfold write
  split
  · next hv =>
    obtain rfl : v = .nil := by cases v <;> first | rfl | cases hv
    rw [read, OrderedMap.get?_erase]
    split <;> rfl
  · rw [read, OrderedMap.get?_insert]
    by_cases h : k = k'
    · rw [if_pos h, if_pos h.symm]
      rfl
    · rw [if_neg h, if_neg (Ne.symm h)]
      rfl

theorem get_set {t t' : Table} {k v : Value} (h : t.set k v = .ok t') (k' : Value) :
    t'.get k' = if Key.ofValue k' = Key.ofValue k then v else t.get k' := by
  unfold set at h
  unfold get
  cases hk : Key.ofValue k with
  | error e =>
    rw [hk] at h
    cases h
  | ok key =>
    rw [hk] at h
    cases h
    cases Key.ofValue k' with
    | error e => simp only [reduceCtorEq, if_false]
    | ok key' => simp only [read_write, Except.ok.injEq]

/-- The table with values in its slots from `n` on. -/
def fill (n : Nat) : List Value → Table → Table
  | [], t => t
  | v :: vs, t => fill (n + 1) vs (t.write (Key.slot n) v)

theorem read_fill_string (n : Nat) (vs : List Value) (t : Table) (x : String) :
    (fill n vs t).read (.string x) = t.read (.string x) := by
  induction vs generalizing n t with
  | nil => rfl
  | cons v vs ih => rw [fill, ih, read_write, if_neg (Key.slot_ne_string n x).symm]

/-- A slot below `n` stays as it is, also where the numbers of filled slots are rounded. -/
theorem read_fill_lt {n j : Nat} (hj : j < 2 ^ 53) (h : j < n) (vs : List Value) (t : Table) :
    (fill n vs t).read (Key.slot j) = t.read (Key.slot j) := by
  induction vs generalizing n t with
  | nil => rfl
  | cons v vs ih =>
    have hne : Key.slot j ≠ Key.slot n := by
      intro he
      have := (Key.slot_inj hj).1 he.symm
      omega
    rw [fill, ih (Nat.lt_succ_of_lt h), read_write, if_neg hne]

theorem read_fill {n i : Nat} (h : n + i < 2 ^ 53) (vs : List Value) (t : Table) :
    (fill n vs t).read (Key.slot (n + i)) = vs[i]?.getD (t.read (Key.slot (n + i))) := by
  induction vs generalizing n i t with
  | nil => rfl
  | cons v vs ih =>
    cases i with
    | zero =>
      have hn : n < 2 ^ 53 := h
      change (fill (n + 1) vs (t.write (Key.slot n) v)).read (Key.slot n) = v
      rw [read_fill_lt hn n.lt_succ_self, read_write, if_pos rfl]
    | succ i =>
      have hne : Key.slot (n + (i + 1)) ≠ Key.slot n := by
        intro he
        have := (Key.slot_inj h).1 he.symm
        omega
      have hn : n + (i + 1) = n + 1 + i := by omega
      rw [fill, List.getElem?_cons_succ, hn, ih (hn ▸ h), ← hn, read_write, if_neg hne]

end Table

/-- The table constructor for an array fills the slots from its first one on. -/
theorem fillAll_items {call : Caller} {c : Chain} {id : TableId} {es : List Code} {vs : List Value}
    (he : List.Forall₂ (fun e v => e.eval call c = pure v) es vs) (n : Nat) {m : Machine}
    (hid : id < m.tables.size) :
    Field.fillAll call c id n (es.map Field.item) m =
      (.ok (), m.setTable id (Table.fill n vs (m.table id))) := by
  induction he generalizing n m with
  | nil =>
    simp only [List.map_nil, Field.fillAll, Table.fill, Machine.setTable_table hid]
    rfl
  | @cons e v es vs h _ ih =>
    have hset : EvalM.setEntry id (.number (Float.ofNat n)) v m =
        (.ok (), m.setTable id ((m.table id).write (Key.slot n) v)) := by
      rw [EvalM.setEntry_run, Table.set, Key.ofValue_slot]
      rfl
    have hid' : id < (m.setTable id ((m.table id).write (Key.slot n) v)).tables.size := by
      rwa [Machine.size_setTable]
    rw [List.map_cons, Field.fillAll, h, pure_bind, EvalM.bind_run_ok hset, ih (n + 1) hid',
      Machine.table_setTable hid, Machine.setTable_setTable, Table.fill]

end ScriptToLua.Lua
