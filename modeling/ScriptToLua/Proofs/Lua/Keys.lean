import Mathlib
import ScriptToLua.Proofs.Decimal.Equality
import ScriptToLua.Proofs.Lua.Slot

/-!
Tables as finite maps up to Lua's equality. Values have one key just when they are equal, except that
a builtin shares the key of a string: `Key.ofValue_eq_iff`. So a table that was made by writing to it
is a finite map on classes of equal values wherever no builtin meets its string: `Table.Reached.mapOfClasses`.
-/

namespace ScriptToLua.Lua

open Decimal

/-- The value can be a key: it is neither `nil` nor NaN. -/
def Value.isKey : Value → Bool
  | nil => false
  | number x => !x.isNaN
  | _ => true

theorem Value.isKey_number {x : Float} : (number x).isKey ↔ x.isNaN = false := by
  rw [isKey, Bool.not_eq_true']

/-- One value is a builtin, and the other is the string whose key it shares. -/
def Value.clashes : Value → Value → Bool
  | builtin f, string s => s = "builtin:" ++ f.name
  | string s, builtin f => s = "builtin:" ++ f.name
  | _, _ => false

theorem Value.builtin_of_clashes {a b : Value} (h : a.clashes b) :
    (∃ f, a = builtin f) ∨ ∃ f, b = builtin f := by
  cases a with
  | builtin f => exact .inl ⟨f, rfl⟩
  | string s =>
    cases b with
    | builtin f => exact .inr ⟨f, rfl⟩
    | _ => cases h
  | _ => cases h

/-- What is equal to a key is a key. -/
theorem Value.isKey_of_rawEq {a b : Value} (ha : a.isKey) (h : a.rawEq b) : b.isKey := by
  cases b with
  | nil =>
    cases a with
    | nil => cases ha
    | _ => cases h
  | number y =>
    cases a with
    | number x =>
      have hy : y ≠ .nan := (Float.beq_iff_ne_nan_and_eq.1 h).2.1
      exact isKey_number.2 (by simpa using hy)
    | _ => cases h
  | _ => rfl

theorem Key.ofFloat_eq_int {x : Float} {n : Int} (h : Key.ofFloat x = .int n) :
    (Real.ofFloat x).integer? = some n := by
  rcases ofFloat_cases x with ⟨n', hn, hx⟩ | hx
  · rw [hn, ← Key.int.inj (hx.symm.trans h)]
  · cases hx.symm.trans h

/-- Numbers have one key just when they are equal. -/
theorem Key.ofFloat_eq_iff {x y : Float} (hx : x.isNaN = false) (hy : y.isNaN = false) :
    Key.ofFloat x = Key.ofFloat y ↔ x == y := by
  have hx' : x ≠ .nan := by simpa using hx
  have hy' : y ≠ .nan := by simpa using hy
  constructor
  · intro h
    rcases ofFloat_cases x with ⟨n, hn, hint⟩ | hbits
    · exact beq_of_integer? hn (ofFloat_eq_int (h.symm.trans hint))
    · rcases ofFloat_cases y with ⟨n, -, hint⟩ | hbits'
      · cases hbits.symm.trans (h.trans hint)
      · have heq := Key.float.inj (hbits.symm.trans (h.trans hbits'))
        obtain rfl := Float.toBits_inj.1 heq
        exact Float.beq_self_iff.2 hx'
  · intro h
    have hzero : Key.ofFloat 0 = Key.ofFloat (-0) := by decide +kernel
    rcases (Float.beq_iff_ne_nan_and_eq.1 h).2.2 with rfl | ⟨rfl, rfl⟩ | ⟨rfl, rfl⟩
    · rfl
    · exact hzero
    · exact hzero.symm

theorem Key.ofValue_number {x : Float} (h : x.isNaN = false) :
    Key.ofValue (.number x) = .ok (.ofFloat x) := if_neg (by rw [h]; exact Bool.false_ne_true)

/-- The key is that of a number. -/
def Key.isNumber : Key → Bool
  | int _ | float _ => true
  | _ => false

theorem Key.isNumber_ofFloat (x : Float) : (Key.ofFloat x).isNumber := by
  rcases ofFloat_cases x with ⟨n, -, h⟩ | h <;> rw [h] <;> rfl

theorem Key.ofFloat_ne {x : Float} {k : Key} (h : k.isNumber = false) : Key.ofFloat x ≠ k := by
  rintro rfl
  exact Bool.false_ne_true (h.symm.trans (isNumber_ofFloat x))

theorem Builtin.name_inj {f g : Builtin} : f.name = g.name ↔ f = g := by
  cases f <;> cases g <;> decide

variable {a b v : Value} {k : Key} {t t' : Table}

theorem Key.ofValue_of_isKey (h : a.isKey) : ∃ k, Key.ofValue a = .ok k := by
  cases a with
  | nil => cases h
  | number x => exact ⟨_, ofValue_number (Value.isKey_number.1 h)⟩
  | _ => exact ⟨_, rfl⟩

theorem Key.isKey_of_ofValue (h : Key.ofValue a = .ok k) : a.isKey := by
  cases a with
  | nil => cases h
  | number x =>
    cases hx : x.isNaN with
    | false => exact Value.isKey_number.2 hx
    | true => cases (if_pos hx).symm.trans h
  | _ => rfl

/-- Values have one key just when they are equal, or a builtin and the string it shares its key with. -/
theorem Key.ofValue_eq_iff (ha : a.isKey) (hb : b.isKey) :
    Key.ofValue a = Key.ofValue b ↔ a.rawEq b || a.clashes b := by
  have hnumber {x : Float} {k : Key} (hx : (Value.number x).isKey) (hk : k.isNumber = false) :
      Key.ofValue (.number x) ≠ .ok k := by
    rw [ofValue_number (Value.isKey_number.1 hx)]
    exact fun h => ofFloat_ne hk (Except.ok.inj h)
  cases a with
  | nil => cases ha
  | number x =>
    cases b with
    | nil => cases hb
    | number y =>
      have hx := Value.isKey_number.1 ha
      have hy := Value.isKey_number.1 hb
      rw [ofValue_number hx, ofValue_number hy, Except.ok.injEq, ofFloat_eq_iff hx hy]
      simp [Value.rawEq, Value.clashes]
    | _ => exact iff_of_false (hnumber ha rfl) Bool.false_ne_true
  | _ =>
    cases b with
    | nil => cases hb
    | number y => exact iff_of_false (hnumber hb rfl).symm Bool.false_ne_true
    | _ => simp [Key.ofValue, Value.rawEq, Value.clashes, Builtin.name_inj, eq_comm]

namespace Table

theorem get_of_key (h : Key.ofValue a = .ok k) (t : Table) : t.get a = t.read k := by
  rw [get, h]

theorem set_of_key (h : Key.ofValue a = .ok k) (t : Table) (v : Value) :
    t.set a v = .ok (t.write k v) := by
  rw [set, h]
  rfl

/-- Writing under one key is seen under every key that is equal to it or clashes with it. -/
theorem get_set_of_isKey (ha : a.isKey) (hb : b.isKey) (t : Table) (v : Value) :
    ∃ t', t.set a v = .ok t' ∧
      t'.get b = if a.rawEq b || a.clashes b then v else t.get b := by
  obtain ⟨k, hk⟩ := Key.ofValue_of_isKey ha
  have hset := set_of_key hk t v
  refine ⟨t.write k v, hset, ?_⟩
  rw [get_set hset]
  exact if_congr (eq_comm.trans (Key.ofValue_eq_iff ha hb)) rfl rfl

/-- The table was made by writing to it. -/
inductive Reached : Table → Prop
  | empty : Reached empty
  | set {t t' : Table} {a v : Value} (h : Reached t) (hs : t.set a v = .ok t') : Reached t'

/-- The table has no entries without a value, and its keys are those of values. -/
structure Sound (t : Table) : Prop where
  values : t.AllValues fun v => v.isNil = false
  keys : ∀ k, t.contains k → ∃ a, Key.ofValue a = .ok k

theorem Sound.write (h : t.Sound) (hk : Key.ofValue a = .ok k) (v : Value) : (t.write k v).Sound := by
  unfold Table.write
  split
  · refine ⟨h.values.erase k, fun k' hk' => h.keys k' ?_⟩
    rw [OrderedMap.contains, OrderedMap.get?_erase] at hk'
    split at hk'
    · cases hk'
    · exact hk'
  · next hv =>
    refine ⟨h.values.insert k (Bool.eq_false_of_not_eq_true hv), fun k' hk' => ?_⟩
    rw [OrderedMap.contains, OrderedMap.get?_insert] at hk'
    split at hk'
    · next he => exact ⟨a, he ▸ hk⟩
    · exact h.keys k' hk'

theorem Reached.sound (h : Reached t) : t.Sound := by
  induction h with
  | empty => exact ⟨.empty, nofun⟩
  | @set t t' a v _ hs ih =>
    have ha : a.isKey := by
      cases hk : Key.ofValue a with
      | ok k => exact Key.isKey_of_ofValue hk
      | error e =>
        rw [Table.set, hk] at hs
        cases hs
    obtain ⟨k, hk⟩ := Key.ofValue_of_isKey ha
    obtain rfl := Except.ok.inj ((set_of_key hk t v).symm.trans hs)
    exact ih.write hk v

theorem Sound.read_isNil (h : t.Sound) (k : Key) : (t.read k).isNil = !t.contains k := by
  unfold read OrderedMap.contains
  cases hk : t.get? k with
  | none => rfl
  | some v => exact h.values.get? hk

/-- The classes of equal values under which the table holds something. -/
def classes (t : Table) : Set (Set Value) :=
  {c | ∃ a, a.isKey ∧ (t.get a).isNil = false ∧ c = {b | a.rawEq b}}

/-- The values that have the key. -/
def valuesOf (k : Key) : Set Value := {b | Key.ofValue b = .ok k}

/-- Where no builtin holds anything, the values that have one key are equal to each other. -/
theorem class_eq_valuesOf (hb : ∀ f, (t.get (.builtin f)).isNil) (ha : Key.ofValue a = .ok k)
    (hv : (t.get a).isNil = false) : {b | a.rawEq b} = valuesOf k := by
  have hkey := Key.isKey_of_ofValue ha
  ext b
  constructor
  · intro h
    have hor : a.rawEq b || a.clashes b := Bool.or_eq_true_iff.2 (.inl h)
    exact ((Key.ofValue_eq_iff hkey (Value.isKey_of_rawEq hkey h)).2 hor).symm.trans ha
  · intro h
    have hor := (Key.ofValue_eq_iff hkey (Key.isKey_of_ofValue h)).1 (ha.trans (Eq.symm h))
    rcases Bool.or_eq_true_iff.1 hor with heq | hclash
    · exact heq
    · have hboth : t.get b = t.get a := (get_of_key h t).trans (get_of_key ha t).symm
      rcases Value.builtin_of_clashes hclash with ⟨f, rfl⟩ | ⟨f, rfl⟩
      · cases hv.symm.trans (hb f)
      · cases (hboth ▸ hv).symm.trans (hb f)

/-- Where no builtin holds anything, each entry is the value of one class. -/
theorem Sound.size_eq_ncard (h : t.Sound) (hb : ∀ f, (t.get (.builtin f)).isNil) :
    t.size = t.classes.ncard := by
  -- A key stands for the class of its values, and no two keys stand for one class.
  have himage : t.classes = valuesOf '' {k | k ∈ t.entries.map Prod.fst} := by
    ext c
    constructor
    · rintro ⟨a, ha, hv, rfl⟩
      obtain ⟨k, hk⟩ := Key.ofValue_of_isKey ha
      refine ⟨k, ?_, (class_eq_valuesOf hb hk hv).symm⟩
      rw [get_of_key hk, h.read_isNil] at hv
      exact (OrderedMap.contains_iff_mem t k).1 (by simpa using hv)
    · rintro ⟨k, hmem, rfl⟩
      have hcontains := (OrderedMap.contains_iff_mem t k).2 hmem
      obtain ⟨a, ha⟩ := h.keys k hcontains
      have hv : (t.get a).isNil = false := by rw [get_of_key ha, h.read_isNil, hcontains]; rfl
      exact ⟨a, Key.isKey_of_ofValue ha, hv, (class_eq_valuesOf hb ha hv).symm⟩
  have hinj : Set.InjOn valuesOf {k | k ∈ t.entries.map Prod.fst} := by
    intro k hk k' _ heq
    obtain ⟨a, ha⟩ := h.keys k ((OrderedMap.contains_iff_mem t k).2 hk)
    have ha' : a ∈ valuesOf k' := heq ▸ ha
    exact Except.ok.inj (ha.symm.trans ha')
  rw [himage, hinj.ncard_image, ← List.coe_toFinset, Set.ncard_coe_finset,
    List.toFinset_card_of_nodup t.nodup, List.length_map]
  rfl

/-- A table that was made by writing to it is a finite map on classes of equal values, where no builtin
meets the string whose key it shares: a value that is written is read under all keys that are equal,
under the others the table holds what it held, and entries are counted by classes. -/
theorem Reached.mapOfClasses (h : Reached t) :
    (∀ a b v, a.isKey → b.isKey → a.clashes b = false →
      ∃ t', t.set a v = .ok t' ∧ t'.get b = if a.rawEq b then v else t.get b) ∧
      ((∀ f, (t.get (.builtin f)).isNil) → t.size = t.classes.ncard) := by
  refine ⟨fun a b v ha hb hclash => ?_, h.sound.size_eq_ncard⟩
  obtain ⟨t', hs, hget⟩ := get_set_of_isKey ha hb t v
  refine ⟨t', hs, ?_⟩
  rw [hget, hclash, Bool.or_false]

/-- The two zeros are one key beside a named entry. -/
theorem mapOfClasses_of_zeros :
    ∃ t, Reached t ∧ t.classes.ncard = 1 ∧
      ∃ t', t.set (.number 0) (.boolean true) = .ok t' ∧ t'.get (.number (-0)) = .boolean true ∧
        t'.get (.string "n") = .number 1 := by
  let t : Table := Table.empty.write (.string "n") (.number 1)
  have ht : Reached t := .set (a := .string "n") (v := .number 1) .empty rfl
  obtain ⟨hget, hsize⟩ := ht.mapOfClasses
  have hzero : (Value.number 0).isKey := by decide +kernel
  have hnegative : (Value.number (-0)).isKey := by decide +kernel
  have hequal : (Value.number 0).rawEq (.number (-0)) := by decide +kernel
  obtain ⟨t', hs, hg⟩ := hget (.number 0) (.number (-0)) (.boolean true) hzero hnegative rfl
  obtain ⟨t'', hs', hg'⟩ := hget (.number 0) (.string "n") (.boolean true) hzero rfl rfl
  obtain rfl := Except.ok.inj (hs.symm.trans hs')
  refine ⟨t, ht, (hsize fun f => by cases f <;> rfl).symm, t', hs, ?_, hg'⟩
  rw [hg, if_pos hequal]

/-- A builtin meets its string: writing under the one is seen under the other. -/
theorem get_set_of_builtin :
    ¬ ∃ t', Table.empty.set (.builtin .tostring) (.number 1) = .ok t' ∧
      t'.get (.string "builtin:tostring") =
        if (Value.builtin .tostring).rawEq (.string "builtin:tostring") then .number 1
        else Table.empty.get (.string "builtin:tostring") := by
  rintro ⟨t', hs, hget⟩
  cases hs
  cases hget

end Table

end ScriptToLua.Lua
