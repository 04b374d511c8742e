import Mathlib
import ScriptToLua.Lowering.Index
import ScriptToLua.Lowering.Operator
import ScriptToLua.Lua.Numeral

/-!
Decimal numerals as they are written: the digits of a natural number are read back as that number. The
strings that are array indices are such numerals, `Lowering.isIndexText_iff`.
-/

namespace ScriptToLua.Numeral

theorem digit?_of_isDigit {c : Char} (h : c.isDigit) : digit? 10 c = some (c.toNat - '0'.toNat) := by
  have hlt : c.toNat - '0'.toNat < 10 := by
    simp only [Char.isDigit, Bool.and_eq_true, decide_eq_true_eq] at h
    have h2 : c.toNat ≤ 57 := h.2
    change c.toNat - 48 < 10
    omega
  simp only [digit?, h, if_true, if_pos hlt]

theorem naturalFrom?_digits {cs : List Char} (h : ∀ c ∈ cs, c.isDigit) (acc : Nat) :
    naturalFrom? 10 acc cs = some (Nat.ofDigitChars 10 cs acc) := by
  induction cs generalizing acc with
  | nil => rfl
  | cons c cs ih =>
    have hc := digit?_of_isDigit (h c List.mem_cons_self)
    simp only [naturalFrom?, hc, Option.bind_some]
    rw [ih fun d hd => h d (List.mem_cons_of_mem c hd)]
    rfl

/-- The decimal digits of `n`. -/
structure IsDecimalOf (n : Nat) (cs : List Char) : Prop where
  digits : ∀ c ∈ cs, c.isDigit
  ne_nil : cs ≠ []
  value : natural? 10 cs = some n

theorem isDecimalOf_digits {cs : List Char} (hd : ∀ c ∈ cs, c.isDigit) (hne : cs ≠ []) :
    IsDecimalOf (Nat.ofDigitChars 10 cs 0) cs := by
  refine ⟨hd, hne, ?_⟩
  unfold natural?
  split
  · exact absurd rfl hne
  · exact naturalFrom?_digits hd 0

theorem isDecimalOf_toDigits (n : Nat) : IsDecimalOf n (Nat.toDigits 10 n) := by
  have h : IsDecimalOf (Nat.ofDigitChars 10 (Nat.toDigits 10 n) 0) (Nat.toDigits 10 n) :=
    isDecimalOf_digits (fun c hc => Nat.isDigit_of_mem_toDigits (by decide) (by decide) hc)
      Nat.toDigits_ne_nil
  rwa [Nat.ofDigitChars_ten_toDigits] at h

namespace IsDecimalOf

variable {n : Nat} {cs : List Char}

theorem hexDigits?_eq (h : IsDecimalOf n cs) : hexDigits? cs = none := by
  unfold hexDigits?
  split
  · exact absurd (h.digits 'x' (by simp)) (by decide)
  · exact absurd (h.digits 'X' (by simp)) (by decide)
  · rfl

theorem smallBase?_eq (h : IsDecimalOf n cs) : Lowering.smallBase? cs = none := by
  unfold Lowering.smallBase?
  split
  · exact absurd (h.digits 'b' (by simp)) (by decide)
  · exact absurd (h.digits 'B' (by simp)) (by decide)
  · exact absurd (h.digits 'o' (by simp)) (by decide)
  · exact absurd (h.digits 'O' (by simp)) (by decide)
  · rfl

theorem isDecimal_eq (h : IsDecimalOf n cs) : isDecimal cs = true := by
  have hall : cs.all Char.isDigit = true := List.all_eq_true.2 h.digits
  simpa [isDecimal, hall] using h.ne_nil

theorem int64?_eq (h : IsDecimalOf n cs) (hn : n < 2 ^ 63) : int64? 10 cs = some (n : Int) := by
  unfold int64?
  split
  · exact absurd (h.digits '-' (by simp)) (by decide)
  · exact absurd (h.digits '+' (by simp)) (by decide)
  · simp only [bounded?, Nat.pow_eq, h.value, Option.filter, decide_eq_true hn, if_true,
      Option.map_some]
    rfl

theorem filter_eq (h : IsDecimalOf n cs) : cs.filter (· ≠ '_') = cs := by
  rw [List.filter_eq_self]
  intro c hc
  have hne : c ≠ '_' := by
    rintro rfl
    exact absurd (h.digits '_' hc) (by decide)
  simpa using hne

theorem word?_eq (h : IsDecimalOf n cs) : Decimal.word? cs = none := by
  obtain ⟨c, rest, rfl⟩ := List.exists_cons_of_ne_nil h.ne_nil
  have hc : c.toLower.isDigit := by
    have hd := h.digits c List.mem_cons_self
    have hu : ¬ (c.val ≥ 'A'.val ∧ c.val ≤ 'Z'.val) := by
      rintro ⟨hA, -⟩
      simp only [Char.isDigit, Bool.and_eq_true, decide_eq_true_eq] at hd
      exact absurd (UInt32.le_trans hA hd.2) (by decide)
    rw [Char.toLower, dif_neg hu]
    exact hd
  have hne (w : Char) (ws : List Char) (hw : w.isDigit = false) :
      String.ofList ((c :: rest).map Char.toLower) ≠ String.ofList (w :: ws) := by
    intro he
    have hl := congrArg String.toList he
    rw [String.toList_ofList, String.toList_ofList, List.map_cons, List.cons.injEq] at hl
    rw [hl.1, hw] at hc
    cases hc
  unfold Decimal.word?
  split
  · next he => exact absurd he (hne 'i' ['n', 'f'] (by decide))
  · next he => exact absurd he (hne 'i' ['n', 'f', 'i', 'n', 'i', 't', 'y'] (by decide))
  · next he => exact absurd he (hne 'n' ['a', 'n'] (by decide))
  · rfl

theorem ofChars?_eq (h : IsDecimalOf n cs) : Decimal.Scaled.ofChars? cs = some ⟨n, 0⟩ := by
  have htake : cs.takeWhile Char.isDigit = cs := List.takeWhile_eq_self_iff.2 h.digits
  have hdrop : cs.dropWhile Char.isDigit = [] := List.dropWhile_eq_nil_iff.2 h.digits
  simp [Decimal.Scaled.ofChars?, Decimal.takeDigits, htake, hdrop, h.value, Decimal.exponentPart?]

theorem unsigned?_eq (h : IsDecimalOf n cs) :
    Decimal.unsigned? cs = some (Decimal.Scaled.toFloat ⟨n, 0⟩) := by
  simp [Decimal.unsigned?, h.word?_eq, h.ofChars?_eq]

theorem float?_eq (h : IsDecimalOf n cs) : Decimal.float? cs = some (Decimal.Scaled.toFloat ⟨n, 0⟩) := by
  unfold Decimal.float?
  split
  · exact absurd (h.digits '-' (by simp)) (by decide)
  · exact absurd (h.digits '+' (by simp)) (by decide)
  · exact h.unsigned?_eq

end IsDecimalOf

theorem digit?_lt {base d : Nat} {c : Char} (h : digit? base c = some d) : d < base := by
  obtain ⟨hlt, hd⟩ := Option.ite_none_right_eq_some.1 h
  rwa [Option.some.inj hd] at hlt

theorem digitChar_of_isDigit {c : Char} (h : c.isDigit) : Nat.digitChar (c.toNat - '0'.toNat) = c := by
  obtain ⟨hlow, hhigh⟩ := Char.isDigit_iff_toNat.1 h
  change 48 ≤ c.toNat at hlow
  change c.toNat ≤ 57 at hhigh
  change Nat.digitChar (c.toNat - 48) = c
  apply Char.toNat_inj.1
  rw [Nat.toNat_digitChar_of_lt_ten (by omega)]
  omega

/-- Further digits are written after those of a positive number. -/
theorem toDigits_ofDigitChars {cs : List Char} (h : ∀ c ∈ cs, c.isDigit) {acc : Nat}
    (hacc : 0 < acc) :
    Nat.toDigits 10 (Nat.ofDigitChars 10 cs acc) = Nat.toDigits 10 acc ++ cs := by
  induction cs generalizing acc with
  | nil => rw [Nat.ofDigitChars_nil, List.append_nil]
  | cons c cs ih =>
    have hc := h c List.mem_cons_self
    have hlt : c.toNat - '0'.toNat < 10 := digit?_lt (digit?_of_isDigit hc)
    have hpos : 0 < 10 * acc + (c.toNat - '0'.toNat) := by omega
    rw [Nat.ofDigitChars_cons, ih (fun d hd => h d (List.mem_cons_of_mem c hd)) hpos,
      ← Nat.toDigits_append_toDigits (by decide) hacc hlt, Nat.toDigits_of_lt_base hlt,
      digitChar_of_isDigit hc, List.append_assoc, List.singleton_append]

/-- Digits without a leading zero are the digits of a number. -/
theorem toDigits_ofDigitChars_cons {c : Char} {cs : List Char} (h : ∀ d ∈ c :: cs, d.isDigit)
    (hc : c ≠ '0') : Nat.toDigits 10 (Nat.ofDigitChars 10 (c :: cs) 0) = c :: cs := by
  have hd := h c List.mem_cons_self
  have hlt : c.toNat - '0'.toNat < 10 := digit?_lt (digit?_of_isDigit hd)
  have hchar := digitChar_of_isDigit hd
  have hpos : 0 < c.toNat - '0'.toNat := by
    rw [Nat.pos_iff_ne_zero]
    intro hzero
    exact hc (hchar.symm.trans (Nat.digitChar_eq_zero.2 hzero))
  rw [Nat.ofDigitChars_cons, Nat.mul_zero, Nat.zero_add,
    toDigits_ofDigitChars (fun d hd => h d (List.mem_cons_of_mem c hd)) hpos,
    Nat.toDigits_of_lt_base hlt, hchar, List.singleton_append]

theorem head?_toDigits {n : Nat} (hn : n ≠ 0) : (Nat.toDigits 10 n).head? ≠ some '0' := by
  induction n using Nat.strong_induction_on with
  | _ n ih =>
    rcases Nat.lt_or_ge n 10 with hlt | hge
    · rw [Nat.toDigits_of_lt_base hlt, List.head?_cons]
      exact fun h => hn (Nat.digitChar_eq_zero.1 (Option.some.inj h))
    · have hhigh := ih (n / 10) (by omega) (by omega)
      rw [Nat.toDigits_of_base_le (by decide) hge,
        List.head?_append_of_ne_nil _ Nat.toDigits_ne_nil]
      exact hhigh

/-- A decimal integer has no sign. -/
theorem isDecimalOf_of_int64? {cs : List Char} {k : Int} (hd : isDecimal cs)
    (hk : int64? 10 cs = some k) : ∃ n : Nat, k = n ∧ IsDecimalOf n cs := by
  rw [isDecimal, Bool.and_eq_true, List.all_eq_true] at hd
  obtain ⟨hne, hd⟩ := hd
  unfold int64? at hk
  split at hk
  · exact absurd (hd '-' List.mem_cons_self) (by decide)
  · exact absurd (hd '+' List.mem_cons_self) (by decide)
  · obtain ⟨n, hn, rfl⟩ := Option.map_eq_some_iff.1 hk
    exact ⟨n, rfl, hd, by simpa using hne, (Option.filter_eq_some_iff.1 hn).1⟩

end ScriptToLua.Numeral

namespace ScriptToLua

open Numeral

theorem isDecimalOf_toString (n : Nat) : IsDecimalOf n (toString n).toList := by
  have ht : (toString n).toList = Nat.toDigits 10 n := Nat.toList_repr
  rw [ht]
  exact isDecimalOf_toDigits n

theorem Lowering.luaNumeral_toString (n : Nat) : luaNumeral (toString n) = toString n := by
  have h := isDecimalOf_toString n
  simp only [luaNumeral, h.filter_eq, h.smallBase?_eq, Option.bind_none, String.ofList_toList]

theorem Lua.integerOf?_toString {n : Nat} (hn : n < 2 ^ 63) :
    integerOf? (toString n) = some (n : Int) := by
  have h := isDecimalOf_toString n
  simp only [integerOf?, h.hexDigits?_eq, h.isDecimal_eq, if_true, h.int64?_eq hn]

theorem Lua.floatOf?_toString (n : Nat) :
    floatOf? (toString n) = some (Decimal.Scaled.toFloat ⟨n, 0⟩) := by
  have h := isDecimalOf_toString n
  simp only [floatOf?, h.hexDigits?_eq, h.float?_eq]

theorem Decimal.Scaled.toFloat_natural {n : Nat} (hn : n < 10 ^ 16) :
    Scaled.toFloat ⟨n, 0⟩ = Float.ofNat n := by
  unfold Scaled.toFloat
  have hd : digitCount n ≤ 16 := by
    rwa [digitCount, Nat.length_toDigits_le_iff (by decide) (by decide)]
  by_cases h0 : n = 0
  · subst h0
    decide +kernel
  · have hlow : ¬ (n = 0 ∨ (digitCount n : Int) + 0 < -400) := by omega
    have hhigh : ¬ 400 < (digitCount n : Int) + 0 := by omega
    simp only [if_neg hlow, if_neg hhigh]
    rfl

theorem Decimal.Scaled.toFloat_natCast {n : Nat} (hn : n < 2 ^ 53) :
    Scaled.toFloat ⟨n, 0⟩ = Float.ofNat n := toFloat_natural (hn.trans (by decide))

/-- The double of an integer numeral is that of its integer. -/
theorem Lua.floatOf?_integer {text : String} {k : Int} (h : integerOf? text = some k)
    (hk : k.natAbs < 10 ^ 16) : floatOf? text = some (Float.ofInt k) := by
  unfold integerOf? at h
  unfold floatOf?
  dsimp only at h ⊢
  split at h
  · rw [h, Option.map_some]
  · split at h
    · next hd =>
      obtain ⟨n, rfl, hn⟩ := isDecimalOf_of_int64? hd h
      have hn16 : n < 10 ^ 16 := hk
      rw [hn.float?_eq, Decimal.Scaled.toFloat_natural hn16]
      rfl
    · cases h

/-- The strings that are array indices are the decimal numerals of the numbers below `10 ^ 15`. -/
theorem Lowering.isIndexText_iff {key : String} :
    isIndexText key ↔ ∃ n < 10 ^ 15, key = toString n := by
  have htext (n : Nat) : (toString n).toList = Nat.toDigits 10 n := Nat.toList_repr
  constructor
  · intro h
    unfold isIndexText at h
    split at h
    · cases h
    · next hkey => exact ⟨0, by decide, String.toList_injective (hkey.trans (htext 0).symm)⟩
    · cases h
    · next hne hzero hlead =>
      rw [Bool.and_eq_true, decide_eq_true_eq, List.all_eq_true] at h
      obtain ⟨c, cs, hcs⟩ := List.exists_cons_of_ne_nil hne
      rw [hcs] at h
      have hc : c ≠ '0' := by
        rintro rfl
        exact hlead cs hcs
      have hdigits := toDigits_ofDigitChars_cons h.2 hc
      refine ⟨Nat.ofDigitChars 10 (c :: cs) 0, ?_, ?_⟩
      · rw [← Nat.length_toDigits_le_iff (by decide) (by decide), hdigits]
        exact Nat.le_of_lt_succ h.1
      · exact String.toList_injective (hcs.trans ((htext _).trans hdigits).symm)
  · rintro ⟨n, hn, rfl⟩
    rcases Nat.eq_zero_or_pos n with rfl | hpos
    · decide
    · have hhead := head?_toDigits hpos.ne'
      have hlen := (Nat.length_toDigits_le_iff (by decide : 1 < 10) (by decide : 0 < 15)).2 hn
      have hall := (isDecimalOf_toString n).digits
      have hne := (isDecimalOf_toString n).ne_nil
      rw [← htext] at hhead hlen
      unfold isIndexText
      split
      · next h => exact absurd h hne
      · rfl
      · next h => exact absurd (congrArg List.head? h) hhead
      · rw [Bool.and_eq_true, decide_eq_true_eq, List.all_eq_true]
        exact ⟨Nat.lt_succ_of_le hlen, hall⟩

/-- Strings that are array indices are small. -/
theorem Lua.integerOf?_index {text : String} (hi : Lowering.isIndexText text) {k : Int}
    (hk : integerOf? text = some k) : k.natAbs < 10 ^ 15 := by
  obtain ⟨n, hn, rfl⟩ := Lowering.isIndexText_iff.1 hi
  rw [integerOf?_toString (hn.trans (by decide))] at hk
  obtain rfl := Option.some.inj hk
  exact hn

theorem Lua.floatOf?_toString_int {k : Int} (hk : k.natAbs < 10 ^ 16) :
    floatOf? (toString k) = some (Float.ofInt k) := by
  cases k with
  | ofNat n =>
    exact (floatOf?_toString n).trans (congrArg some (Decimal.Scaled.toFloat_natural hk))
  | negSucc n =>
    have ht : (toString (Int.negSucc n)).toList = '-' :: (toString (n + 1)).toList := by
      have hs : toString (Int.negSucc n) = "-" ++ toString (n + 1) := rfl
      rw [hs, String.toList_append]
      rfl
    have hn16 : n + 1 < 10 ^ 16 := hk
    have hu := (isDecimalOf_toString (n + 1)).unsigned?_eq
    rw [Decimal.Scaled.toFloat_natural hn16] at hu
    simp only [floatOf?, ht, Numeral.hexDigits?, Decimal.float?, hu, Option.map_some]
    rfl

end ScriptToLua
