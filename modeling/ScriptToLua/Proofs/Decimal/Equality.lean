import Mathlib
import ScriptToLua.Proofs.Decimal.Integers

/-!
Equality of doubles. An integer is the value of one double only, but for the two zeros, so doubles that
are the same integer are equal: `beq_of_integer?`.
-/

namespace ScriptToLua.Decimal

/-- An integral magnitude is its mantissa moved by its exponent. -/
theorem Binary.natural?_scaled {b : Binary} {n k : Nat} (h : b.natural? = some n)
    (hk : 0 ≤ b.exponent + k) : n * 2 ^ k = b.mantissa * 2 ^ (b.exponent + k).toNat := by
  obtain ⟨m, e⟩ := b
  dsimp only at hk ⊢
  cases e with
  | ofNat e =>
    obtain rfl : m * 2 ^ e = n := Option.some.inj h
    have he : (Int.ofNat e + (k : Int)).toNat = e + k := by
      rw [Int.ofNat_eq_natCast]
      omega
    rw [he, Nat.mul_assoc, ← Nat.pow_add]
  | negSucc e =>
    simp only [Binary.natural?, Nat.pow_eq] at h
    split at h
    · next hdvd =>
      obtain rfl : m / 2 ^ (e + 1) = n := Option.some.inj h
      have he : k = e + 1 + (Int.negSucc e + (k : Int)).toNat := by omega
      generalize (Int.negSucc e + (k : Int)).toNat = j at he ⊢
      rw [he, Nat.pow_add 2 (e + 1) j, ← Nat.mul_assoc, Nat.div_mul_cancel (Nat.dvd_of_mod_eq_zero hdvd)]
    · cases h

/-- The fields of a finite double, below those of an infinity. -/
structure Fields (exponentField fraction : Nat) : Prop where
  exponent : exponentField < 2047
  fraction : fraction < 2 ^ 52

section Fields

variable {f g i j n : Nat}

/-- The magnitude with all fraction bits of the smallest doubles in front of the point. -/
theorem ofFields_scaled (hn : (Binary.ofFields f i).natural? = some n) :
    n * 2 ^ 1074 = (Binary.ofFields f i).mantissa * 2 ^ (f - 1) := by
  have he : (Binary.ofFields f i).exponent + (1074 : Nat) = (f - 1 : Nat) := by
    unfold Binary.ofFields
    split <;> dsimp only <;> omega
  have hs := Binary.natural?_scaled hn (k := 1074) (by omega)
  rw [he, Int.toNat_natCast] at hs
  exact hs

theorem ofFields_zero (hn : (Binary.ofFields f i).natural? = some 0) :
    f = 0 ∧ i = 0 := by
  have hs := ofFields_scaled hn
  rw [Nat.zero_mul] at hs
  have hm := (Nat.mul_eq_zero.1 hs.symm).resolve_right (Nat.two_pow_pos _).ne'
  unfold Binary.ofFields at hm
  split at hm
  · next hf => exact ⟨hf, hm⟩
  · simp at hm

/-- The leading bit of the magnitude tells the exponent field. -/
theorem ofFields_log2 (h : Fields f i) (hf : f ≠ 0) :
    ((Binary.ofFields f i).mantissa * 2 ^ (f - 1)).log2 = 52 + (f - 1) := by
  have hfull : Full (2 ^ 52 + i) := ⟨Nat.le_add_right _ _, by have := h.fraction; omega⟩
  rw [Binary.ofFields, if_neg hf]
  exact (log2_mul_two_pow hfull.pos _).trans (by rw [hfull.log2])

theorem ofFields_log2_zero (h : Fields 0 i) :
    ((Binary.ofFields 0 i).mantissa * 2 ^ (0 - 1)).log2 < 52 := by
  change (i * 1).log2 < 52
  rw [Nat.mul_one]
  by_cases hi : i = 0
  · rw [hi]
    decide
  · exact (Nat.log2_lt hi).2 h.fraction

/-- A natural number has one pair of fields. -/
theorem ofFields_inj (h : Fields f i) (h' : Fields g j)
    (hn : (Binary.ofFields f i).natural? = some n)
    (hn' : (Binary.ofFields g j).natural? = some n) : f = g ∧ i = j := by
  have heq := (ofFields_scaled hn).symm.trans (ofFields_scaled hn')
  have hlog := congrArg Nat.log2 heq
  by_cases hf : f = 0 <;> by_cases hg : g = 0
  · subst hf hg
    exact ⟨rfl, Nat.eq_of_mul_eq_mul_right (Nat.two_pow_pos _) heq⟩
  · subst hf
    have := ofFields_log2_zero h
    rw [ofFields_log2 h' hg] at hlog
    omega
  · subst hg
    have := ofFields_log2_zero h'
    rw [ofFields_log2 h hf] at hlog
    omega
  · rw [ofFields_log2 h hf, ofFields_log2 h' hg] at hlog
    obtain rfl : f = g := by omega
    have hm := Nat.eq_of_mul_eq_mul_right (Nat.two_pow_pos _) heq
    rw [Binary.ofFields, Binary.ofFields, if_neg hf, if_neg hf] at hm
    exact ⟨rfl, Nat.add_left_cancel hm⟩

end Fields

/-- The sign and the fields of a double that is an integer. -/
theorem integer?_fields {x : Float} {n : Int} (h : (Real.ofFloat x).integer? = some n) :
    ∃ (negative : Bool) (f i : Nat), Fields f i ∧
      x.toBits.toNat = (if negative then 2 ^ 63 else 0) + f * 2 ^ 52 + i ∧
      (Binary.ofFields f i).natural? = some n.natAbs ∧ (n ≠ 0 → negative = decide (n < 0)) := by
  have hlt := x.toBits.toNat_lt
  unfold Real.ofFloat Real.ofBits at h
  simp only [Nat.pow_eq] at h
  generalize x.toBits.toNat = bits at h hlt ⊢
  split at h
  · split at h <;> cases h
  · next hf =>
    cases hm : (Binary.ofFields (bits / 2 ^ 52 % 2 ^ 11) (bits % 2 ^ 52)).natural? with
    | none =>
      rw [Real.integer?, hm] at h
      cases h
    | some m =>
      rw [Real.integer?, hm] at h
      have hn : (if decide (bits / 2 ^ 63 % 2 = 1) then -(m : Int) else m) = n := Option.some.inj h
      refine ⟨decide (bits / 2 ^ 63 % 2 = 1), bits / 2 ^ 52 % 2 ^ 11, bits % 2 ^ 52,
        ⟨by omega, by omega⟩, ?_, ?_, ?_⟩
      · by_cases hs : bits / 2 ^ 63 % 2 = 1
        · rw [if_pos (decide_eq_true hs)]
          omega
        · rw [if_neg (by simpa using hs)]
          omega
      · rw [hm, ← hn]
        split <;> simp
      · intro hne
        by_cases hs : bits / 2 ^ 63 % 2 = 1
        · rw [if_pos (decide_eq_true hs)] at hn
          rw [decide_eq_true hs, eq_comm, decide_eq_true_eq]
          omega
        · rw [if_neg (by simpa using hs)] at hn
          rw [decide_eq_false hs, eq_comm, decide_eq_false_iff_not]
          omega

theorem ne_nan_of_integer? {x : Float} {n : Int} (h : (Real.ofFloat x).integer? = some n) :
    x ≠ .nan := by
  rintro rfl
  have hnan : (Real.ofFloat .nan).integer? = none := by decide +kernel
  cases hnan.symm.trans h

/-- Doubles that are the same integer are equal. -/
theorem beq_of_integer? {x y : Float} {n : Int} (hx : (Real.ofFloat x).integer? = some n)
    (hy : (Real.ofFloat y).integer? = some n) : x == y := by
  rw [Float.beq_iff_ne_nan_and_eq]
  refine ⟨ne_nan_of_integer? hx, ne_nan_of_integer? hy, ?_⟩
  obtain ⟨a, f, i, hf, hbits, hm, ha⟩ := integer?_fields hx
  obtain ⟨b, g, j, hg, hbits', hm', hb⟩ := integer?_fields hy
  by_cases hn : n = 0
  · subst hn
    obtain ⟨rfl, rfl⟩ := ofFields_zero hm
    obtain ⟨rfl, rfl⟩ := ofFields_zero hm'
    have hzero {z : Float} (negative : Bool)
        (h : z.toBits.toNat = (if negative then 2 ^ 63 else 0) + 0 * 2 ^ 52 + 0) :
        z = if negative then -0 else 0 := by
      apply Float.toBits_inj.1
      apply UInt64.toNat.inj
      rw [h]
      cases negative <;> decide +kernel
    rw [hzero a hbits, hzero b hbits']
    cases a <;> cases b <;> simp
  · obtain ⟨rfl, rfl⟩ := ofFields_inj hf hg hm hm'
    rw [ha hn] at hbits
    rw [hb hn, ← hbits] at hbits'
    exact .inl (Float.toBits_inj.1 (UInt64.toNat.inj hbits'.symm))

end ScriptToLua.Decimal
