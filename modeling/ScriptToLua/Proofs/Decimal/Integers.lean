import Mathlib
import ScriptToLua.Decimal.Binary

/-!
Integers as doubles. Below `2 ^ 53` every natural number is a double of its own and one can be added
exactly; the doubles for larger ones are no smaller than `2 ^ 53`.
-/

namespace ScriptToLua.Decimal

open Float.Model Float.Model.UnpackedFloat

theorem log2_mul_two_pow {n : Nat} (h : 0 < n) (s : Nat) : (n * 2 ^ s).log2 = n.log2 + s := by
  have hn : 0 < n * 2 ^ s := Nat.mul_pos h (Nat.two_pow_pos s)
  have h1 : 2 ^ (n.log2 + s) ≤ n * 2 ^ s := by
    rw [Nat.pow_add]
    exact Nat.mul_le_mul_right _ (Nat.log2_self_le h.ne')
  have h2 : n * 2 ^ s < 2 ^ (n.log2 + s + 1) := by
    have he : 2 ^ (n.log2 + s + 1) = 2 ^ (n.log2 + 1) * 2 ^ s := by ring
    rw [he]
    exact Nat.mul_lt_mul_of_pos_right Nat.lt_log2_self (Nat.two_pow_pos s)
  have h3 := (Nat.le_log2 hn.ne').2 h1
  have h4 := (Nat.log2_lt hn.ne').2 h2
  omega

/-- The range of a mantissa with its leading bit set. -/
structure Full (M : Nat) : Prop where
  low : 2 ^ 52 ≤ M
  high : M < 2 ^ 53

namespace Full

variable {M : Nat}

theorem pos (h : Full M) : 0 < M := Nat.lt_of_lt_of_le (by decide) h.low

theorem log2 (h : Full M) : M.log2 = 52 := by
  have h1 := (Nat.le_log2 h.pos.ne').2 h.low
  have h2 := (Nat.log2_lt h.pos.ne').2 h.high
  omega

end Full

/-- The mantissa of `n` with its leading bit in front. -/
def fullMantissa (n : Nat) : Nat := n * 2 ^ (52 - n.log2)

theorem log2_le {n : Nat} (h : n < 2 ^ 53) : n.log2 ≤ 52 := by
  by_cases hn : n = 0
  · simp [hn]
  · have hl := (Nat.log2_lt hn).2 h
    omega

theorem fullMantissa_full {n : Nat} (hp : 0 < n) (h : n < 2 ^ 53) : Full (fullMantissa n) := by
  have hl := log2_le h
  have hlow := Nat.log2_self_le hp.ne'
  have hhigh := Nat.lt_log2_self (n := n)
  constructor
  · have he : 2 ^ 52 = 2 ^ n.log2 * 2 ^ (52 - n.log2) := by
      rw [← Nat.pow_add, Nat.add_sub_cancel' hl]
    rw [he]
    exact Nat.mul_le_mul_right _ hlow
  · have he : 2 ^ 53 = 2 ^ (n.log2 + 1) * 2 ^ (52 - n.log2) := by
      rw [← Nat.pow_add]
      congr 1
      omega
    rw [he]
    exact Nat.mul_lt_mul_of_pos_right hhigh (Nat.two_pow_pos _)

theorem shift_exact (M s : Nat) :
    (⟨M * 2 ^ s, false, false⟩ : ExtendedMantissa) >>> s = ⟨M, false, false⟩ := by
  induction s generalizing M with
  | zero => simp [HShiftRight.hShiftRight, Nat.repeat]
  | succ s ih =>
    have hs := ih (M * 2)
    change ExtendedMantissa.shiftRightOne
      ((⟨M * 2 ^ (s + 1), false, false⟩ : ExtendedMantissa) >>> s) = _
    rw [Nat.pow_succ', ← Nat.mul_assoc, hs]
    simp [ExtendedMantissa.shiftRightOne]

theorem shiftToTargetExponent_exact {M : Nat} (h : Full M) (s : Nat) {e : Int}
    (he : -1074 ≤ e + s) :
    shiftToTargetExponent .binary64 (M * 2 ^ s) e .exact = (⟨M, false, false⟩, e + s) := by
  have ht : Format.binary64.targetExponent (totalExponent (M * 2 ^ s) e) = e + s := by
    simp only [Format.targetExponent, totalExponent, log2_mul_two_pow h.pos, h.log2, Format.mantissaBits,
      Format.minExponent]
    push_cast
    omega
  have hs : (e + s - e).toNat = s := by omega
  unfold shiftToTargetExponent shiftToExponent
  simp only [ht, hs, ExtendedMantissa.ofMantissaAndAccuracy, shift_exact]

theorem roundWithAccuracy_exact {M : Nat} (h : Full M) (s : Nat) {e : Int} (he : -1074 ≤ e + s) :
    roundWithAccuracy .binary64 .positive (M * 2 ^ s) e .exact =
      .finite .positive M (e + s) h.pos := by
  have h0 := shiftToTargetExponent_exact h 0 (e := e + s) (by simpa using he)
  rw [Nat.pow_zero, Nat.mul_one, Nat.cast_zero, Int.add_zero] at h0
  unfold roundWithAccuracy
  rw [shiftToTargetExponent_exact h s he]
  simp only [ExtendedMantissa.roundedMantissa, ExtendedMantissa.accuracy,
    Accuracy.roundToNearestEven, h0, dif_neg h.pos.ne']

/-- The double of a full mantissa and an exponent. -/
def dyadic (M : Nat) (E : Int) (h : 0 < M) : Float := .ofModel (.pack (.finite .positive M E h))

section Bits

variable {M : Nat} {E : Int}

/-- The exponent of a double as it is stored. -/
theorem storedExponent (E : Int) :
    (E + Format.binary64.exponentBias + Format.binary64.mantissaBitsWithoutImplicit).toNat =
      (E + 1075).toNat := by
  simp only [Format.exponentBias]
  push_cast
  omega

theorem pack_finite (s : Sign) (h : Full M) (hl : -1074 ≤ E) (hr : E ≤ 971) :
    UnpackedFloat.pack .binary64 (.finite s M E h.pos) =
      packComponents .binary64 s (BitVec.ofNat 11 (E + 1075).toNat) (BitVec.ofNat 52 M) := by
  have hb := storedExponent E
  have hm : M.log2 + 1 = Format.binary64.mantissaBits := by rw [h.log2]; rfl
  have hn : ¬ 2 ^ 11 ≤ (E + 1075).toNat + 1 := by omega
  simp only [UnpackedFloat.pack, hb, if_pos hm, if_neg hn]

theorem toNat_append_lt {a b : Nat} (x : BitVec a) (y : BitVec b) :
    (x ++ y).toNat = x.toNat * 2 ^ b + y.toNat := by
  rw [BitVec.toNat_append, ← Nat.shiftLeft_add_eq_or_of_lt y.isLt, Nat.shiftLeft_eq]

theorem toBits_dyadic (h : Full M) (hl : -1074 ≤ E) (hr : E ≤ 971) :
    (dyadic M E h.pos).toBits.toNat = (E + 1075).toNat * 2 ^ 52 + (M - 2 ^ 52) := by
  have h1 := h.low
  have h2 := h.high
  change (UnpackedFloat.pack .binary64 (.finite .positive M E h.pos)).toNat = _
  rw [pack_finite _ h hl hr]
  unfold packComponents
  rw [toNat_append_lt, toNat_append_lt]
  simp only [BitVec.toNat_ofNat, Sign.toBitVec]
  have hm : M % 2 ^ 52 = M - 2 ^ 52 := by omega
  have he : (E + 1075).toNat % 2 ^ 11 = (E + 1075).toNat := by omega
  rw [hm, he]
  simp

theorem ofFloat_dyadic (h : Full M) (hl : -1074 ≤ E) (hr : E ≤ 971) :
    Real.ofFloat (dyadic M E h.pos) = .finite false ⟨M, E⟩ := by
  have h1 := h.low
  have h2 := h.high
  have he : ((E + 1075).toNat : Int) = E + 1075 := by omega
  rw [Real.ofFloat, toBits_dyadic h hl hr]
  generalize (E + 1075).toNat = n at he ⊢
  have hn : n < 2047 := by omega
  have hs : (n * 2 ^ 52 + (M - 2 ^ 52)) / 2 ^ 63 % 2 = 0 := by omega
  have hx : (n * 2 ^ 52 + (M - 2 ^ 52)) / 2 ^ 52 % 2 ^ 11 = n := by omega
  have hf : (n * 2 ^ 52 + (M - 2 ^ 52)) % 2 ^ 52 = M - 2 ^ 52 := by omega
  have hM : 2 ^ 52 + (M - 2 ^ 52) = M := by omega
  have hne : ¬ n = 2047 := by omega
  have hn0 : ¬ n = 0 := by omega
  have hE : (n : Int) - 1075 = E := by omega
  unfold Real.ofBits Binary.ofFields
  simp only [Nat.pow_eq, hs, hx, hf, if_neg hne, if_neg hn0, hM, hE]
  rfl

theorem unpackSign_packComponents (s : Sign) (e : BitVec 11) (m : BitVec 52) :
    unpackSign (packComponents .binary64 s e m) = s.toBitVec := by
  apply BitVec.eq_of_getLsbD_eq
  intro i hi
  obtain rfl : i = 0 := by omega
  simp only [unpackSign, packComponents, BitVec.getLsbD_cast, BitVec.getLsbD_extractLsb]
  rw [BitVec.getLsbD_append, BitVec.getLsbD_append]
  rfl

theorem unpack_pack_finite (s : Sign) (h : Full M) (hl : -1074 ≤ E) (hr : E ≤ 971) :
    UnpackedFloat.unpack .binary64 (UnpackedFloat.pack .binary64 (.finite s M E h.pos)) =
      .finite s M E h.pos := by
  have h1 := h.low
  have h2 := h.high
  rw [pack_finite s h hl hr]
  have hn : (BitVec.ofNat 11 (E + 1075).toNat).toNat = (E + 1075).toNat := by
    rw [BitVec.toNat_ofNat]
    omega
  have hne : BitVec.ofNat 11 (E + 1075).toNat ≠ -1#_ := by
    intro he
    have hc := congrArg BitVec.toNat he
    rw [hn] at hc
    simp at hc
    omega
  have hn0 : BitVec.ofNat 11 (E + 1075).toNat ≠ 0#_ := by
    intro he
    have hc := congrArg BitVec.toNat he
    rw [hn] at hc
    simp at hc
    omega
  have hM : (1#1 ++ BitVec.ofNat 52 M).toNat = M := by
    rw [toNat_append_lt, BitVec.toNat_ofNat]
    simp
    omega
  unfold UnpackedFloat.unpack
  simp only [unpackMantissa_packComponents, unpackExponent_packComponents,
    unpackSign_packComponents, if_neg hne, if_neg hn0, hM, hn]
  have hE : ((E + 1075).toNat : Int) -
      (Format.binary64.exponentBias + Format.binary64.mantissaBitsWithoutImplicit) = E := by
    simp only [Format.exponentBias]
    push_cast
    omega
  simp only [hE]
  cases s <;> rfl

theorem unpack_dyadic (h : Full M) (hl : -1074 ≤ E) (hr : E ≤ 971) :
    (dyadic M E h.pos).toModel.unpack = .finite .positive M E h.pos :=
  unpack_pack_finite .positive h hl hr

end Bits

/-- The natural number `n` as a double with a full mantissa. -/
def unpacked (n : Nat) : UnpackedFloat :=
  if h : 0 < n then
    .finite .positive (fullMantissa n) (n.log2 - 52) (Nat.mul_pos h (Nat.two_pow_pos _))
  else .zero .positive

theorem unpacked_pos {n : Nat} (hp : 0 < n) (h : n < 2 ^ 53) :
    unpacked n = .finite .positive (fullMantissa n) (n.log2 - 52) (fullMantissa_full hp h).pos :=
  dif_pos hp

/-- Rounding finds the full mantissa of a number that is written with a smaller exponent. -/
theorem round_mul (n j : Nat) (hp : 0 < n) (h : n < 2 ^ 53) (hj : j ≤ 52) :
    round .binary64 .positive (n * 2 ^ j) (-j) = unpacked n := by
  have hl := log2_le h
  have hf := fullMantissa_full hp h
  have ht : Format.binary64.targetExponent (totalExponent (n * 2 ^ j) (-j)) = n.log2 - 52 := by
    simp only [Format.targetExponent, totalExponent, log2_mul_two_pow hp, Format.mantissaBits,
      Format.minExponent]
    push_cast
    omega
  rw [unpacked_pos hp h]
  simp only [UnpackedFloat.round, ht, decreaseExponent]
  by_cases hc : 52 - n.log2 ≤ j
  · have hs : (-(j : Int) - (n.log2 - 52)).toNat = 0 := by omega
    have hM : n * 2 ^ j = fullMantissa n * 2 ^ (j - (52 - n.log2)) := by
      rw [fullMantissa, Nat.mul_assoc, ← Nat.pow_add, Nat.add_sub_cancel' hc]
    have hE : -(j : Int) + ((j - (52 - n.log2) : Nat) : Int) = n.log2 - 52 := by omega
    have hr := roundWithAccuracy_exact hf (j - (52 - n.log2)) (e := -j) (by omega)
    simp only [hs, Nat.shiftLeft_zero, Nat.cast_zero, Int.sub_zero, hM, hr, hE]
  · have hs : (-(j : Int) - (n.log2 - 52)).toNat = 52 - n.log2 - j := by omega
    have hM : (n * 2 ^ j) <<< (52 - n.log2 - j) = fullMantissa n := by
      rw [Nat.shiftLeft_eq, fullMantissa, Nat.mul_assoc, ← Nat.pow_add]
      congr 2
      omega
    have hE : -(j : Int) - ((52 - n.log2 - j : Nat) : Int) = n.log2 - 52 := by omega
    have hr := roundWithAccuracy_exact hf 0 (e := n.log2 - 52) (by omega)
    rw [Nat.pow_zero, Nat.mul_one, Nat.cast_zero, Int.add_zero] at hr
    simp only [hs, hM, hE, hr]

theorem normalize_natCast {m : Nat} (h : 0 < m) (e : Int) :
    normalize .binary64 m e .positive = round .binary64 .positive m e := by
  have hc : compare (m : Int) 0 = .gt := by
    rw [Int.compare_eq_gt]
    exact_mod_cast h
  simp only [UnpackedFloat.normalize, hc, Int.toNat_natCast]

theorem ofInt_eq {n : Nat} (h : n < 2 ^ 53) : UnpackedFloat.ofInt .binary64 n = unpacked n := by
  rcases Nat.eq_zero_or_pos n with rfl | hp
  · rfl
  · have hr := round_mul n 0 hp h (Nat.zero_le _)
    rw [Nat.pow_zero, Nat.mul_one, Nat.cast_zero, Int.neg_zero] at hr
    exact (normalize_natCast hp 0).trans hr

theorem unpacked_one : unpacked 1 = .finite .positive (2 ^ 52) (-52) (by decide) := rfl

theorem mul_one_eq {n : Nat} (h : n < 2 ^ 53) :
    UnpackedFloat.mul .binary64 (unpacked n) (unpacked 1) = unpacked n := by
  rcases Nat.eq_zero_or_pos n with rfl | hp
  · rfl
  · have hf := fullMantissa_full hp h
    have hr := roundWithAccuracy_exact hf 52 (e := n.log2 - 52 + -52) (by omega)
    have hE : (n.log2 : Int) - 52 + -52 + ((52 : Nat) : Int) = n.log2 - 52 := by omega
    rw [hE] at hr
    rw [unpacked_pos hp h, unpacked_one]
    exact hr

theorem add_finite {M N : Nat} (e f : Int) (hM : 0 < M) (hN : 0 < N) :
    UnpackedFloat.add .binary64 (.finite .positive M e hM) (.finite .positive N f hN) =
      normalize .binary64 ((M <<< (e - min e f).toNat : Nat) + (N <<< (f - min e f).toNat : Nat))
        (min e f) .positive := rfl

theorem add_one_eq {n : Nat} (h : n + 1 < 2 ^ 53) :
    UnpackedFloat.add .binary64 (unpacked n) (unpacked 1) = unpacked (n + 1) := by
  rcases Nat.eq_zero_or_pos n with rfl | hp
  · rfl
  · have hn : n < 2 ^ 53 := Nat.lt_of_succ_lt h
    have hl := log2_le hn
    have hmin : min ((n.log2 : Int) - 52) (-52) = -52 := by omega
    have hs : ((n.log2 : Int) - 52 - -52).toNat = n.log2 := by omega
    have h0 : (-52 - -52 : Int).toNat = 0 := rfl
    have hM : fullMantissa n <<< n.log2 = n * 2 ^ 52 := by
      rw [Nat.shiftLeft_eq, fullMantissa, Nat.mul_assoc, ← Nat.pow_add, Nat.sub_add_cancel hl]
    have hsum : ((n * 2 ^ 52 : Nat) : Int) + ((2 ^ 52 : Nat) : Int) =
        (((n + 1) * 2 ^ 52 : Nat) : Int) := by
      rw [← Nat.cast_add, Nat.succ_mul]
    rw [unpacked_pos hp hn, unpacked_one, add_finite, hmin, hs, h0, hM, Nat.shiftLeft_zero, hsum,
      normalize_natCast (Nat.mul_pos (Nat.succ_pos n) (Nat.two_pow_pos 52))]
    exact round_mul (n + 1) 52 (Nat.succ_pos n) h (le_refl 52)

theorem unpack_pack {n : Nat} (h : n < 2 ^ 53) :
    (Float.Model.pack (unpacked n)).unpack = unpacked n := by
  rcases Nat.eq_zero_or_pos n with rfl | hp
  · rfl
  · have hl := log2_le h
    rw [unpacked_pos hp h]
    exact unpack_dyadic (fullMantissa_full hp h) (by omega) (by omega)

theorem ofNat_eq {n : Nat} (h : n < 2 ^ 53) :
    Float.ofNat n = .ofModel (.pack (unpacked n)) := by
  have hc : n < 2 ^ 53 ∧ 0 ≤ 22 := ⟨h, Nat.zero_le _⟩
  have hn : n.toUInt64.toNat = n := by
    rw [Nat.toUInt64, UInt64.toNat_ofNat']
    exact Nat.mod_eq_of_lt (by omega)
  have hx : n.toUInt64.toFloat = .ofModel (.pack (unpacked n)) := by
    change Float.ofModel (.pack (UnpackedFloat.ofInt .binary64 n.toUInt64.toNat)) = _
    rw [hn, ofInt_eq h]
  have hone : Float.ofBits 0x3FF0000000000000 = .ofModel (.pack (unpacked 1)) := by decide +kernel
  change Float.ofScientific n false 0 = _
  unfold Float.ofScientific
  rw [dif_pos hc]
  change n.toUInt64.toFloat * Float.ofBits 0x3FF0000000000000 = _
  rw [hx, hone]
  change Float.ofModel (.pack (UnpackedFloat.mul .binary64 (Float.Model.pack (unpacked n)).unpack
    (Float.Model.pack (unpacked 1)).unpack)) = _
  rw [unpack_pack h, unpack_pack (by decide), mul_one_eq h]

theorem ofNat_add_one {n : Nat} (h : n + 1 < 2 ^ 53) :
    Float.ofNat n + Float.ofNat 1 = Float.ofNat (n + 1) := by
  have hn : n < 2 ^ 53 := Nat.lt_of_succ_lt h
  have h1 : 1 < 2 ^ 53 := by decide
  rw [ofNat_eq hn, ofNat_eq h1, ofNat_eq h]
  change Float.ofModel (.pack (UnpackedFloat.add .binary64 (Float.Model.pack (unpacked n)).unpack
    (Float.Model.pack (unpacked 1)).unpack)) = _
  rw [unpack_pack hn, unpack_pack h1, add_one_eq h]

theorem natural?_fullMantissa {n : Nat} (h : n.log2 ≤ 52) :
    (⟨fullMantissa n, n.log2 - 52⟩ : Binary).natural? = some n := by
  unfold fullMantissa
  generalize hd : 52 - n.log2 = d
  have hE : (n.log2 : Int) - 52 = -(d : Int) := by omega
  rw [hE]
  cases d with
  | zero => simp [Binary.natural?]
  | succ d =>
    have hs : -((d + 1 : Nat) : Int) = Int.negSucc d := rfl
    have hdvd : n * 2 ^ (d + 1) % 2 ^ (d + 1) = 0 := Nat.mul_mod_left _ _
    have hquot : n * 2 ^ (d + 1) / 2 ^ (d + 1) = n := Nat.mul_div_cancel _ (Nat.two_pow_pos _)
    rw [hs]
    simp only [Binary.natural?, Nat.pow_eq, hdvd, hquot, if_true]

theorem integer?_ofNat {n : Nat} (h : n < 2 ^ 53) :
    (Real.ofFloat (Float.ofNat n)).integer? = some (n : Int) := by
  rw [ofNat_eq h]
  rcases Nat.eq_zero_or_pos n with rfl | hp
  · decide +kernel
  · have hl := log2_le h
    have hf := fullMantissa_full hp h
    have hx : Float.ofModel (.pack (unpacked n)) =
        dyadic (fullMantissa n) (n.log2 - 52) hf.pos := by
      rw [unpacked_pos hp h]
      rfl
    rw [hx, ofFloat_dyadic hf (by omega) (by omega)]
    simp only [Real.integer?, natural?_fullMantissa hl]
    rfl

theorem isNaN_ofNat {n : Nat} (h : n < 2 ^ 53) : (Float.ofNat n).isNaN = false := by
  rw [ofNat_eq h]
  change (Float.Model.pack (unpacked n)).unpack.isNaN = false
  rw [unpack_pack h]
  unfold unpacked
  split <;> rfl

theorem shift_mantissa (em : ExtendedMantissa) (s : Nat) :
    (em >>> s).mantissa = em.mantissa / 2 ^ s := by
  induction s with
  | zero => simp [HShiftRight.hShiftRight, Nat.repeat]
  | succ s ih =>
    change (em >>> s).mantissa / 2 = _
    rw [ih, Nat.div_div_eq_div_mul, ← Nat.pow_succ]

/-- Shifting and rounding rounds down or up. -/
theorem shift_rounded (m s : Nat) :
    let r := ((⟨m, false, false⟩ : ExtendedMantissa) >>> s).roundedMantissa
    m / 2 ^ s ≤ r ∧ r ≤ m / 2 ^ s + 1 := by
  have hm := shift_mantissa ⟨m, false, false⟩ s
  generalize (⟨m, false, false⟩ : ExtendedMantissa) >>> s = em at hm ⊢
  obtain ⟨M, r, t⟩ := em
  change M = m / 2 ^ s at hm
  rw [← hm]
  cases r <;> cases t <;> simp only [ExtendedMantissa.roundedMantissa, ExtendedMantissa.accuracy,
    Accuracy.roundToNearestEven] <;> omega

/-- Rounding a large number gives a full mantissa and a positive exponent. -/
theorem roundWithAccuracy_large {n : Nat} (h : 2 ^ 53 ≤ n) :
    ∃ (M : Nat) (E : Int) (hM : Full M), 1 ≤ E ∧
      roundWithAccuracy .binary64 .positive (n * 2 ^ 53) (-53) .exact = .finite .positive M E hM.pos := by
  have hp : 0 < n := Nat.lt_of_lt_of_le (by decide) h
  have hl : 53 ≤ n.log2 := (Nat.le_log2 hp.ne').2 h
  have hr := shift_rounded (n * 2 ^ 53) (n.log2 + 1)
  have hlow : 2 ^ 52 ≤ n * 2 ^ 53 / 2 ^ (n.log2 + 1) := by
    rw [Nat.le_div_iff_mul_le (Nat.two_pow_pos _)]
    calc
      2 ^ 52 * 2 ^ (n.log2 + 1) = 2 ^ n.log2 * 2 ^ 53 := by ring
      _ ≤ n * 2 ^ 53 := Nat.mul_le_mul_right _ (Nat.log2_self_le hp.ne')
  have hhigh : n * 2 ^ 53 / 2 ^ (n.log2 + 1) < 2 ^ 53 := by
    rw [Nat.div_lt_iff_lt_mul (Nat.two_pow_pos _), Nat.mul_comm n]
    exact Nat.mul_lt_mul_of_pos_left Nat.lt_log2_self (Nat.two_pow_pos 53)
  have ht : Format.binary64.targetExponent (totalExponent (n * 2 ^ 53) (-53)) = n.log2 - 52 := by
    simp only [Format.targetExponent, totalExponent, log2_mul_two_pow hp, Format.mantissaBits,
      Format.minExponent]
    push_cast
    omega
  have hs : ((n.log2 : Int) - 52 - -53).toNat = n.log2 + 1 := by omega
  have hE : -53 + ((n.log2 + 1 : Nat) : Int) = n.log2 - 52 := by omega
  have hfirst : shiftToTargetExponent .binary64 (n * 2 ^ 53) (-53) .exact =
      ((⟨n * 2 ^ 53, false, false⟩ : ExtendedMantissa) >>> (n.log2 + 1), (n.log2 : Int) - 52) := by
    simp only [shiftToTargetExponent, shiftToExponent, ht, hs, hE,
      ExtendedMantissa.ofMantissaAndAccuracy]
  generalize ((⟨n * 2 ^ 53, false, false⟩ : ExtendedMantissa) >>> (n.log2 + 1)) = em at hr hfirst
  have hround {M : Nat} (hM : Full M) (s : Nat) (he : em.roundedMantissa = M * 2 ^ s) :
      roundWithAccuracy .binary64 .positive (n * 2 ^ 53) (-53) .exact =
        .finite .positive M (n.log2 - 52 + s) hM.pos := by
    unfold roundWithAccuracy
    rw [hfirst]
    simp only [he, shiftToTargetExponent_exact hM s (by omega : -1074 ≤ (n.log2 : Int) - 52 + s),
      dif_neg hM.pos.ne']
  rcases Nat.lt_or_ge em.roundedMantissa (2 ^ 53) with hlt | hge
  · have hM : Full em.roundedMantissa := ⟨by omega, hlt⟩
    exact ⟨_, _, hM, by omega, hround hM 0 (by simp)⟩
  · -- The mantissa has been rounded up to a power of two, which takes one more place.
    have hM : Full (2 ^ 52) := ⟨le_refl _, by decide⟩
    have he : em.roundedMantissa = 2 ^ 52 * 2 ^ 1 := by omega
    exact ⟨_, _, hM, by omega, hround hM 1 he⟩

theorem ofNat_large {n : Nat} (h : 2 ^ 53 ≤ n) :
    ∃ (M : Nat) (E : Int) (hM : Full M), 1 ≤ E ∧ Float.ofNat n = dyadic M E hM.pos := by
  obtain ⟨M, E, hM, hE, hr⟩ := roundWithAccuracy_large h
  refine ⟨M, E, hM, hE, ?_⟩
  have hc : ¬(n < 2 ^ 53 ∧ 0 ≤ 22) := fun hc => absurd hc.1 (Nat.not_lt.2 h)
  have hn : ¬ n = 0 := by omega
  have hlow : ¬ (0 : Int) < -((2 : Int) ^ 11 + (n.log2 : Int)) := by omega
  have hmul : UnpackedFloat.ofScientific .binary64 n 0 =
      roundWithAccuracy .binary64 .positive (n <<< 53 * 1) (-53) .exact := by
    unfold UnpackedFloat.ofScientific
    rw [dif_neg hn, if_neg (by decide), if_neg hlow, if_pos (le_refl 0)]
    rfl
  change Float.ofScientific n false 0 = _
  unfold Float.ofScientific
  rw [dif_neg hc]
  change Float.ofModel (.pack (UnpackedFloat.ofScientific .binary64 n 0)) = _
  rw [hmul, Nat.mul_one, Nat.shiftLeft_eq, hr]
  rfl

/-- A double that is too large is infinite. -/
theorem dyadic_overflow {M : Nat} {E : Int} (h : 0 < M) (hE : 972 ≤ E) :
    dyadic M E h = .ofModel (.pack (.infinity .positive)) := by
  have hb := storedExponent E
  have hn : 2 ^ 11 ≤ (E + 1075).toNat + 1 := by omega
  have hp : UnpackedFloat.pack .binary64 (.finite .positive M E h) =
      UnpackedFloat.pack .binary64 (.infinity .positive) := by
    simp only [UnpackedFloat.pack, hb, if_pos hn]
  simp only [dyadic, Float.Model.pack, hp]

theorem isNaN_ofNat_large {n : Nat} (h : 2 ^ 53 ≤ n) : (Float.ofNat n).isNaN = false := by
  obtain ⟨M, E, hM, hE, hx⟩ := ofNat_large h
  rw [hx]
  rcases lt_or_ge (971 : Int) E with hlt | hle
  · rw [dyadic_overflow hM.pos hlt]
    decide +kernel
  · change (dyadic M E hM.pos).toModel.unpack.isNaN = false
    rw [unpack_dyadic hM (by omega) hle]
    rfl

theorem integer?_ofNat_large {n j : Nat} (h : 2 ^ 53 ≤ n) (hj : j < 2 ^ 53) :
    (Real.ofFloat (Float.ofNat n)).integer? ≠ some (j : Int) := by
  obtain ⟨M, E, hM, hE, hx⟩ := ofNat_large h
  rw [hx]
  rcases lt_or_ge (971 : Int) E with hlt | hle
  · have hi : (Real.ofFloat (.ofModel (.pack (.infinity .positive)))).integer? = none := by
      decide +kernel
    rw [dyadic_overflow hM.pos hlt, hi]
    nofun
  · rw [ofFloat_dyadic hM (by omega) hle]
    obtain ⟨e, rfl⟩ : ∃ e : Nat, E = ((e + 1 : Nat) : Int) := ⟨(E - 1).toNat, by omega⟩
    have hlow : 2 ^ 53 ≤ M * 2 ^ (e + 1) := by
      calc
        2 ^ 53 = 2 ^ 52 * 2 := by ring
        _ ≤ M * 2 ^ (e + 1) := Nat.mul_le_mul hM.low (Nat.le_self_pow (Nat.succ_ne_zero e) 2)
    intro hs
    change some ((M * 2 ^ (e + 1) : Nat) : Int) = some (j : Int) at hs
    rw [Option.some.injEq] at hs
    omega

end ScriptToLua.Decimal
