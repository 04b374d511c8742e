import Mathlib
import ScriptToLua.Proofs.Decimal.Integers

/-!
Adding one to integers of either sign: exact up to `2 ^ 53` in magnitude, `ofInt_add_one`.
-/

namespace ScriptToLua.Decimal

open Float.Model Float.Model.UnpackedFloat

/-- The sign has no part in rounding. -/
theorem roundWithAccuracy_neg (m : Nat) (e : Int) (a : Accuracy) :
    roundWithAccuracy .binary64 .negative m e a =
      (roundWithAccuracy .binary64 .positive m e a).neg := by
  unfold roundWithAccuracy
  dsimp only
  split
  · rfl
  · rfl

theorem round_neg (m : Nat) (e : Int) :
    UnpackedFloat.round .binary64 .negative m e =
      (UnpackedFloat.round .binary64 .positive m e).neg :=
  roundWithAccuracy_neg ..

theorem normalize_neg {m : Nat} (h : 0 < m) (e : Int) :
    normalize .binary64 (-(m : Int)) e .positive = (round .binary64 .positive m e).neg := by
  have hc : compare (-(m : Int)) 0 = .lt := by
    rw [Int.compare_eq_lt]
    omega
  simp only [UnpackedFloat.normalize, hc, Int.neg_neg, Int.toNat_natCast, round_neg]

theorem add_finite_neg {M N : Nat} (e f : Int) (hM : 0 < M) (hN : 0 < N) :
    UnpackedFloat.add .binary64 (.finite .negative M e hM) (.finite .positive N f hN) =
      normalize .binary64 (-((M <<< (e - min e f).toNat : Nat) : Int) +
        (N <<< (f - min e f).toNat : Nat)) (min e f) .positive := rfl

theorem neg_add_one_eq {n : Nat} (hp : 0 < n) (h : n + 1 < 2 ^ 53) :
    UnpackedFloat.add .binary64 (unpacked (n + 1)).neg (unpacked 1) = (unpacked n).neg := by
  have hl := log2_le h
  have hmin : min (((n + 1).log2 : Int) - 52) (-52) = -52 := by omega
  have hs : (((n + 1).log2 : Int) - 52 - -52).toNat = (n + 1).log2 := by omega
  have h0 : (-52 - -52 : Int).toNat = 0 := rfl
  have hM : fullMantissa (n + 1) <<< (n + 1).log2 = (n + 1) * 2 ^ 52 := by
    rw [Nat.shiftLeft_eq, fullMantissa, Nat.mul_assoc, ← Nat.pow_add, Nat.sub_add_cancel hl]
  have hsum : -(((n + 1) * 2 ^ 52 : Nat) : Int) + ((2 ^ 52 : Nat) : Int) =
      -((n * 2 ^ 52 : Nat) : Int) := by
    push_cast
    ring
  have hneg : (unpacked (n + 1)).neg = .finite .negative (fullMantissa (n + 1))
      ((n + 1).log2 - 52) (fullMantissa_full n.succ_pos h).pos := by
    rw [unpacked_pos n.succ_pos h]
    rfl
  rw [hneg, unpacked_one, add_finite_neg, hmin, hs, h0, hM, Nat.shiftLeft_zero, hsum,
    normalize_neg (Nat.mul_pos hp (Nat.two_pow_pos 52))]
  exact congrArg UnpackedFloat.neg (round_mul n 52 hp (Nat.lt_of_succ_lt h) (le_refl 52))

theorem unpack_pack_neg {n : Nat} (h : n < 2 ^ 53) :
    (Float.Model.pack (unpacked n).neg).unpack = (unpacked n).neg := by
  rcases Nat.eq_zero_or_pos n with rfl | hp
  · rfl
  · have hl := log2_le h
    rw [unpacked_pos hp h]
    exact unpack_pack_finite .negative (fullMantissa_full hp h) (by omega) (by omega)

theorem neg_ofNat_eq {n : Nat} (h : n < 2 ^ 53) :
    (Float.ofNat n).neg = .ofModel (.pack (unpacked n).neg) := by
  rw [ofNat_eq h]
  change Float.ofModel (.pack (Float.Model.pack (unpacked n)).unpack.neg) = _
  rw [unpack_pack h]

theorem neg_ofNat_add_one {n : Nat} (h : n + 1 < 2 ^ 53) (hp : 0 < n) :
    (Float.ofNat (n + 1)).neg + Float.ofNat 1 = (Float.ofNat n).neg := by
  have h1 : 1 < 2 ^ 53 := by decide
  rw [neg_ofNat_eq h, ofNat_eq h1, neg_ofNat_eq (Nat.lt_of_succ_lt h)]
  change Float.ofModel (.pack (UnpackedFloat.add .binary64
    (Float.Model.pack (unpacked (n + 1)).neg).unpack (Float.Model.pack (unpacked 1)).unpack)) = _
  rw [unpack_pack_neg h, unpack_pack h1, neg_add_one_eq hp h]

theorem ofInt_add_one {k : Int} (h : k.natAbs < 2 ^ 53) :
    Float.ofInt k + Float.ofNat 1 = Float.ofInt (k + 1) := by
  have htop : Float.ofNat (2 ^ 53 - 1) + Float.ofNat 1 = Float.ofNat (2 ^ 53) := by decide +kernel
  have hzero : (Float.ofNat 1).neg + Float.ofNat 1 = Float.ofNat 0 := by decide +kernel
  cases k with
  | ofNat n =>
    change Float.ofNat n + Float.ofNat 1 = Float.ofNat (n + 1)
    rcases Nat.lt_or_ge (n + 1) (2 ^ 53) with hn | hn
    · exact ofNat_add_one hn
    · obtain rfl : n = 2 ^ 53 - 1 := by
        change n < 2 ^ 53 at h
        omega
      exact htop
  | negSucc n =>
    cases n with
    | zero => exact hzero
    | succ n =>
      change (Float.ofNat (n + 1 + 1)).neg + Float.ofNat 1 = (Float.ofNat (n + 1)).neg
      exact neg_ofNat_add_one h n.succ_pos

end ScriptToLua.Decimal
