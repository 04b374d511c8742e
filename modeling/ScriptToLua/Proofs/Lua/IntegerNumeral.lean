import Mathlib
import ScriptToLua.Proofs.Lowering.IntegerLiteral

/-!
Which numerals are read as 64-bit integers: decimal digits, and hexadecimal digits after their marker,
of numbers below `2 ^ 63`. A sign is read as well where it stands between the marker and the digits;
only numerals of this kind are read although they write no natural number, `integer?_number`.
-/

namespace ScriptToLua

namespace Numeral

open Source (digitValue)

/-- The digits of a base, at least one of them, and the number that they denote. -/
structure Denotes (base : Nat) (cs : List Char) (n : Nat) : Prop where
  ne_nil : cs ≠ []
  isDigit : ∀ c ∈ cs, digitValue c < base
  value : Nat.ofDigits base (cs.map digitValue).reverse = n

/-- The digits of a base after a sign, and the 64-bit integer that they denote. -/
inductive DenotesSigned (base : Nat) : List Char → Int → Prop where
  | plus {cs : List Char} {n : Nat} (h : Denotes base cs n) (hn : n < 2 ^ 63) :
    DenotesSigned base ('+' :: cs) n
  | minus {cs : List Char} {n : Nat} (h : Denotes base cs n) (hn : n ≤ 2 ^ 63) :
    DenotesSigned base ('-' :: cs) (-n)

section Digits

variable {base n d acc : Nat} {c : Char} {cs : List Char}

theorem toNat_lt_of_digit? (h : digit? 16 c = some d) : c.toNat < 128 := by
  by_contra hc
  have hlarge (u : UInt32) (hu : u.toNat < 128) : ¬c.val ≤ u := by
    rw [UInt32.le_iff_toNat_le]
    change ¬c.toNat ≤ u.toNat
    omega
  have hdigit : c.isDigit = false := by simp [Char.isDigit, hlarge 57 (by decide)]
  have hlower : c.isLower = false := by simp [Char.isLower, hlarge 122 (by decide)]
  have hupper : c.isUpper = false := by simp [Char.isUpper, hlarge 90 (by decide)]
  simp [digit?, hdigit, hlower, hupper] at h

/-- Whatever is read as a digit is one. -/
theorem digitValue_of_digit? (h : digit? 16 c = some d) : digitValue c = d := by
  have hall : ∀ n < 128, (digit? 16 (Char.ofNat n)).isSome → digitValue (Char.ofNat n) < 16 := by
    decide +kernel
  have hlt : digitValue c < 16 := by
    have hc := hall c.toNat (toNat_lt_of_digit? h)
    rw [Char.ofNat_toNat, h] at hc
    exact hc rfl
  rw [Source.digit?_eq (le_refl 16) hlt] at h
  exact Option.some.inj h

theorem digitValue_lt_of_digit? (hb : base ≤ 16) (h : digit? base c = some d) :
    digitValue c < base := by
  have hd := digit?_lt h
  rwa [digitValue_of_digit? (Source.digit?_narrow h (hd.trans_le hb))]

theorem isDigit_of_naturalFrom? (hb : base ≤ 16) (h : naturalFrom? base acc cs = some n) :
    ∀ c ∈ cs, digitValue c < base := by
  induction cs generalizing acc with
  | nil => nofun
  | cons c cs ih =>
    obtain ⟨d, hd, hrest⟩ := Option.bind_eq_some_iff.1 h
    exact List.forall_mem_cons.2 ⟨digitValue_lt_of_digit? hb hd, ih hrest⟩

/-- The reader of digits accepts digits only, and reads the number that they denote. -/
theorem natural?_eq_some_iff (hb : base ≤ 16) :
    natural? base cs = some n ↔ Denotes base cs n := by
  constructor
  · intro h
    have hne : cs ≠ [] := by
      rintro rfl
      cases h
    have hdigits : ∀ c ∈ cs, digitValue c < base := by
      unfold natural? at h
      split at h
      · cases h
      · exact isDigit_of_naturalFrom? hb h
    rw [Source.natural?_eq hb hne hdigits] at h
    exact ⟨hne, hdigits, Option.some.inj h⟩
  · rintro ⟨hne, hdigits, rfl⟩
    exact Source.natural?_eq hb hne hdigits

theorem bounded?_eq_some_iff (hb : base ≤ 16) {bound : Nat} :
    bounded? base bound cs = some n ↔ Denotes base cs n ∧ n < bound := by
  rw [bounded?, Option.filter_eq_some_iff, natural?_eq_some_iff hb, decide_eq_true_eq]

/-- Signs are no digits. -/
theorem DenotesSigned.not_denotes (hb : base ≤ 16) {k : Int} (h : DenotesSigned base cs k) (n : Nat) :
    ¬Denotes base cs n := by
  have hsign : digitValue '-' = 16 ∧ digitValue '+' = 16 := by decide
  intro hd
  cases h with
  | plus =>
    have hlt := hd.isDigit '+' List.mem_cons_self
    omega
  | minus =>
    have hlt := hd.isDigit '-' List.mem_cons_self
    omega

theorem int64?_minus (base : Nat) (cs : List Char) :
    int64? base ('-' :: cs) = (bounded? base (2 ^ 63 + 1) cs).map fun n : Nat => -(n : Int) := by
  rw [int64?, Nat.pow_eq]
  cases bounded? base (2 ^ 63 + 1) cs <;> rfl

theorem int64?_plus (base : Nat) (cs : List Char) :
    int64? base ('+' :: cs) = (bounded? base (2 ^ 63) cs).map Int.ofNat := rfl

/-- A 64-bit integer is read from digits, with or without a sign before them. -/
theorem int64?_eq_some_iff (hb : base ≤ 16) {k : Int} :
    int64? base cs = some k ↔
      (∃ n : Nat, Denotes base cs n ∧ n < 2 ^ 63 ∧ k = n) ∨ DenotesSigned base cs k := by
  constructor
  · intro h
    unfold int64? at h
    split at h
    · next ds =>
      obtain ⟨n, hn, rfl⟩ := Option.map_eq_some_iff.1 ((int64?_minus base ds).symm.trans h)
      obtain ⟨hd, hlt⟩ := (bounded?_eq_some_iff hb).1 hn
      exact .inr (.minus hd (Nat.le_of_lt_succ hlt))
    · obtain ⟨n, hn, rfl⟩ := Option.map_eq_some_iff.1 h
      obtain ⟨hd, hlt⟩ := (bounded?_eq_some_iff hb).1 hn
      exact .inr (.plus hd hlt)
    · obtain ⟨n, hn, rfl⟩ := Option.map_eq_some_iff.1 h
      obtain ⟨hd, hlt⟩ := (bounded?_eq_some_iff hb).1 hn
      exact .inl ⟨n, hd, hlt, rfl⟩
  · rintro (⟨n, hd, hn, rfl⟩ | h)
    · exact Lua.int64?_of_natural? ((natural?_eq_some_iff hb).2 hd) hn
    · cases h with
      | plus hd hn =>
        rw [int64?_plus, (bounded?_eq_some_iff hb).2 ⟨hd, hn⟩]
        rfl
      | minus hd hn =>
        rw [int64?_minus, (bounded?_eq_some_iff hb).2 ⟨hd, Nat.lt_succ_of_le hn⟩]
        rfl

end Digits

end Numeral

namespace Lua

open Numeral Source

/-- Integer numerals without a sign and the numbers that they write: decimal digits, or hexadecimal
digits after a marker. -/
inductive IsNatural : String → Nat → Prop where
  | decimal {ds : List Char} {n : Nat} (h : Denotes 10 ds n) : IsNatural (String.ofList ds) n
  | hexadecimal {mark ds : List Char} {n : Nat} (hm : mark ∈ Radix.hexadecimal.marks)
    (h : Denotes 16 ds n) : IsNatural (String.ofList (mark ++ ds)) n

/-- Numerals with a sign between the hexadecimal marker and the digits, and the 64-bit integers that they
are read as. -/
inductive IsSigned : String → Int → Prop where
  | hexadecimal {mark ds : List Char} {k : Int} (hm : mark ∈ Radix.hexadecimal.marks)
    (h : DenotesSigned 16 ds k) : IsSigned (String.ofList (mark ++ ds)) k

variable {text : String} {n : Nat} {k : Int}

/-- The text before the digits of a hexadecimal numeral is a marker. -/
theorem hexDigits?_eq_some_iff {cs ds : List Char} :
    hexDigits? cs = some ds ↔ ∃ mark ∈ Radix.hexadecimal.marks, cs = mark ++ ds := by
  constructor
  · intro h
    unfold hexDigits? at h
    split at h
    · obtain rfl := Option.some.inj h
      exact ⟨['0', 'x'], by decide, rfl⟩
    · obtain rfl := Option.some.inj h
      exact ⟨['0', 'X'], by decide, rfl⟩
    · cases h
  · rintro ⟨mark, hm, rfl⟩
    rcases List.mem_pair.1 hm with rfl | rfl <;> rfl

theorem isDecimalOf_iff {cs : List Char} : IsDecimalOf n cs ↔ Denotes 10 cs n := by
  constructor
  · intro h
    exact (natural?_eq_some_iff (by decide)).1 h.value
  · intro h
    exact ⟨fun c hc => isDigit_of_digitValue (h.isDigit c hc), h.ne_nil,
      (natural?_eq_some_iff (by decide)).2 h⟩

theorem denotes_of_isDecimal {cs : List Char} (h : isDecimal cs) :
    Denotes 10 cs (Nat.ofDigitChars 10 cs 0) := by
  rw [isDecimal, Bool.and_eq_true, List.all_eq_true] at h
  exact isDecimalOf_iff.1 (isDecimalOf_digits h.2 (by simpa using h.1))

theorem naturalOf?_eq_some_iff : naturalOf? text = some n ↔ IsNatural text n := by
  constructor
  · intro h
    unfold naturalOf? at h
    rw [← String.ofList_toList (s := text)]
    split at h
    · next ds hds =>
      obtain ⟨mark, hm, htext⟩ := hexDigits?_eq_some_iff.1 hds
      rw [htext]
      exact .hexadecimal hm ((natural?_eq_some_iff (le_refl 16)).1 h)
    · split at h
      · exact .decimal ((natural?_eq_some_iff (by decide)).1 h)
      · cases h
  · intro h
    cases h with
    | decimal h => exact naturalOf?_decimal (isDecimalOf_iff.2 h)
    | hexadecimal hm h =>
      exact (naturalOf?_hexadecimal rfl hm _).trans ((natural?_eq_some_iff (le_refl 16)).2 h)

theorem integerOf?_hexadecimal {mark : List Char} (hm : mark ∈ Radix.hexadecimal.marks) (ds : List Char) :
    integerOf? (String.ofList (mark ++ ds)) = int64? 16 ds := by
  have hhex : hexDigits? (mark ++ ds) = some ds := hexDigits?_eq_some_iff.2 ⟨mark, hm, rfl⟩
  simp only [integerOf?, String.toList_ofList, hhex]

/-- What is read as a 64-bit integer. -/
theorem integerOf?_eq_some_iff :
    integerOf? text = some k ↔ (∃ n : Nat, IsNatural text n ∧ n < 2 ^ 63 ∧ k = n) ∨ IsSigned text k := by
  constructor
  · intro h
    cases hhex : hexDigits? text.toList with
    | some ds =>
      obtain ⟨mark, hm, htext⟩ := hexDigits?_eq_some_iff.1 hhex
      obtain rfl : text = String.ofList (mark ++ ds) := by rw [← htext, String.ofList_toList]
      rw [integerOf?_hexadecimal hm] at h
      rcases (int64?_eq_some_iff (le_refl 16)).1 h with ⟨n, hd, hn, rfl⟩ | hs
      · exact .inl ⟨n, .hexadecimal hm hd, hn, rfl⟩
      · exact .inr (.hexadecimal hm hs)
    | none =>
      simp only [integerOf?, hhex] at h
      split at h
      · next hdec =>
        rcases (int64?_eq_some_iff (by decide)).1 h with ⟨n, hd, hn, rfl⟩ | hs
        · have hnatural : IsNatural (String.ofList text.toList) n := .decimal hd
          rw [String.ofList_toList] at hnatural
          exact .inl ⟨n, hnatural, hn, rfl⟩
        · exact absurd (denotes_of_isDecimal hdec) (hs.not_denotes (by decide) _)
      · cases h
  · rintro (⟨n, hn, hlt, rfl⟩ | hs)
    · exact integerOf?_of_naturalOf? (naturalOf?_eq_some_iff.2 hn) hlt
    · cases hs with
      | hexadecimal hm h =>
        rw [integerOf?_hexadecimal hm]
        exact (int64?_eq_some_iff (le_refl 16)).2 (.inr h)

/-- A numeral with a sign writes no natural number. -/
theorem IsSigned.not_isNatural (h : IsSigned text k) (n : Nat) : ¬IsNatural text n := by
  cases h with
  | hexadecimal hm h =>
    intro hn
    have hread := naturalOf?_eq_some_iff.2 hn
    rw [naturalOf?_hexadecimal rfl hm] at hread
    exact h.not_denotes (le_refl 16) n ((natural?_eq_some_iff (le_refl 16)).1 hread)

theorem isNatural_toString (n : Nat) : IsNatural (toString n) n :=
  naturalOf?_eq_some_iff.1 (naturalOf?_toString n)

theorem IsNatural.integerOf?_eq (h : IsNatural text n) :
    integerOf? text = if n < 2 ^ 63 then some (n : Int) else none := by
  split
  · next hn => exact integerOf?_of_naturalOf? (naturalOf?_eq_some_iff.2 h) hn
  · next hn =>
    rw [Option.eq_none_iff_forall_ne_some]
    intro k hk
    rcases integerOf?_eq_some_iff.1 hk with ⟨m, hm, hlt, -⟩ | hs
    · have hnm : some n = some m :=
        (naturalOf?_eq_some_iff.2 h).symm.trans (naturalOf?_eq_some_iff.2 hm)
      obtain rfl := Option.some.inj hnm
      exact hn hlt
    · exact hs.not_isNatural n h

/-- A numeral is taken as the integer that it writes if this is below `2 ^ 63`, and numerals with a sign
are taken as integers too. So what is taken as an integer are just the natural numbers that fit, unless
there is a sign. -/
theorem integer?_number (text : String) :
    (∀ k, (Code.number text).integer? = some k ↔
      (∃ n : Nat, IsNatural text n ∧ n < 2 ^ 63 ∧ k = n) ∨ IsSigned text k) ∧
    ((∀ k, (Code.number text).integer? = some k ↔
      ∃ n : Nat, IsNatural text n ∧ n < 2 ^ 63 ∧ k = n) ↔ ∀ k, ¬IsSigned text k) := by
  have hread (k : Int) : (Code.number text).integer? = some k ↔
      (∃ n : Nat, IsNatural text n ∧ n < 2 ^ 63 ∧ k = n) ∨ IsSigned text k := integerOf?_eq_some_iff
  refine ⟨hread, ?_, ?_⟩
  · intro h k hs
    obtain ⟨n, hn, -, -⟩ := (h k).1 ((hread k).2 (.inr hs))
    exact hs.not_isNatural n hn
  · intro hno k
    rw [hread, or_iff_left (hno k)]

/-- A numeral that is taken as a negative integer, and writes no natural number. -/
theorem not_integer?_number : (Code.number "0x-1").integer? = some (-1) ∧ ∀ n, ¬IsNatural "0x-1" n := by
  have hone : Denotes 16 ['1'] 1 := (natural?_eq_some_iff (le_refl 16)).1 rfl
  have hmark : ['0', 'x'] ∈ Radix.hexadecimal.marks := by decide
  have hsigned : IsSigned (String.ofList (['0', 'x'] ++ ['-', '1'])) (-1) :=
    .hexadecimal hmark (.minus hone Nat.one_le_two_pow)
  exact ⟨rfl, hsigned.not_isNatural⟩

end Lua

end ScriptToLua
