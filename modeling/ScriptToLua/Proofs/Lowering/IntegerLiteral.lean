import Mathlib
import ScriptToLua.Proofs.Numeral

/-!
Integer literals of the source and the Lua numerals that they become. A literal is marked for its
base and has separators between its digits. Its Lua numeral denotes the same number, however large it
is, unless the literal is binary or octal and its number does not fit into 64 bits:
`naturalOf?_luaNumeral`.
-/

namespace ScriptToLua

namespace Source

/-- The bases of integer literals. -/
inductive Radix where
  | decimal | binary | octal | hexadecimal
  deriving DecidableEq

namespace Radix

def base : Radix → Nat
  | decimal => 10
  | binary => 2
  | octal => 8
  | hexadecimal => 16

/-- What a literal may begin with before its digits. -/
def marks : Radix → List (List Char)
  | decimal => [[]]
  | binary => [['0', 'b'], ['0', 'B']]
  | octal => [['0', 'o'], ['0', 'O']]
  | hexadecimal => [['0', 'x'], ['0', 'X']]

theorem base_le (r : Radix) : r.base ≤ 16 := by cases r <;> decide

end Radix

def isDigitOf (c : Char) (d : Nat) : Bool := c = Nat.digitChar d || c = (Nat.digitChar d).toUpper

/-- The value of a digit, in either case; 16 for what is no digit. -/
def digitValue (c : Char) : Nat := (List.range 16).findIdx (isDigitOf c)

/-- An integer literal: a mark for its base and groups of digits with separators between them. Only
the zero among the decimal literals begins with a zero. -/
structure IntegerLiteral where
  radix : Radix
  mark : List Char
  groups : List (List Char)
  mark_mem : mark ∈ radix.marks
  groups_ne_nil : groups ≠ []
  group_ne_nil : ∀ g ∈ groups, g ≠ []
  isDigit : ∀ g ∈ groups, ∀ c ∈ g, digitValue c < radix.base
  no_leading_zero : radix = .decimal → groups.flatten.head? = some '0' → groups = [['0']]

namespace IntegerLiteral

def text (l : IntegerLiteral) : String := String.ofList (l.mark ++ ['_'].intercalate l.groups)

def digits (l : IntegerLiteral) : List Char := l.groups.flatten

/-- The number that a literal denotes. -/
def value (l : IntegerLiteral) : Nat := Nat.ofDigits l.radix.base (l.digits.map digitValue).reverse

theorem digits_ne_nil (l : IntegerLiteral) : l.digits ≠ [] := by
  obtain ⟨g, hg⟩ := List.exists_mem_of_ne_nil _ l.groups_ne_nil
  intro h
  exact l.group_ne_nil g hg (List.flatten_eq_nil_iff.1 h g hg)

theorem digitValue_lt (l : IntegerLiteral) {c : Char} (h : c ∈ l.digits) :
    digitValue c < l.radix.base := by
  obtain ⟨g, hg, hc⟩ := List.mem_flatten.1 h
  exact l.isDigit g hg c hc

end IntegerLiteral

end Source

namespace Lua

/-- The natural number that a numeral writes, of any size: decimal digits, or hexadecimal digits after
their marker. -/
def naturalOf? (text : String) : Option Nat :=
  match Numeral.hexDigits? text.toList with
  | some digits => Numeral.natural? 16 digits
  | none => if Numeral.isDecimal text.toList then Numeral.natural? 10 text.toList else none

end Lua

namespace Source

open Numeral

theorem eq_digitChar {c : Char} (h : digitValue c < 16) :
    c = Nat.digitChar (digitValue c) ∨ c = (Nat.digitChar (digitValue c)).toUpper := by
  have hlt : digitValue c < (List.range 16).length := h.trans_eq List.length_range.symm
  have hfound : isDigitOf c (List.range 16)[digitValue c] := List.findIdx_getElem
  simpa [isDigitOf] using hfound

theorem digit?_narrow {wide base d : Nat} {c : Char} (h : digit? wide c = some d) (hd : d < base) :
    digit? base c = some d := by
  unfold digit? at h ⊢
  split_ifs at h ⊢
  all_goals simp_all

/-- The reader of numerals agrees on the values of digits. -/
theorem digit?_eq {base : Nat} {c : Char} (hb : base ≤ 16) (h : digitValue c < base) :
    digit? base c = some (digitValue c) := by
  have hall : ∀ d < 16, digit? 16 (Nat.digitChar d) = some d ∧
      digit? 16 (Nat.digitChar d).toUpper = some d := by decide
  have h16 := h.trans_le hb
  have hdigit : digit? 16 c = some (digitValue c) := by
    rcases eq_digitChar h16 with hc | hc
    · exact (congrArg (digit? 16) hc).trans (hall _ h16).1
    · exact (congrArg (digit? 16) hc).trans (hall _ h16).2
  exact digit?_narrow hdigit h

theorem naturalFrom?_eq {base : Nat} {cs : List Char} (hb : base ≤ 16)
    (h : ∀ c ∈ cs, digitValue c < base) (acc : Nat) :
    naturalFrom? base acc cs =
      some ((cs.map digitValue).foldl (fun n d => d + base * n) acc) := by
  induction cs generalizing acc with
  | nil => rfl
  | cons c cs ih =>
    have hc := digit?_eq hb (h c List.mem_cons_self)
    have hrest := ih (fun d hd => h d (List.mem_cons_of_mem c hd)) (base * acc + digitValue c)
    rw [naturalFrom?, hc, Option.bind_some, hrest, Nat.add_comm]
    rfl

theorem natural?_eq {base : Nat} {cs : List Char} (hb : base ≤ 16) (hne : cs ≠ [])
    (h : ∀ c ∈ cs, digitValue c < base) :
    natural? base cs = some (Nat.ofDigits base (cs.map digitValue).reverse) := by
  have hfold := naturalFrom?_eq hb h 0
  have hvalue : (cs.map digitValue).foldl (fun n d => d + base * n) 0 =
      Nat.ofDigits base (cs.map digitValue).reverse := by
    rw [Nat.ofDigits_eq_foldr, List.foldr_reverse]
    rfl
  rw [hvalue] at hfold
  unfold natural?
  split
  · exact absurd rfl hne
  · exact hfold

theorem isDigit_of_digitValue {c : Char} (h : digitValue c < 10) : c.isDigit := by
  have hall : ∀ d < 10, (Nat.digitChar d).isDigit ∧ (Nat.digitChar d).toUpper.isDigit := by decide
  rcases eq_digitChar (h.trans (by decide)) with hd | hd
  · exact (congrArg Char.isDigit hd).trans (hall _ h).1
  · exact (congrArg Char.isDigit hd).trans (hall _ h).2

namespace IntegerLiteral

variable (l : IntegerLiteral)

theorem natural?_digits : natural? l.radix.base l.digits = some l.value :=
  natural?_eq l.radix.base_le l.digits_ne_nil fun _ hc => l.digitValue_lt hc

theorem ne_of_digitValue {x c : Char} (hx : digitValue x = 16) (hc : c ∈ l.digits) : c ≠ x := by
  rintro rfl
  have hlt := (l.digitValue_lt hc).trans_le l.radix.base_le
  omega

theorem filter_intercalate {gs : List (List Char)} (h : ∀ g ∈ gs, ∀ c ∈ g, c ≠ '_') :
    (['_'].intercalate gs).filter (· ≠ '_') = gs.flatten := by
  have hself {g : List Char} (hg : g ∈ gs) : g.filter (· ≠ '_') = g := by
    rw [List.filter_eq_self]
    intro c hc
    exact decide_eq_true (h g hg c hc)
  induction gs with
  | nil => rfl
  | cons g gs ih =>
    have hg : g.filter (· ≠ '_') = g := hself List.mem_cons_self
    have hgs := ih (fun x hx => h x (List.mem_cons_of_mem g hx)) fun hx =>
      hself (List.mem_cons_of_mem g hx)
    cases gs with
    | nil => simpa using hg
    | cons x gs =>
      rw [List.intercalate_cons_cons, List.filter_append, List.filter_append, hg, hgs]
      simp

/-- The separators go. -/
theorem filter_text : l.text.toList.filter (· ≠ '_') = l.mark ++ l.digits := by
  have hmark : l.mark.filter (· ≠ '_') = l.mark := by
    have hall : ∀ r : Radix, ∀ m ∈ r.marks, m.filter (· ≠ '_') = m := by
      intro r
      cases r <;> decide
    exact hall l.radix l.mark l.mark_mem
  have hne : ∀ g ∈ l.groups, ∀ c ∈ g, c ≠ '_' := fun g hg c hc =>
    l.ne_of_digitValue (by decide) (List.mem_flatten_of_mem hg hc)
  rw [text, String.toList_ofList, List.filter_append, hmark, filter_intercalate hne]
  rfl

theorem nat64?_digits : nat64? l.radix.base l.digits =
    if l.value < 2 ^ 64 then some l.value else none := by
  have hbounded : bounded? l.radix.base (2 ^ 64) l.digits =
      if l.value < 2 ^ 64 then some l.value else none := by
    rw [bounded?, l.natural?_digits, Option.filter_some]
    simp only [decide_eq_true_eq]
  unfold nat64?
  split
  · next h =>
    exact absurd rfl (l.ne_of_digitValue (x := '+') (by decide) (h ▸ List.mem_cons_self))
  · exact hbounded

/-- The digits of a decimal literal are those of its number. -/
theorem isDecimalOf_value (h : l.radix = .decimal) : IsDecimalOf l.value l.digits := by
  have hbase : l.radix.base = 10 := by rw [h, Radix.base]
  refine ⟨fun c hc => ?_, l.digits_ne_nil, hbase ▸ l.natural?_digits⟩
  exact isDigit_of_digitValue (hbase ▸ l.digitValue_lt hc)

end IntegerLiteral

end Source

namespace Lowering

open Source Numeral

/-- The bases that Lua has no marker for. -/
def IsRewritten (r : Radix) : Prop := r = .binary ∨ r = .octal

theorem smallBase?_mark {r : Radix} (h : IsRewritten r) {m : List Char} (hm : m ∈ r.marks)
    (ds : List Char) : smallBase? (m ++ ds) = some (r.base, ds) := by
  rcases h with rfl | rfl
  · rcases List.mem_pair.1 hm with rfl | rfl <;> rfl
  · rcases List.mem_pair.1 hm with rfl | rfl <;> rfl

theorem smallBase?_hexadecimal {r : Radix} (h : r = .hexadecimal) {m : List Char}
    (hm : m ∈ r.marks) (ds : List Char) : smallBase? (m ++ ds) = none := by
  subst h
  rcases List.mem_pair.1 hm with rfl | rfl <;> rfl

variable {l : IntegerLiteral}

theorem luaNumeral_kept (h : smallBase? (l.mark ++ l.digits) = none) :
    luaNumeral l.text = String.ofList (l.mark ++ l.digits) := by
  simp only [luaNumeral, l.filter_text, h, Option.bind_none]

theorem luaNumeral_decimal (h : l.radix = .decimal) :
    luaNumeral l.text = String.ofList l.digits := by
  have hmark : l.mark = [] := by
    have hm := l.mark_mem
    rw [h] at hm
    exact List.mem_singleton.1 hm
  have hkept := luaNumeral_kept (l := l)
  rw [hmark, List.nil_append] at hkept
  exact hkept (l.isDecimalOf_value h).smallBase?_eq

theorem luaNumeral_hexadecimal (h : l.radix = .hexadecimal) :
    luaNumeral l.text = String.ofList (l.mark ++ l.digits) :=
  luaNumeral_kept (smallBase?_hexadecimal h l.mark_mem l.digits)

/-- Binary and octal literals become decimal if their number fits into 64 bits. -/
theorem luaNumeral_small (h : IsRewritten l.radix) :
    luaNumeral l.text =
      if l.value < 2 ^ 64 then toString l.value else String.ofList (l.mark ++ l.digits) := by
  simp only [luaNumeral, l.filter_text, smallBase?_mark h l.mark_mem, Option.bind_some,
    l.nat64?_digits]
  split_ifs
  · rfl
  · rfl

end Lowering

namespace Lua

open Source Numeral Lowering

theorem naturalOf?_decimal {n : Nat} {cs : List Char} (h : IsDecimalOf n cs) :
    naturalOf? (String.ofList cs) = some n := by
  simp only [naturalOf?, String.toList_ofList, h.hexDigits?_eq, h.isDecimal_eq, if_true, h.value]

theorem naturalOf?_toString (n : Nat) : naturalOf? (toString n) = some n := by
  have h := naturalOf?_decimal (isDecimalOf_toString n)
  rwa [String.ofList_toList] at h

theorem naturalOf?_hexadecimal {r : Radix} (h : r = .hexadecimal) {m : List Char}
    (hm : m ∈ r.marks) (ds : List Char) :
    naturalOf? (String.ofList (m ++ ds)) = natural? r.base ds := by
  subst h
  rw [naturalOf?, String.toList_ofList]
  rcases List.mem_pair.1 hm with rfl | rfl <;> rfl

/-- The markers of binary and octal literals are none of Lua. -/
theorem naturalOf?_small {r : Radix} (h : IsRewritten r) {m : List Char} (hm : m ∈ r.marks)
    (ds : List Char) : naturalOf? (String.ofList (m ++ ds)) = none := by
  rw [naturalOf?, String.toList_ofList]
  rcases h with rfl | rfl
  · rcases List.mem_pair.1 hm with rfl | rfl <;> rfl
  · rcases List.mem_pair.1 hm with rfl | rfl <;> rfl

/-- Digits carry no sign. -/
theorem int64?_of_natural? {base n : Nat} {cs : List Char} (h : natural? base cs = some n)
    (hn : n < 2 ^ 63) : int64? base cs = some (n : Int) := by
  have hsign {c : Char} (hc : c = '-' ∨ c = '+') : digit? base c = none := by
    rcases hc with rfl | rfl <;> simp [digit?]
  unfold int64?
  split
  · next ds => simp [natural?, naturalFrom?, hsign (.inl rfl)] at h
  · next ds => simp [natural?, naturalFrom?, hsign (.inr rfl)] at h
  · rw [bounded?, Nat.pow_eq, h, Option.filter_some, if_pos (decide_eq_true hn)]
    rfl

/-- The interpreter reads numerals of natural numbers below 2^63 as these numbers. -/
theorem integerOf?_of_naturalOf? {text : String} {n : Nat} (h : naturalOf? text = some n)
    (hn : n < 2 ^ 63) : integerOf? text = some (n : Int) := by
  unfold naturalOf? at h
  unfold integerOf?
  cases hhex : hexDigits? text.toList with
  | some ds =>
    simp only [hhex] at h ⊢
    exact int64?_of_natural? h hn
  | none =>
    simp only [hhex] at h ⊢
    split_ifs at h ⊢
    exact int64?_of_natural? h hn

theorem naturalOf?_luaNumeral_small {l : IntegerLiteral} (h : IsRewritten l.radix) :
    naturalOf? (luaNumeral l.text) = if l.value < 2 ^ 64 then some l.value else none := by
  rw [luaNumeral_small h]
  split_ifs
  · exact naturalOf?_toString l.value
  · exact naturalOf?_small h l.mark_mem l.digits

/-- The Lua numeral of an integer literal denotes its number, unless the literal is binary or octal and
its number does not fit into 64 bits. -/
theorem naturalOf?_luaNumeral (l : IntegerLiteral) :
    naturalOf? (luaNumeral l.text) = some l.value ↔
      l.radix = .decimal ∨ l.radix = .hexadecimal ∨ l.value < 2 ^ 64 := by
  cases h : l.radix with
  | decimal =>
    refine iff_of_true ?_ (.inl rfl)
    rw [luaNumeral_decimal h]
    exact naturalOf?_decimal (l.isDecimalOf_value h)
  | hexadecimal =>
    refine iff_of_true ?_ (.inr (.inl rfl))
    rw [luaNumeral_hexadecimal h, naturalOf?_hexadecimal h l.mark_mem]
    exact l.natural?_digits
  | binary =>
    rw [naturalOf?_luaNumeral_small (.inl h)]
    simp
  | octal =>
    rw [naturalOf?_luaNumeral_small (.inr h)]
    simp

/-- The octal literal for 2^64. -/
def wideLiteral : IntegerLiteral where
  radix := .octal
  mark := ['0', 'o']
  groups := ['2' :: List.replicate 21 '0']
  mark_mem := by decide
  groups_ne_nil := by decide
  group_ne_nil := by decide
  isDigit := by
    intro g hg c hc
    obtain rfl := List.mem_singleton.1 hg
    rcases List.mem_cons.1 hc with rfl | hc
    · decide
    · obtain ⟨_, rfl⟩ := List.mem_replicate.1 hc
      decide
  no_leading_zero := by decide

/-- It is kept as it stands, which is no numeral of Lua. -/
theorem not_naturalOf?_luaNumeral :
    wideLiteral.value = 2 ^ 64 ∧ luaNumeral wideLiteral.text = wideLiteral.text ∧
      naturalOf? (luaNumeral wideLiteral.text) = none := by
  have hvalue : wideLiteral.value = 2 ^ 64 := by decide +kernel
  have hwide : ¬wideLiteral.value < 2 ^ 64 := hvalue.symm.le.not_gt
  refine ⟨hvalue, ?_, ?_⟩
  · exact (luaNumeral_small (.inr rfl)).trans (if_neg hwide)
  · exact (naturalOf?_luaNumeral_small (.inr rfl)).trans (if_neg hwide)

end Lua

end ScriptToLua
