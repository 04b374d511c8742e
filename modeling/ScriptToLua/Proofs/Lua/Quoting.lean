import Mathlib
import ScriptToLua.Lua.Printer

/-!
What printed string literals denote. `readLiteral` reads a literal in double quotes by the rules of
Lua, in which a decimal escape takes all the digits it can get, up to three. A literal always ends at
its last quote, and it denotes the string it was printed for unless a digit follows U+0000:
`readLiteral_print`.
-/

namespace ScriptToLua.Lua

/-- Where the reader of a literal is. -/
inductive LiteralState where
  | plain
  /-- After a backslash. -/
  | escape
  /-- In a decimal escape, after `count` of its digits. -/
  | decimal (value count : Nat)

def digitValue (c : Char) : Nat := c.toNat - '0'.toNat

/-- What an escape of one character stands for. -/
def escapedByte? (c : Char) : Option UInt8 :=
  if c = '\\' then some 92
  else if c = '"' then some 34
  else if c = 'n' then some 10
  else if c = 'r' then some 13
  else if c = 't' then some 9
  else none

/-- Puts bytes before those of the rest of a literal. -/
def prepend (bytes : List UInt8) (rest : Option (List UInt8 × List Char)) :
    Option (List UInt8 × List Char) :=
  rest.map fun r => (bytes ++ r.1, r.2)

/-- Reads a character that is part of no escape; `next` reads the characters after it. -/
def readPlain (c : Char) (cs : List Char) (next : LiteralState → Option (List UInt8 × List Char)) :
    Option (List UInt8 × List Char) :=
  if c = '"' then some ([], cs)
  else if c = '\\' then next .escape
  else if c = '\n' ∨ c = '\r' then none
  else prepend (String.utf8EncodeChar c) (next .plain)

/-- Reads a literal from within. The bytes that it denotes, and the text after its last quote. -/
def readFrom : LiteralState → List Char → Option (List UInt8 × List Char)
  | _, [] => none
  | .plain, c :: cs => readPlain c cs fun state => readFrom state cs
  | .escape, c :: cs =>
    if c.isDigit then readFrom (.decimal (digitValue c) 1) cs
    else match escapedByte? c with
      | some b => prepend [b] (readFrom .plain cs)
      | none => none
  | .decimal value count, c :: cs =>
    if c.isDigit ∧ count < 3 then readFrom (.decimal (10 * value + digitValue c) (count + 1)) cs
    else if value < 256 then
      prepend [UInt8.ofNat value] (readPlain c cs fun state => readFrom state cs)
    else none

/-- Reads a literal in double quotes. -/
def readLiteral : List Char → Option (List UInt8 × List Char)
  | '"' :: cs => readFrom .plain cs
  | _ => none

/-- Reads a literal in brackets. -/
def readBracketed : List Char → Option (List UInt8 × List Char)
  | '[' :: cs =>
    match readLiteral cs with
    | some (bytes, ']' :: rest) => some (bytes, rest)
    | _ => none
  | _ => none

/-- The bytes of a text. -/
def utf8 (cs : List Char) : List UInt8 := cs.flatMap String.utf8EncodeChar

theorem utf8_inj {cs ds : List Char} : utf8 cs = utf8 ds ↔ cs = ds := by
  refine ⟨fun h => ?_, congrArg utf8⟩
  have hs : (String.ofList cs).toByteArray = (String.ofList ds).toByteArray := by
    rw [String.toByteArray_ofList, String.toByteArray_ofList]
    exact congrArg List.toByteArray h
  exact String.ofList_injective (String.toByteArray_inj.1 hs)

/-- The character with the given decimal digits. -/
def ofDigits (ds : List Char) : Char := Char.ofNat (ds.foldl (fun n d => 10 * n + digitValue d) 0)

/-- What the literal for a text denotes: up to two digits after U+0000 become part of its escape. -/
def fuse : List Char → List Char
  | c :: d :: e :: cs =>
    if c = '\x00' ∧ d.isDigit then
      if e.isDigit then ofDigits [d, e] :: fuse cs else ofDigits [d] :: fuse (e :: cs)
    else c :: fuse (d :: e :: cs)
  | [c, d] => if c = '\x00' ∧ d.isDigit then [ofDigits [d]] else [c, d]
  | cs => cs

/-- No digit follows U+0000. -/
def IsSeparate (cs : List Char) : Prop := cs.IsChain fun c d => c = '\x00' → d.isDigit = false

theorem not_isSeparate {c d : Char} {cs : List Char} (h : c = '\x00' ∧ d.isDigit) :
    ¬ IsSeparate (c :: d :: cs) := by
  intro hs
  have hd := (List.isChain_cons_cons.1 hs).1 h.1
  rw [h.2] at hd
  cases hd

theorem isSeparate_cons {c d : Char} {cs : List Char} (h : ¬ (c = '\x00' ∧ d.isDigit)) :
    IsSeparate (c :: d :: cs) ↔ IsSeparate (d :: cs) := by
  refine List.isChain_cons_cons.trans (and_iff_right fun hc => ?_)
  simpa [hc] using h

theorem fuse_length_le (cs : List Char) : (fuse cs).length ≤ cs.length := by
  fun_induction fuse cs with
  | case1 c d e cs _ _ ih | case2 c d e cs _ _ ih | case3 c d e cs _ ih =>
    simp only [List.length_cons] at ih ⊢
    omega
  | case4 c d _ => exact Nat.le_succ 1
  | case5 c d _ => exact Nat.le_refl 2
  | case6 cs _ _ => exact Nat.le_refl _

/-- A text is what its literal denotes if no digit follows U+0000, and only then: every digit that an
escape takes in makes what is denoted shorter. -/
theorem fuse_eq_self_iff (cs : List Char) : fuse cs = cs ↔ IsSeparate cs := by
  fun_induction fuse cs with
  | case1 c d e cs h _ _ =>
    refine iff_of_false (fun heq => ?_) (not_isSeparate h)
    have hle := fuse_length_le cs
    have hlen := congrArg List.length heq
    simp only [List.length_cons] at hlen
    omega
  | case2 c d e cs h _ _ =>
    refine iff_of_false (fun heq => ?_) (not_isSeparate h)
    have hle := fuse_length_le (e :: cs)
    have hlen := congrArg List.length heq
    simp only [List.length_cons] at hlen hle
    omega
  | case3 c d e cs h ih => rw [isSeparate_cons h, ← ih, List.cons_inj_right]
  | case4 c d h =>
    refine iff_of_false (fun heq => ?_) (not_isSeparate h)
    cases congrArg List.length heq
  | case5 c d h =>
    rw [isSeparate_cons h]
    exact iff_of_true rfl (List.isChain_singleton d)
  | case6 cs h h' =>
    refine iff_of_true rfl ?_
    rcases cs with _ | ⟨c, _ | ⟨d, _ | ⟨e, cs⟩⟩⟩
    · exact List.isChain_nil
    · exact List.isChain_singleton c
    · exact absurd rfl (h' c d)
    · exact absurd rfl (h c d e cs)

section Reading

variable {rest : List Char} {c d e : Char} {cs : List Char}

/-- The text of a literal after its first quote, with what follows it. -/
def literalTail (cs rest : List Char) : List Char := cs.flatMap escape ++ '"' :: rest

theorem literalTail_cons : literalTail (c :: cs) rest = escape c ++ literalTail cs rest := by
  rw [literalTail, List.flatMap_cons, List.append_assoc]
  rfl

/-- An escaped character begins with a backslash or is itself. -/
theorem escape_cases (c : Char) : (∃ cs, escape c = '\\' :: cs) ∨ escape c = [c] := by
  unfold escape
  split_ifs
  all_goals first | exact .inl ⟨_, rfl⟩ | exact .inr rfl

theorem escape_digit (h : d.isDigit) : escape d = [d] := by
  have hne {x : Char} (hx : x.isDigit = false) : d ≠ x := by
    rintro rfl
    rw [hx] at h
    cases h
  simp only [escape, if_neg (hne (by decide : '\\'.isDigit = false)),
    if_neg (hne (by decide : '"'.isDigit = false)), if_neg (hne (by decide : '\n'.isDigit = false)),
    if_neg (hne (by decide : '\r'.isDigit = false)), if_neg (hne (by decide : '\t'.isDigit = false)),
    if_neg (hne (by decide : '\x00'.isDigit = false))]

theorem readFrom_plain_cons (h : c ≠ '\x00') :
    readFrom .plain (literalTail (c :: cs) rest) =
      prepend (String.utf8EncodeChar c) (readFrom .plain (literalTail cs rest)) := by
  rw [literalTail_cons]
  unfold escape
  split_ifs with h1 h2 h3 h4 h5
  · subst h1
    rfl
  · subst h2
    rfl
  · subst h3
    rfl
  · subst h4
    rfl
  · subst h5
    rfl
  · exact (if_neg h2).trans <| (if_neg h1).trans <| if_neg (not_or.2 ⟨h3, h4⟩)

theorem readFrom_plain_nul :
    readFrom .plain (literalTail ('\x00' :: cs) rest) =
      readFrom (.decimal 0 1) (literalTail cs rest) := rfl

theorem readFrom_decimal_digit {value count : Nat} (h : d.isDigit) (hc : count < 3) :
    readFrom (.decimal value count) (literalTail (d :: cs) rest) =
      readFrom (.decimal (10 * value + digitValue d) (count + 1)) (literalTail cs rest) := by
  rw [literalTail_cons, escape_digit h]
  exact if_pos ⟨h, hc⟩

/-- A decimal escape ends before a character that is no digit, and after three digits. -/
theorem readFrom_decimal_stop {value count : Nat} (hv : value < 256)
    (h : count = 3 ∨ ∀ d ∈ cs.head?, d.isDigit = false) :
    readFrom (.decimal value count) (literalTail cs rest) =
      prepend [UInt8.ofNat value] (readFrom .plain (literalTail cs rest)) := by
  obtain ⟨x, xs, hx, hdigit⟩ : ∃ x xs, literalTail cs rest = x :: xs ∧
      (x.isDigit → ∃ d ∈ cs.head?, d.isDigit) := by
    cases cs with
    | nil => exact ⟨'"', rest, rfl, nofun⟩
    | cons d cs =>
      rw [literalTail_cons]
      rcases escape_cases d with ⟨ds, hd⟩ | hd
      · rw [hd]
        exact ⟨_, _, rfl, nofun⟩
      · rw [hd]
        exact ⟨d, _, rfl, fun h => ⟨d, rfl, h⟩⟩
  rw [hx]
  have hstop : ¬ (x.isDigit ∧ count < 3) := by
    rintro ⟨hxd, hlt⟩
    obtain ⟨d, hd, hdd⟩ := hdigit hxd
    rcases h with h | h
    · omega
    · rw [h d hd] at hdd
      cases hdd
  exact (if_neg hstop).trans (if_pos hv)

/-- A character that takes in no digits denotes itself. -/
theorem readFrom_plain_alone (h : c = '\x00' → ∀ d ∈ cs.head?, d.isDigit = false) :
    readFrom .plain (literalTail (c :: cs) rest) =
      prepend (String.utf8EncodeChar c) (readFrom .plain (literalTail cs rest)) := by
  by_cases hc : c = '\x00'
  · rw [hc, readFrom_plain_nul, readFrom_decimal_stop (by decide) (.inr (h hc))]
    rfl
  · exact readFrom_plain_cons hc

theorem digitValue_le (h : d.isDigit) : digitValue d ≤ 9 := by
  simp only [Char.isDigit, Bool.and_eq_true, decide_eq_true_eq] at h
  have hle : d.toNat ≤ '9'.toNat := h.2
  unfold digitValue
  exact Nat.sub_le_sub_right hle _

/-- Two digits make the code of an ASCII character, which is one byte. -/
theorem prepend_byte {n : Nat} (h : n < 100) (cs rest : List Char) :
    prepend [UInt8.ofNat n] (some (utf8 cs, rest)) = some (utf8 (Char.ofNat n :: cs), rest) := by
  have hbyte : ∀ n < 100, String.utf8EncodeChar (Char.ofNat n) = [UInt8.ofNat n] := by decide
  have hcons : utf8 (Char.ofNat n :: cs) = [UInt8.ofNat n] ++ utf8 cs := by
    rw [← hbyte n h]
    rfl
  rw [hcons]
  rfl

/-- The literal for a text ends at its last quote and denotes the fused text. -/
theorem readFrom_literalTail (cs rest : List Char) :
    readFrom .plain (literalTail cs rest) = some (utf8 (fuse cs), rest) := by
  fun_induction fuse cs with
  | case1 c d e cs h he ih =>
    have hd := digitValue_le h.2
    have hde := digitValue_le he
    rw [h.1, readFrom_plain_nul, readFrom_decimal_digit h.2 (by decide),
      readFrom_decimal_digit he (by decide), readFrom_decimal_stop (by omega) (.inl rfl), ih]
    exact prepend_byte (by omega) _ _
  | case2 c d e cs h he ih =>
    have hd := digitValue_le h.2
    have hstop : ∀ x ∈ (e :: cs).head?, x.isDigit = false := by
      rintro _ ⟨⟩
      exact Bool.not_eq_true _ ▸ he
    rw [h.1, readFrom_plain_nul, readFrom_decimal_digit h.2 (by decide),
      readFrom_decimal_stop (by omega) (.inr hstop), ih]
    exact prepend_byte (by omega) _ _
  | case3 c d e cs h ih =>
    rw [readFrom_plain_alone, ih]
    · rfl
    · rintro hc _ ⟨⟩
      simpa [hc] using h
  | case4 c d h =>
    have hd := digitValue_le h.2
    have hstop : ∀ x ∈ ([] : List Char).head?, x.isDigit = false := fun _ hx => by cases hx
    rw [h.1, readFrom_plain_nul, readFrom_decimal_digit h.2 (by decide),
      readFrom_decimal_stop (by omega) (.inr hstop)]
    exact prepend_byte (by omega) [] _
  | case5 c d h =>
    have hlast : d = '\x00' → ∀ x ∈ ([] : List Char).head?, x.isDigit = false :=
      fun _ _ hx => by cases hx
    rw [readFrom_plain_alone, readFrom_plain_alone hlast]
    · rfl
    · rintro hc _ ⟨⟩
      simpa [hc] using h
  | case6 cs h h' =>
    rcases cs with _ | ⟨c, _ | ⟨d, _ | ⟨e, cs⟩⟩⟩
    · rfl
    · rw [readFrom_plain_alone (fun _ _ hx => by cases hx)]
      rfl
    · exact absurd rfl (h' c d)
    · exact absurd rfl (h c d e cs)

end Reading

theorem readLiteral_quote (s : String) (rest : List Char) :
    readLiteral ((quote s).toList ++ rest) = some (utf8 (fuse s.toList), rest) := by
  have htail : (quote s).toList ++ rest = '"' :: literalTail s.toList rest := by
    rw [quote, String.toList_ofList, List.cons_append, List.cons_append, List.append_assoc]
    rfl
  rw [htail]
  exact readFrom_literalTail s.toList rest

theorem readBracketed_quote (s : String) (rest : List Char) :
    readBracketed ('[' :: ((quote s).toList ++ ']' :: rest)) =
      some (utf8 (fuse s.toList), rest) := by
  simp only [readBracketed, readLiteral_quote]

theorem render_quoted (l : Layout) (s : String) : l.render (quoted s) = quote s :=
  String.empty_append

theorem render_bracketed (l : Layout) (s : String) :
    (l.render (symbol "[" ++ quoted s ++ symbol "]")).toList =
      '[' :: ((quote s).toList ++ [']']) := by
  simp only [Layout.render, symbol, quoted, List.cons_append, List.nil_append, List.foldl_cons,
    List.foldl_nil, Layout.text, Token.text, String.toList_append]
  rfl

/-- The reader ends before `rest`, and it reads exactly the string if no digit in it follows U+0000
and only then. -/
structure ReadsUpTo (o : Option (List UInt8 × List Char)) (s : String) (rest : List Char) : Prop where
  ends : ∃ bytes, o = some (bytes, rest)
  denotes : o = some (utf8 s.toList, rest) ↔ IsSeparate s.toList

theorem readsUpTo_of_fused {o : Option (List UInt8 × List Char)} {s : String} {rest : List Char}
    (h : o = some (utf8 (fuse s.toList), rest)) : ReadsUpTo o s rest := by
  refine ⟨⟨_, h⟩, ?_⟩
  rw [h, Option.some_inj, Prod.mk.injEq, utf8_inj, fuse_eq_self_iff]
  exact and_iff_left rfl

/-- A printed string is read up to its last quote, whatever follows it, and so are member names and
keys of table fields where they are printed in brackets. -/
theorem readLiteral_print (s : String) (rest : List Char) :
    ReadsUpTo (readLiteral ((Code.string s).print.toList ++ rest)) s rest ∧
    ∀ (l : Layout) (pieces : List Piece), isName s = false →
      pieces = memberPieces s ∨ pieces = fieldPieces s →
      ReadsUpTo (readBracketed ((l.render pieces).toList ++ rest)) s rest := by
  constructor
  · have hprint : (Code.string s).print = quote s := by
      rw [Code.print, Code.pieces, render_quoted]
    rw [hprint]
    exact readsUpTo_of_fused (readLiteral_quote s rest)
  · intro l pieces hs hp
    have hpieces : pieces = symbol "[" ++ quoted s ++ symbol "]" := by
      rcases hp with rfl | rfl
      · exact if_neg (ne_true_of_eq_false hs)
      · exact if_neg (ne_true_of_eq_false hs)
    rw [hpieces, render_bracketed, List.cons_append, List.append_assoc]
    exact readsUpTo_of_fused (readBracketed_quote s rest)

/-- A member that is named like a keyword. -/
theorem readLiteral_print_keyword :
    isName "end" = false ∧
      readBracketed ((Layout.render {} (memberPieces "end")).toList ++ ['.', 'x']) =
        some ([101, 110, 100], ['.', 'x']) := by
  have hname : isName "end" = false := by decide
  have h := (readLiteral_print "end" ['.', 'x']).2 {} _ hname (.inl rfl)
  exact ⟨hname, h.denotes.2 (by unfold IsSeparate; decide)⟩

/-- U+0000 and the digit 1 are printed as one escape, which denotes the byte 1. -/
theorem not_readLiteral_print :
    readLiteral (Code.string "\x001").print.toList = some ([1], []) ∧
      readLiteral (Code.string "\x001").print.toList ≠ some (utf8 "\x001".toList, []) := by
  decide

end ScriptToLua.Lua
