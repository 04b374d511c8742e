import Mathlib
import ScriptToLua.Proofs.Lua.Brackets
import ScriptToLua.Proofs.Lua.Lexer

/-!
The tokens in the text of code. What holds of all tokens of Lua, and of the names and numerals in code,
holds of all tokens of its text, `allTokens_chunkPieces`. So where all variables, functions, parameters
and methods have names of Lua, the text has no words but names of Lua and keywords,
`wellWorded_chunkPieces`; members and fields with other names are no words.
-/

namespace ScriptToLua.Lua

mutual

/-- The numerals in code. -/
def Code.numerals : Code → List String
  | .nil | .boolean _ | .string _ | .name _ => []
  | .number text => [text]
  | .index table key => table.numerals ++ key.numerals
  | .member table _ => table.numerals
  | .call callee arguments => callee.numerals ++ Code.numeralsAll arguments
  | .invoke receiver _ arguments => receiver.numerals ++ Code.numeralsAll arguments
  | .binary left _ right => left.numerals ++ right.numerals
  | .unary _ operand => operand.numerals
  | .table fields => Field.numeralsAll fields
  | .function _ body => Code.numeralsAll body
  | .paren inner => inner.numerals
  | .locals _ values => Code.numeralsAll values
  | .localFunction _ _ body => Code.numeralsAll body
  | .assign targets values => Code.numeralsAll targets ++ Code.numeralsAll values
  | .perform expression => expression.numerals
  | .returns values => Code.numeralsAll values
  | .block body => Code.numeralsAll body

def Code.numeralsAll : List Code → List String
  | [] => []
  | c :: rest => c.numerals ++ Code.numeralsAll rest

def Field.numeralsAll : List Field → List String
  | [] => []
  | .item value :: rest => value.numerals ++ Field.numeralsAll rest
  | .named _ value :: rest => value.numerals ++ Field.numeralsAll rest
  | .keyed key value :: rest => key.numerals ++ (value.numerals ++ Field.numeralsAll rest)

end

/-- All words are keywords or names of Lua. -/
def WellWorded (pieces : List Piece) : Prop :=
  ∀ x, .token (.word x) ∈ pieces → isKeyword x ∨ isName x

/-- All tokens have `P`. -/
def AllTokens (P : Token → Prop) (pieces : List Piece) : Prop := ∀ t, .token t ∈ pieces → P t

/-- `P` holds of all tokens of Lua, numerals apart. -/
structure Printable (P : Token → Prop) : Prop where
  word : ∀ x, isKeyword x ∨ isName x → P (.word x)
  quoted : ∀ value, P (.quoted value)
  symbol : ∀ x ∈ symbols, P (.symbol x)

section Tokens

variable {P : Token → Prop} {ps qs : List Piece} {x : String} {xs : List String}

@[simp]
theorem allTokens_append : AllTokens P (ps ++ qs) ↔ AllTokens P ps ∧ AllTokens P qs := by
  simp only [AllTokens, List.mem_append, or_imp, forall_and]

theorem allTokens_token {t : Token} : AllTokens P [.token t] ↔ P t := by
  simp [AllTokens]

@[simp]
theorem allTokens_word : AllTokens P (word x) ↔ P (.word x) := allTokens_token

@[simp]
theorem allTokens_symbol : AllTokens P (symbol x) ↔ P (.symbol x) := allTokens_token

@[simp]
theorem allTokens_quoted : AllTokens P (quoted x) ↔ P (.quoted x) := allTokens_token

@[simp]
theorem allTokens_gap : AllTokens P gap := by
  simp [AllTokens, gap]

@[simp]
theorem allTokens_nil : AllTokens P [] := nofun

@[simp]
theorem allTokens_line {level : Nat} : AllTokens P (.line level :: ps) ↔ AllTokens P ps := by
  simp [AllTokens]

variable (hP : Printable P)

include hP

theorem Printable.keyword (h : isKeyword x) : P (.word x) := hP.word x (.inl h)

theorem allTokens_wrapIf {parens : Bool} (h : AllTokens P ps) : AllTokens P (wrapIf parens ps) := by
  cases parens with
  | true => simp (disch := decide) [wrapIf, h, hP.symbol]
  | false => exact h

theorem allTokens_separated {pss : List (List Piece)} (h : ∀ ps ∈ pss, AllTokens P ps) :
    AllTokens P (separated pss) := by
  fun_induction separated pss with
  | case1 => exact allTokens_nil
  | case2 ps => exact h ps List.mem_cons_self
  | case3 ps rest _ ih =>
    obtain ⟨hps, hrest⟩ := List.forall_mem_cons.1 h
    simp (disch := decide) [hps, ih hrest, hP.symbol]

theorem allTokens_words (h : ∀ x ∈ xs, P (.word x)) : AllTokens P (separated (xs.map word)) := by
  apply allTokens_separated hP
  rw [List.forall_mem_map]
  intro x hx
  exact allTokens_word.2 (h x hx)

theorem allTokens_parameterPieces (h : ∀ x ∈ xs, P (.word x)) : AllTokens P (parameterPieces xs) := by
  simp (disch := decide) [parameterPieces, allTokens_words hP h, hP.symbol]

theorem allTokens_memberPieces (x : String) : AllTokens P (memberPieces x) := by
  rw [memberPieces]
  split
  · next h => simp (disch := decide) [hP.word x (.inr h), hP.symbol]
  · simp (disch := decide) [hP.quoted, hP.symbol]

theorem allTokens_fieldPieces (x : String) : AllTokens P (fieldPieces x) := by
  rw [fieldPieces]
  split
  · next h => exact allTokens_word.2 (hP.word x (.inr h))
  · simp (disch := decide) [hP.quoted, hP.symbol]

theorem BinaryOp.allTokens_pieces (op : BinaryOp) : AllTokens P op.pieces := by
  cases op with
  | or | and => exact allTokens_word.2 (hP.keyword rfl)
  | _ => exact allTokens_symbol.2 (hP.symbol _ (by decide))

theorem UnaryOp.allTokens_pieces (op : UnaryOp) : AllTokens P op.pieces := by
  cases op with
  | not => simp (disch := decide) [UnaryOp.pieces, hP.keyword]
  | neg | len => exact allTokens_symbol.2 (hP.symbol _ (by decide))

theorem allTokens_bodyPieces (level : Nat) (isEmpty : Bool) (h : AllTokens P ps) :
    AllTokens P (bodyPieces level isEmpty ps) := by
  cases isEmpty <;> simp (disch := decide) [bodyPieces, h, hP.keyword]

theorem Code.allTokens_guardPieces (c : Code) : AllTokens P c.guardPieces := by
  rcases c.guardPieces_cases with h | h <;> simp (disch := decide) [h, hP.symbol]

omit hP

mutual

/-- The tokens in the text of code are its names, its numerals and tokens of Lua. -/
theorem Code.allTokens_pieces (hP : Printable P) (level : Nat) :
    (c : Code) → (∀ x ∈ c.names false, P (.word x)) → (∀ x ∈ c.numerals, P (.numeral x)) →
      AllTokens P (c.pieces level)
  | .nil, _, _ => allTokens_word.2 (hP.keyword rfl)
  | .boolean false, _, _ | .boolean true, _, _ => allTokens_word.2 (hP.keyword rfl)
  | .number text, _, hd => allTokens_token.2 (hd text List.mem_cons_self)
  | .string value, _, _ => allTokens_quoted.2 (hP.quoted value)
  | .name x, hn, _ => allTokens_word.2 (hn x List.mem_cons_self)
  | .index table key, hn, hd => by
    obtain ⟨hnt, hnk⟩ := List.forall_mem_append.1 hn
    obtain ⟨hdt, hdk⟩ := List.forall_mem_append.1 hd
    have ht := table.allTokens_pieces hP level hnt hdt
    have hk := key.allTokens_pieces hP level hnk hdk
    simp (disch := decide) [Code.pieces, allTokens_wrapIf hP ht, hk, hP.symbol]
  | .member table x, hn, hd => by
    have ht := table.allTokens_pieces hP level (List.forall_mem_append.1 hn).1 hd
    simp [Code.pieces, allTokens_wrapIf hP ht, allTokens_memberPieces hP]
  | .call callee arguments, hn, hd => by
    obtain ⟨hnc, hna⟩ := List.forall_mem_append.1 hn
    obtain ⟨hdc, hda⟩ := List.forall_mem_append.1 hd
    have hc := callee.allTokens_pieces hP level hnc hdc
    have ha := allTokens_separated hP (Code.allTokens_listPieces hP level arguments hna hda)
    simp (disch := decide) [Code.pieces, allTokens_wrapIf hP hc, ha, hP.symbol]
  | .invoke receiver method arguments, hn, hd => by
    obtain ⟨hnr, hncons⟩ := List.forall_mem_append.1 hn
    obtain ⟨hm, hna⟩ := List.forall_mem_cons.1 hncons
    obtain ⟨hdr, hda⟩ := List.forall_mem_append.1 hd
    have hr := receiver.allTokens_pieces hP level hnr hdr
    have ha := allTokens_separated hP (Code.allTokens_listPieces hP level arguments hna hda)
    simp (disch := decide) [Code.pieces, allTokens_wrapIf hP hr, hm, ha, hP.symbol]
  | .binary left op right, hn, hd => by
    obtain ⟨hnl, hnr⟩ := List.forall_mem_append.1 hn
    obtain ⟨hdl, hdr⟩ := List.forall_mem_append.1 hd
    have hl := left.allTokens_pieces hP level hnl hdl
    have hr := right.allTokens_pieces hP level hnr hdr
    simp [Code.pieces, allTokens_wrapIf hP hl, allTokens_wrapIf hP hr, op.allTokens_pieces hP]
  | .unary op operand, hn, hd => by
    have ho := operand.allTokens_pieces hP level hn hd
    simp [Code.pieces, allTokens_wrapIf hP ho, op.allTokens_pieces hP]
  | .table fields, hn, hd => by
    have hf := allTokens_separated hP (Field.allTokens_listPieces hP level fields hn hd)
    simp (disch := decide) [Code.pieces, hf, hP.symbol]
  | .function parameters body, hn, hd => by
    obtain ⟨hp, hb⟩ := List.forall_mem_append.1 hn
    have hb := Code.allTokens_linesPieces hP (level + 1) body hb hd
    simp (disch := decide) [Code.pieces, allTokens_parameterPieces hP hp,
      allTokens_bodyPieces hP _ _ hb, hP.keyword]
  | .paren inner, hn, hd => by
    simp (disch := decide) [Code.pieces, inner.allTokens_pieces hP level hn hd, hP.symbol]
  | .locals xs [], hn, _ => by
    obtain ⟨hx, -⟩ := List.forall_mem_append.1 hn
    simp (disch := decide) [Code.pieces, allTokens_words hP hx, hP.keyword]
  | .locals xs (c :: values), hn, hd => by
    obtain ⟨hx, hv⟩ := List.forall_mem_append.1 hn
    have hv := allTokens_separated hP (Code.allTokens_listPieces hP level (c :: values) hv hd)
    simp (disch := decide) [Code.pieces, allTokens_words hP hx, hv, hP.keyword, hP.symbol]
  | .localFunction x parameters body, hn, hd => by
    obtain ⟨hx, hn⟩ := List.forall_mem_cons.1 hn
    obtain ⟨hp, hb⟩ := List.forall_mem_append.1 hn
    have hb := Code.allTokens_linesPieces hP (level + 1) body hb hd
    simp (disch := decide) [Code.pieces, hx, allTokens_parameterPieces hP hp,
      allTokens_bodyPieces hP _ _ hb, hP.keyword]
  | .assign targets values, hn, hd => by
    obtain ⟨hnt, hnv⟩ := List.forall_mem_append.1 hn
    obtain ⟨hdt, hdv⟩ := List.forall_mem_append.1 hd
    have ht := allTokens_separated hP (Code.allTokens_listPieces hP level targets hnt hdt)
    have hv := allTokens_separated hP (Code.allTokens_listPieces hP level values hnv hdv)
    simp (disch := decide) [Code.pieces, ht, hv, hP.symbol]
  | .perform expression, hn, hd => expression.allTokens_pieces hP level hn hd
  | .returns [], _, _ => allTokens_word.2 (hP.keyword rfl)
  | .returns (c :: values), hn, hd => by
    have hv := allTokens_separated hP (Code.allTokens_listPieces hP level (c :: values) hn hd)
    simp (disch := decide) [Code.pieces, hv, hP.keyword]
  | .block body, hn, hd => by
    have hb := Code.allTokens_linesPieces hP (level + 1) body hn hd
    simp (disch := decide) [Code.pieces, hb, hP.keyword]

theorem Code.allTokens_listPieces (hP : Printable P) (level : Nat) :
    (cs : List Code) → (∀ x ∈ Code.namesAll false cs, P (.word x)) →
      (∀ x ∈ Code.numeralsAll cs, P (.numeral x)) → ∀ ps ∈ Code.listPieces level cs, AllTokens P ps
  | [], _, _ => List.forall_mem_nil _
  | c :: rest, hn, hd => by
    obtain ⟨hnc, hnr⟩ := List.forall_mem_append.1 hn
    obtain ⟨hdc, hdr⟩ := List.forall_mem_append.1 hd
    exact List.forall_mem_cons.2
      ⟨c.allTokens_pieces hP level hnc hdc, Code.allTokens_listPieces hP level rest hnr hdr⟩

theorem Field.allTokens_listPieces (hP : Printable P) (level : Nat) :
    (fs : List Field) → (∀ x ∈ Field.namesAll false fs, P (.word x)) →
      (∀ x ∈ Field.numeralsAll fs, P (.numeral x)) → ∀ ps ∈ Field.listPieces level fs, AllTokens P ps
  | [], _, _ => List.forall_mem_nil _
  | .item value :: rest, hn, hd => by
    obtain ⟨hnv, hnr⟩ := List.forall_mem_append.1 hn
    obtain ⟨hdv, hdr⟩ := List.forall_mem_append.1 hd
    exact List.forall_mem_cons.2
      ⟨value.allTokens_pieces hP level hnv hdv, Field.allTokens_listPieces hP level rest hnr hdr⟩
  | .named x value :: rest, hn, hd => by
    obtain ⟨hnv, hnr⟩ := List.forall_mem_append.1 (List.forall_mem_append.1 hn).2
    obtain ⟨hdv, hdr⟩ := List.forall_mem_append.1 hd
    apply List.forall_mem_cons.2 ⟨?_, Field.allTokens_listPieces hP level rest hnr hdr⟩
    have hv := value.allTokens_pieces hP level hnv hdv
    simp (disch := decide) [Field.pieces, allTokens_fieldPieces hP, hv, hP.symbol]
  | .keyed key value :: rest, hn, hd => by
    obtain ⟨hnk, hn⟩ := List.forall_mem_append.1 hn
    obtain ⟨hnv, hnr⟩ := List.forall_mem_append.1 hn
    obtain ⟨hdk, hd⟩ := List.forall_mem_append.1 hd
    obtain ⟨hdv, hdr⟩ := List.forall_mem_append.1 hd
    apply List.forall_mem_cons.2 ⟨?_, Field.allTokens_listPieces hP level rest hnr hdr⟩
    have hk := key.allTokens_pieces hP level hnk hdk
    have hv := value.allTokens_pieces hP level hnv hdv
    simp (disch := decide) [Field.pieces, hk, hv, hP.symbol]

theorem Code.allTokens_linesPieces (hP : Printable P) (level : Nat) :
    (cs : List Code) → (∀ x ∈ Code.namesAll false cs, P (.word x)) →
      (∀ x ∈ Code.numeralsAll cs, P (.numeral x)) → AllTokens P (Code.linesPieces level cs)
  | [], _, _ => allTokens_nil
  | c :: rest, hn, hd => by
    obtain ⟨hnc, hnr⟩ := List.forall_mem_append.1 hn
    obtain ⟨hdc, hdr⟩ := List.forall_mem_append.1 hd
    have hc := c.allTokens_pieces hP level hnc hdc
    have hrest := Code.allTokens_linesPieces hP level rest hnr hdr
    simp [Code.linesPieces, c.allTokens_guardPieces hP, hc, hrest]

end

/-- The tokens in the text of a chunk are its names, its numerals and tokens of Lua. -/
theorem allTokens_chunkPieces (hP : Printable P) {chunk : List Code}
    (hn : ∀ x ∈ Code.namesAll false chunk, P (.word x))
    (hd : ∀ x ∈ Code.numeralsAll chunk, P (.numeral x)) : AllTokens P (chunkPieces chunk) := by
  induction chunk with
  | nil => exact allTokens_nil
  | cons c rest ih =>
    obtain ⟨hnc, hnr⟩ := List.forall_mem_append.1 hn
    obtain ⟨hdc, hdr⟩ := List.forall_mem_append.1 hd
    have hc := c.allTokens_pieces hP 0 hnc hdc
    simp [chunkPieces, c.allTokens_guardPieces hP, hc, ih hnr hdr]

theorem wellWorded_chunkPieces {chunk : List Code} (h : ∀ x ∈ Code.namesAll false chunk, isName x) :
    WellWorded (chunkPieces chunk) := by
  have hprintable : Printable fun t => ∀ x, t = .word x → isKeyword x ∨ isName x :=
    { word := by
        rintro x hx y ⟨⟩
        exact hx
      quoted := nofun
      symbol := nofun }
  have hname (x : String) (hx : x ∈ Code.namesAll false chunk) (y : String)
      (hy : Token.word x = .word y) : isKeyword y ∨ isName y := by
    cases hy
    exact .inr (h x hx)
  have hall := allTokens_chunkPieces hprintable hname nofun
  intro x hx
  exact hall _ hx x rfl

end Tokens

end ScriptToLua.Lua
