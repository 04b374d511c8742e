import Mathlib
import ScriptToLua.Proofs.Lua.Grammar
import ScriptToLua.Proofs.Lua.Reading.Statement

/-!
Expressions are read as they were printed: a lemma for each construct about the words that it is
printed as.
-/

namespace ScriptToLua.Lua

namespace BinaryOp

theorem rightPrecedence_le (op : BinaryOp) : op.rightPrecedence ≤ op.precedence := by
  unfold rightPrecedence
  split <;> omega

@[simp] theorem opensSuffix_token (op : BinaryOp) : op.token.opensSuffix = false := by
  cases op <;> decide

@[simp] theorem readTokens_pieces (op : BinaryOp) : readTokens op.pieces = [op.token] := by
  cases op <;> rfl

end BinaryOp

@[simp] theorem UnaryOp.readTokens_pieces (op : UnaryOp) : readTokens op.pieces = [op.token] := by
  cases op <;> rfl

@[simp] theorem readTokens_wrapIf (parens : Bool) (pieces : List Piece) :
    readTokens (wrapIf parens pieces) =
      if parens then .symbol "(" :: readTokens pieces ++ [.symbol ")"] else readTokens pieces := by
  cases parens with
  | false => rfl
  | true => simp [wrapIf]

theorem NoOperator.mono {limit limit' : Nat} {ts : List Token} (h : NoOperator limit ts)
    (hl : limit ≤ limit') : NoOperator limit' ts :=
  fun t ht op hop => Nat.le_trans (h t ht op hop) hl

/-- The words after an expression do not go on with it; `isOpen` says whether it could be called. -/
def Stops (isOpen : Bool) (ts : List Token) : Prop :=
  ∀ t ∈ ts.head?, binaryOp? t = none ∧ (isOpen → t.opensSuffix = false)

theorem Stops.of_true {ts : List Token} (h : Stops true ts) (isOpen : Bool) : Stops isOpen ts :=
  fun t ht => ⟨(h t ht).1, fun _ => (h t ht).2 rfl⟩

theorem Stops.symbol {s : String} (hs : s ∈ [")", "]", "\x7d", ",", "="]) (isOpen : Bool)
    (ts : List Token) : Stops isOpen (.symbol s :: ts) := by
  rintro _ ⟨⟩
  have hall : ∀ s ∈ [")", "]", "\x7d", ",", "="],
      binaryOp? (.symbol s) = none ∧ (Token.symbol s).opensSuffix = false := by decide
  exact ⟨(hall s hs).1, fun _ => (hall s hs).2⟩

namespace Code

/-- The operators that bind more strongly become part of the end of the expression. -/
def edge : Code → Nat
  | binary _ op _ => op.rightPrecedence
  | unary .. => UnaryOp.precedence
  | _ => 255

/-- The expression can be read where operators have to bind more strongly than `limit`. -/
def Fits (limit : Nat) : Code → Prop
  | binary _ op _ => limit < op.precedence
  | _ => True

/-- The words after an expression do not go on with it. -/
def Closes (e : Code) (ts : List Token) : Prop :=
  NoOperator e.edge ts ∧ (e.endsOpen → NoSuffix ts)

variable {e left right operand : Code} {ts : List Token}

theorem closes_of_stops (h : Stops e.endsOpen ts) : e.Closes ts := by
  refine ⟨?_, fun he t ht => (h t ht).2 he⟩
  intro t ht op hop
  rw [(h t ht).1] at hop
  cases hop

theorem endsOpen_of_isCallable (h : e.isCallable) : e.endsOpen := by
  cases e <;> first | rfl | cases h

theorem fits_right {op : BinaryOp} (h : op.wrapsRight right = false) :
    right.Fits op.rightPrecedence := by
  cases right with
  | binary l op' r =>
    obtain ⟨hle, hassoc⟩ := BinaryOp.wrapsRight_eq_false_iff.1 h
    change op.precedence ≤ op'.precedence at hle
    change op'.precedence = op.precedence → _ at hassoc
    change op.rightPrecedence < op'.precedence
    have hpos := op.precedence_pos
    unfold BinaryOp.rightPrecedence
    split
    · omega
    · next hop => exact Nat.lt_of_le_of_ne hle fun heq => hop (hassoc heq.symm)
  | _ => trivial

theorem edge_right {op : BinaryOp} (h : op.wrapsRight right = false) :
    op.rightPrecedence ≤ right.edge := by
  have hle := op.precedence_le
  have hright := op.rightPrecedence_le
  cases right with
  | binary l op' r =>
    obtain ⟨hprec, hassoc⟩ := BinaryOp.wrapsRight_eq_false_iff.1 h
    change op.precedence ≤ op'.precedence at hprec
    change op'.precedence = op.precedence → _ at hassoc
    change op.rightPrecedence ≤ op'.rightPrecedence
    unfold BinaryOp.rightPrecedence
    split
    · split <;> omega
    · next hop =>
      have hne : op'.precedence ≠ op.precedence := fun heq => hop (hassoc heq)
      split <;> omega
  | unary op' e =>
    have hprec : op.precedence ≤ UnaryOp.precedence := (BinaryOp.wrapsRight_eq_false_iff.1 h).1
    exact Nat.le_trans hright hprec
  | _ =>
    change op.rightPrecedence ≤ 255
    omega

theorem fits_left {op : BinaryOp} (h : op.wrapsLeft left = false) {limit : Nat}
    (hl : limit < op.precedence) : left.Fits limit := by
  cases left with
  | binary l op' r =>
    have hprec : op.precedence ≤ op'.precedence := (BinaryOp.wrapsLeft_eq_false_iff.1 h).1
    exact Nat.lt_of_lt_of_le hl hprec
  | _ => trivial

theorem edge_left {op : BinaryOp} (h : op.wrapsLeft left = false) : op.precedence ≤ left.edge := by
  have hle := op.precedence_le
  cases left with
  | binary l op' r =>
    obtain ⟨hprec, hassoc⟩ := BinaryOp.wrapsLeft_eq_false_iff.1 h
    change op.precedence ≤ op'.precedence at hprec
    change op'.precedence = op.precedence → _ at hassoc
    change op.precedence ≤ op'.rightPrecedence
    unfold BinaryOp.rightPrecedence
    split
    · next hop' =>
      have hne : op'.precedence ≠ op.precedence := by
        intro heq
        have hop : op.isRightAssociative := by
          rw [op.isRightAssociative_iff, ← heq, ← op'.isRightAssociative_iff]
          exact hop'
        rw [hassoc heq] at hop
        cases hop
      omega
    · exact hprec
  | unary op' e =>
    have hprec : op.precedence ≤ UnaryOp.precedence := (BinaryOp.wrapsLeft_eq_false_iff.1 h).1
    exact hprec
  | _ =>
    change op.precedence ≤ 255
    omega

theorem fits_operand {op : UnaryOp} (h : op.wraps operand = false) :
    operand.Fits UnaryOp.precedence ∧ UnaryOp.precedence ≤ operand.edge := by
  have hprec : UnaryOp.precedence ≤ operand.precedence := by
    simp only [UnaryOp.wraps, Bool.or_eq_false_iff, decide_eq_false_iff_not, Nat.not_lt] at h
    exact h.1
  cases operand with
  | binary l op' r =>
    change UnaryOp.precedence ≤ op'.precedence at hprec
    change UnaryOp.precedence < op'.precedence ∧ UnaryOp.precedence ≤ op'.rightPrecedence
    have hne := op'.precedence_ne_unary
    unfold BinaryOp.rightPrecedence
    split <;> omega
  | unary op' e => exact ⟨trivial, Nat.le_refl _⟩
  | _ => exact ⟨trivial, (by decide : UnaryOp.precedence ≤ 255)⟩

end Code

/-- A reader reads the words as `b` before all words that may follow. It needs `k` levels besides
those for the words. -/
def Parses {β : Type} (k : Nat) (reader : Nat → List Token → Option (β × List Token))
    (follows : List Token → Prop) (ts : List Token) (b : β) : Prop :=
  ∀ rest, follows rest → Reads (16 * ts.length + k) (reader · (ts ++ rest)) (b, rest)

/-- The words are read as the expression that calls and accesses after them apply to. -/
def ParsesPrefixed (ts : List Token) (e : Code) : Prop :=
  ∀ rest n r, Reads n (readSuffixes · e rest) r →
    Reads (16 * ts.length + n) (readPrefixed · (ts ++ rest)) r

/-- An expression is read as it was printed. -/
structure Rereads (e : Code) : Prop where
  expr : ∀ level limit rest n r, e.Fits limit → e.Closes rest →
    Reads n (readOperators · limit e.printed rest) r →
      Reads (16 * (readTokens (e.pieces level)).length + n + 4)
        (readExpr · limit (readTokens (e.pieces level) ++ rest)) r
  prefixed : e.isCallable → ∀ level, ParsesPrefixed (readTokens (e.pieces level)) e.printed

/-- A field is read as it was printed. -/
def Field.Rereads (f : Field) : Prop :=
  ∀ level, Parses 6 readField (fun rest => Stops true rest ∧ ∀ t ∈ rest.head?, t ≠ .symbol "=")
    (readTokens (f.pieces level)) f.printed

section Prefixed

variable {e t key inner : Code} {x : String} {es : List Code} {ts ks as : List Token}

theorem ParsesPrefixed.expr (h : ParsesPrefixed ts e) {limit n : Nat} {rest : List Token}
    {r : Code × List Token} (hs : NoSuffix rest) (h' : Reads n (readOperators · limit e rest) r) :
    Reads (16 * ts.length + n + 4) (readExpr · limit (ts ++ rest)) r := by
  have hprefixed := h rest 1 (e, rest) (readSuffixes_stop hs e)
  have hexpr := readExpr_rule (readOperand_prefixed hprefixed) h'
  exact hexpr.mono (by omega)

theorem ParsesPrefixed.name (hx : isName x) : ParsesPrefixed [.word x] (.name x) := by
  intro rest n r h
  have hname := readPrefixed_name hx h
  exact hname.mono (by rw [List.length_singleton]; omega)

theorem ParsesPrefixed.paren {isOpen : Bool}
    (h : Parses 5 (readExpr · 0) (Stops isOpen) ts inner) :
    ParsesPrefixed (.symbol "(" :: ts ++ [.symbol ")"]) (.paren inner) := by
  intro rest n r h'
  have hinner := h (.symbol ")" :: rest) (Stops.symbol (by decide) isOpen rest)
  have hparen := readPrefixed_paren hinner h'
  exact hparen.words (by simp) (by simp; omega)

theorem ParsesPrefixed.member (h : ParsesPrefixed ts t) (hx : isName x) :
    ParsesPrefixed (ts ++ [.symbol ".", .word x]) (.member t x) := by
  intro rest n r h'
  have hmember := h _ _ r (readSuffixes_member hx h')
  exact hmember.words (by simp) (by simp; omega)

theorem ParsesPrefixed.index {isOpen : Bool} (h : ParsesPrefixed ts t)
    (hk : Parses 5 (readExpr · 0) (Stops isOpen) ks key) :
    ParsesPrefixed (ts ++ .symbol "[" :: ks ++ [.symbol "]"]) (.index t key) := by
  intro rest n r h'
  have hkey := hk (.symbol "]" :: rest) (Stops.symbol (by decide) isOpen rest)
  have hindex := h _ _ r (readSuffixes_index hkey h')
  exact hindex.words (by simp) (by simp; omega)

/-- Arguments up to the last parenthesis, after the first one. -/
def ParsesArguments (as : List Token) (es : List Code) : Prop :=
  Parses 0 (fun room ts => readArguments room (.symbol "(" :: ts)) (fun _ => True) as es

theorem ParsesPrefixed.call (h : ParsesPrefixed ts e) (ha : ParsesArguments as es) :
    ParsesPrefixed (ts ++ .symbol "(" :: as) (.call e es) := by
  intro rest n r h'
  have hcall := h _ _ r (readSuffixes_call (ha rest trivial) h')
  exact hcall.words (by simp) (by simp; omega)

theorem ParsesPrefixed.invoke (h : ParsesPrefixed ts e) (hx : isName x)
    (ha : ParsesArguments as es) :
    ParsesPrefixed (ts ++ .symbol ":" :: .word x :: .symbol "(" :: as) (.invoke e x es) := by
  intro rest n r h'
  have hinvoke := h _ _ r (readSuffixes_invoke hx (ha rest trivial) h')
  exact hinvoke.words (by simp) (by simp; omega)

end Prefixed

namespace Rereads

variable {e left right operand table key callee receiver inner : Code} {x : String}
  {arguments : List Code} {fields : List Field}

theorem of_prefixed (hc : e.isCallable)
    (h : ∀ level, ParsesPrefixed (readTokens (e.pieces level)) e.printed) : Rereads e where
  expr level _ _ _ _ _ hcloses h' := (h level).expr (hcloses.2 (Code.endsOpen_of_isCallable hc)) h'
  prefixed _ := h

/-- An expression that is neither an operator's nor callable. -/
theorem of_operand (hc : e.isCallable = false)
    (h : ∀ level rest, e.Closes rest → Reads (16 * (readTokens (e.pieces level)).length + 3)
      (readOperand · (readTokens (e.pieces level) ++ rest)) (e.printed, rest)) : Rereads e where
  expr level _ rest _ _ _ hcloses h' := by
    have hexpr := readExpr_rule (h level rest hcloses) h'
    exact hexpr.mono (by omega)
  prefixed he := by
    rw [hc] at he
    cases he

theorem whole (h : Rereads e) (level : Nat) :
    Parses 5 (readExpr · 0) (Stops e.endsOpen) (readTokens (e.pieces level)) e.printed := by
  intro rest hstops
  have hfits : e.Fits 0 := by
    cases e with
    | binary l op r => exact op.precedence_pos
    | _ => trivial
  have hno : NoOperator 0 rest := by
    intro t ht op hop
    rw [(hstops t ht).1] at hop
    cases hop
  exact h.expr level 0 rest 1 _ hfits (Code.closes_of_stops hstops) (readOperators_stop hno _)

/-- An expression that is put in parentheses unless it can be called as it stands. -/
theorem callable (h : Rereads e) (level : Nat) :
    ParsesPrefixed (readTokens (wrapIf (!e.isCallable) (e.pieces level)))
      (.parenIf (!e.isCallable) e.printed) := by
  cases hc : e.isCallable with
  | true => exact h.prefixed hc level
  | false =>
    rw [readTokens_wrapIf]
    exact ParsesPrefixed.paren (h.whole level)

/-- The operand of an operator. -/
theorem wrapped (h : Rereads e) {parens : Bool} (level : Nat) {limit n : Nat} {rest : List Token}
    {r : Code × List Token} (hbare : parens = false → e.Fits limit ∧ e.Closes rest)
    (hparens : parens = true → NoSuffix rest)
    (h' : Reads n (readOperators · limit (.parenIf parens e.printed) rest) r) :
    Reads (16 * (readTokens (wrapIf parens (e.pieces level))).length + n + 4)
      (readExpr · limit (readTokens (wrapIf parens (e.pieces level)) ++ rest)) r := by
  cases parens with
  | false =>
    obtain ⟨hfits, hcloses⟩ := hbare rfl
    exact h.expr level limit rest n r hfits hcloses h'
  | true =>
    rw [readTokens_wrapIf]
    exact (ParsesPrefixed.paren (h.whole level)).expr (hparens rfl) h'

theorem nil : Rereads .nil := by
  apply of_operand rfl
  intro level rest _
  exact readOperand_nil.mono (by simp [Code.pieces, word])

theorem boolean (b : Bool) : Rereads (.boolean b) := by
  apply of_operand rfl
  intro level rest _
  exact (readOperand_boolean b).mono (by simp [Code.pieces, word])

theorem number (text : String) : Rereads (.number text) := by
  apply of_operand rfl
  intro level rest _
  exact (readOperand_number text).mono (by simp [Code.pieces])

theorem string (value : String) : Rereads (.string value) := by
  apply of_operand rfl
  intro level rest _
  exact (readOperand_string (literalText value)).mono (by simp [Code.pieces, quoted])

theorem name (hx : isName x) : Rereads (.name x) :=
  of_prefixed rfl fun _ => ParsesPrefixed.name hx

theorem paren (h : Rereads inner) : Rereads (.paren inner) := by
  apply of_prefixed rfl
  intro level
  simpa [Code.pieces, Code.printed] using ParsesPrefixed.paren (h.whole level)

theorem index (ht : Rereads table) (hk : Rereads key) : Rereads (.index table key) := by
  apply of_prefixed rfl
  intro level
  have hindex := (ht.callable level).index (hk.whole level)
  rw [Code.printed]
  simpa [Code.pieces] using hindex

theorem member (ht : Rereads table) (x : String) : Rereads (.member table x) := by
  apply of_prefixed rfl
  intro level
  by_cases hx : isName x
  · have hmember := (ht.callable level).member hx
    rw [Code.printed, if_pos hx]
    simpa [Code.pieces, memberPieces, hx] using hmember
  · have hindex := (ht.callable level).index ((string x).whole level)
    rw [Code.printed, if_neg hx]
    simpa [Code.pieces, memberPieces, hx, Code.printed] using hindex

theorem noSuffix_token (op : BinaryOp) (ts : List Token) : NoSuffix (op.token :: ts) := by
  rintro _ ⟨⟩
  exact op.opensSuffix_token

theorem closes_token {op : BinaryOp} (h : op.precedence ≤ e.edge) {ts : List Token} :
    e.Closes (op.token :: ts) := by
  refine ⟨?_, fun _ => noSuffix_token op ts⟩
  rintro _ ⟨⟩ op' hop
  rw [binaryOp?_token] at hop
  obtain rfl := Option.some.inj hop
  exact h

theorem binary (hl : Rereads left) (hr : Rereads right) (op : BinaryOp) :
    Rereads (.binary left op right) where
  expr level limit rest n r hfits hcloses h' := by
    have hlimit : limit < op.precedence := hfits
    have hclosed : NoOperator op.rightPrecedence rest := hcloses.1
    have hopen : op.wrapsRight right || right.endsOpen → NoSuffix rest := hcloses.2
    have hright := hr.wrapped level
      (fun hw => ⟨Code.fits_right hw, hclosed.mono (Code.edge_right hw),
        fun he => hopen (by rw [he, Bool.or_true])⟩)
      (fun hw => hopen (by rw [hw, Bool.true_or]))
      (readOperators_stop hclosed (.parenIf (op.wrapsRight right) right.printed))
    have hleft := hl.wrapped level
      (fun hw => ⟨Code.fits_left hw hlimit, closes_token (Code.edge_left hw)⟩)
      (fun _ => noSuffix_token op _)
      (readOperators_rule hlimit hright h')
    exact hleft.words (by simp [Code.pieces]) (by simp [Code.pieces]; omega)
  prefixed := nofun

theorem unary (h : Rereads operand) (op : UnaryOp) : Rereads (.unary op operand) := by
  apply of_operand rfl
  intro level rest hcloses
  have hclosed : NoOperator UnaryOp.precedence rest := hcloses.1
  have hopen : op.wraps operand || operand.endsOpen → NoSuffix rest := hcloses.2
  have hoperand := h.wrapped level
    (fun hw => ⟨(Code.fits_operand hw).1, hclosed.mono (Code.fits_operand hw).2,
      fun he => hopen (by rw [he, Bool.or_true])⟩)
    (fun hw => hopen (by rw [hw, Bool.true_or]))
    (readOperators_stop hclosed (.parenIf (op.wraps operand) operand.printed))
  have hunary := readOperand_unary op hoperand
  exact hunary.words (by simp [Code.pieces]) (by simp [Code.pieces]; omega)

end Rereads

section Lists

variable {es arguments : List Code} {fs : List Field} {callee receiver : Code} {x : String}

theorem parses_exprs (hne : es ≠ []) (h : ∀ e ∈ es, Rereads e) (level : Nat) :
    Parses 6 readExprs
      (fun rest => Stops (Code.lastEndsOpen es) rest ∧ ∀ t ∈ rest.head?, t ≠ .symbol ",")
      (readTokens (separated (Code.listPieces level es))) (Code.printedAll es) := by
  induction es with
  | nil => exact absurd rfl hne
  | cons e es ih =>
    intro rest ⟨hstops, hcomma⟩
    have he := h e List.mem_cons_self
    cases es with
    | nil => exact readExprs_last (he.whole level rest hstops) hcomma
    | cons e' es =>
      have hrest := ih (List.cons_ne_nil e' es) (fun d hd => h d (List.mem_cons_of_mem e hd)) rest
        ⟨hstops, hcomma⟩
      have hfirst := he.whole level
        (.symbol "," :: (readTokens (separated (Code.listPieces level (e' :: es))) ++ rest))
        (Stops.symbol (by decide) _ _)
      have hexprs := readExprs_cons hfirst hrest
      exact hexprs.words (by simp [Code.listPieces, separated])
        (by simp [Code.listPieces, separated]; omega)

theorem parses_arguments (h : ∀ e ∈ es, Rereads e) (level : Nat) :
    ParsesArguments (readTokens (separated (Code.listPieces level es)) ++ [.symbol ")"])
      (Code.printedAll es) := by
  intro rest _
  cases es with
  | nil => exact readArguments_nil.mono (by simp; omega)
  | cons e es =>
    have hexprs := parses_exprs (List.cons_ne_nil e es) h level (.symbol ")" :: rest)
      ⟨Stops.symbol (by decide) _ _, by rintro _ ⟨⟩; decide⟩
    exact (readArguments_exprs hexprs).words (by simp) (by simp; omega)

theorem parses_fields (h : ∀ f ∈ fs, f.Rereads) (level : Nat) :
    Parses 0 readFields (fun _ => True)
      (readTokens (separated (Field.listPieces level fs)) ++ [.symbol "\x7d"])
      (Field.printedAll fs) := by
  induction fs with
  | nil =>
    intro rest _
    exact readFields_nil.mono (by simp; omega)
  | cons f fs ih =>
    intro rest _
    have hf := h f List.mem_cons_self level
    cases fs with
    | nil =>
      have hlast := readFields_last
        (hf (.symbol "\x7d" :: rest) ⟨Stops.symbol (by decide) _ _, by rintro _ ⟨⟩; decide⟩)
      exact hlast.words (by simp [Field.listPieces, separated])
        (by simp [Field.listPieces, separated]; omega)
    | cons f' fs =>
      have hrest := ih (fun g hg => h g (List.mem_cons_of_mem f hg)) rest trivial
      have hfirst := hf
        (.symbol "," :: (readTokens (separated (Field.listPieces level (f' :: fs))) ++
          [.symbol "\x7d"] ++ rest)) ⟨Stops.symbol (by decide) _ _, by rintro _ ⟨⟩; decide⟩
      have hfields := readFields_cons hfirst hrest
      exact hfields.words (by simp [Field.listPieces, separated])
        (by simp [Field.listPieces, separated]; omega)

namespace Rereads

theorem call (hc : Rereads callee) (ha : ∀ e ∈ arguments, Rereads e) :
    Rereads (.call callee arguments) := by
  apply of_prefixed rfl
  intro level
  have hcall := (hc.callable level).call (parses_arguments ha level)
  rw [Code.printed]
  simpa [Code.pieces] using hcall

theorem invoke (hr : Rereads receiver) (hx : isName x) (ha : ∀ e ∈ arguments, Rereads e) :
    Rereads (.invoke receiver x arguments) := by
  apply of_prefixed rfl
  intro level
  have hinvoke := (hr.callable level).invoke hx (parses_arguments ha level)
  rw [Code.printed]
  simpa [Code.pieces] using hinvoke

theorem table (h : ∀ f ∈ fs, f.Rereads) : Rereads (.table fs) := by
  apply of_operand rfl
  intro level rest _
  have htable := readOperand_table (parses_fields h level rest trivial)
  exact htable.words (by simp [Code.pieces]) (by simp [Code.pieces]; omega)

end Rereads

end Lists

namespace Field.Rereads

variable {value key : Code}

theorem item (hv : Lua.Rereads value) : Field.Rereads (.item value) := by
  intro level rest ⟨hstops, hsign⟩
  exact readField_item (hv.whole level rest (hstops.of_true _)) hsign

theorem keyed (hk : Lua.Rereads key) (hv : Lua.Rereads value) :
    Field.Rereads (.keyed key value) := by
  intro level rest ⟨hstops, _⟩
  have hvalue := hv.whole level rest (hstops.of_true _)
  have hkey := hk.whole level
    (.symbol "]" :: .symbol "=" :: (readTokens (value.pieces level) ++ rest))
    (Stops.symbol (by decide) _ _)
  have hkeyed := readField_keyed hkey hvalue
  exact hkeyed.words (by simp [Field.pieces]) (by simp [Field.pieces]; omega)

theorem named (hv : Lua.Rereads value) (x : String) : Field.Rereads (.named x value) := by
  intro level
  by_cases hx : isName x
  · intro rest ⟨hstops, _⟩
    have hvalue := hv.whole level rest (hstops.of_true _)
    have hname := (Lua.Rereads.name hx).whole level
      (.symbol "=" :: (readTokens (value.pieces level) ++ rest)) (Stops.symbol (by decide) _ _)
    have hnamed := readField_named hname hvalue
    rw [Field.printed, if_pos hx]
    exact hnamed.words (by simp [Field.pieces, Code.pieces, fieldPieces, hx])
      (by simp [Field.pieces, Code.pieces, fieldPieces, hx]; omega)
  · have hkeyed := keyed (Lua.Rereads.string x) hv level
    rw [Field.printed, if_neg hx]
    simpa [Field.pieces, fieldPieces, hx, Field.printed, Code.printed, Code.pieces] using hkeyed

end Field.Rereads

end ScriptToLua.Lua
