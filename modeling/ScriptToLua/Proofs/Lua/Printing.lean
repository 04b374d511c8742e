import Mathlib
import ScriptToLua.Proofs.Lua.LineBreaks

/-!
Printing with a state: a printer appends to a text, and it keeps the nesting level at which it writes. Code
appends the text of its pieces and leaves the level as it was, `Code.writes`, so the text of a chunk is the
one of its pieces whatever was printed before, `Printer.print_eq`. A layout chooses its line breaks and
nothing else: `Printer.print_layout`.
-/

namespace ScriptToLua.Lua

/-- A text that is being written, and the nesting level of what is written next. -/
structure Printer where
  layout : Layout
  text : String
  level : Nat

namespace Printer

variable (p : Printer)

def new (layout : Layout) : Printer := { layout, text := "", level := 0 }

/-- The printer as it starts on a chunk. -/
def reset : Printer := { p with text := "", level := 0 }

def write (s : String) : Printer := { p with text := p.text ++ s }

/-- Ends a line. -/
def writeLine : Printer := p.write p.layout.newLine.text

/-- The blanks before a line at the printer's level. -/
def writeIndent : Printer := p.write ("".pushn ' ' (p.level * p.layout.indentWidth))

def indent : Printer := { p with level := p.level + 1 }

def dedent : Printer := { p with level := p.level - 1 }

/-- Parentheses around what is written, if needed. -/
def wrapIf (parens : Bool) (emit : Printer → Printer) : Printer :=
  if parens then (emit (p.write "(")).write ")" else emit p

/-- A name, or a string in brackets where the text is no name. -/
def writeKey (x : String) : Printer :=
  if isName x then p.write x else p.write "[" |>.write (quote x) |>.write "]"

/-- `.name`, or a string in brackets where the text is no name. -/
def writeMember (x : String) : Printer :=
  if isName x then p.write "." |>.write x else p.write "[" |>.write (quote x) |>.write "]"

/-- The parameters of a function. -/
def writeParameters (xs : List String) : Printer :=
  p.write "(" |>.write (", ".intercalate xs) |>.write ")"

/-- The lines of a block, one level deeper, and the beginning of the line after them. -/
def writeBlock (emitLines : Printer → Printer) : Printer :=
  (emitLines p.indent).dedent.writeLine.writeIndent

/-- The body of a function and its `end`, on one line with the parameters if the body is empty. -/
def writeBody (isEmpty : Bool) (emitLines : Printer → Printer) : Printer :=
  (if isEmpty then p.write " " else p.writeBlock emitLines).write "end"

/-- The semicolon before a statement that begins with a parenthesis. -/
def writeGuard : Code → Printer
  | .perform e => if e.opensWithParen then p.write ";" else p
  | _ => p

end Printer

mutual

/-- Writes code. -/
def Code.emit : Code → Printer → Printer
  | .nil, p => p.write "nil"
  | .boolean value, p => p.write (if value then "true" else "false")
  | .number text, p => p.write text
  | .string value, p => p.write (quote value)
  | .name x, p => p.write x
  | .index table key, p =>
    p.wrapIf (!table.isCallable) table.emit |>.write "[" |> key.emit |>.write "]"
  | .member table x, p => p.wrapIf (!table.isCallable) table.emit |>.writeMember x
  | .call callee arguments, p =>
    p.wrapIf (!callee.isCallable) callee.emit |>.write "(" |> Code.emitList arguments |>.write ")"
  | .invoke receiver method arguments, p =>
    p.wrapIf (!receiver.isCallable) receiver.emit |>.write ":" |>.write method |>.write "("
      |> Code.emitList arguments |>.write ")"
  | .binary left op right, p =>
    p.wrapIf (op.wrapsLeft left) left.emit |>.write " " |>.write op.text |>.write " "
      |>.wrapIf (op.wrapsRight right) right.emit
  | .unary op operand, p => p.write op.text |>.wrapIf (op.wraps operand) operand.emit
  | .table fields, p => p.write "\x7b" |> Field.emitList fields |>.write "\x7d"
  | .function parameters body, p =>
    p.write "function" |>.writeParameters parameters |>.writeBody body.isEmpty (Code.emitLines body)
  | .paren inner, p => p.write "(" |> inner.emit |>.write ")"
  | .locals names [], p => p.write "local" |>.write " " |>.write (", ".intercalate names)
  | .locals names values, p =>
    p.write "local" |>.write " " |>.write (", ".intercalate names) |>.write " = " |> Code.emitList values
  | .localFunction x parameters body, p =>
    p.write "local" |>.write " " |>.write "function" |>.write " " |>.write x
      |>.writeParameters parameters |>.writeBody body.isEmpty (Code.emitLines body)
  | .assign targets values, p =>
    p |> Code.emitList targets |>.write " = " |> Code.emitList values
  | .perform expression, p => expression.emit p
  | .returns [], p => p.write "return"
  | .returns values, p => p.write "return" |>.write " " |> Code.emitList values
  | .block body, p => p.write "do" |>.writeBlock (Code.emitLines body) |>.write "end"

/-- Writes codes with a comma and a blank between them. -/
def Code.emitList : List Code → Printer → Printer
  | [], p => p
  | [c], p => c.emit p
  | c :: rest, p => c.emit p |>.write ", " |> Code.emitList rest

def Field.emitList : List Field → Printer → Printer
  | [], p => p
  | [f], p => f.emit p
  | f :: rest, p => f.emit p |>.write ", " |> Field.emitList rest

def Field.emit : Field → Printer → Printer
  | .item value, p => value.emit p
  | .named x value, p => p.writeKey x |>.write " = " |> value.emit
  | .keyed key value, p => p.write "[" |> key.emit |>.write "]" |>.write " = " |> value.emit

/-- Writes statements, each on a line of its own. -/
def Code.emitLines : List Code → Printer → Printer
  | [], p => p
  | c :: rest, p => p.writeLine.writeIndent.writeGuard c |> c.emit |> Code.emitLines rest

end

namespace Printer

/-- The statements of a chunk, each with a line break after it. -/
def writeStatements (chunk : List Code) (p : Printer) : Printer :=
  chunk.foldl (fun p c => (c.emit (p.writeGuard c)).writeLine) p

/-- The text of a chunk, and the printer after it. -/
def print (p : Printer) (chunk : List Code) : String × Printer :=
  let done := p.reset.writeStatements chunk
  (done.text, { done with text := "" })

/-- The printer after it has printed the chunks one after the other. -/
def printAll (p : Printer) (chunks : List (List Code)) : Printer :=
  chunks.foldl (fun q chunk => (q.print chunk).2) p

/-- Appends the text of pieces. -/
def append (p : Printer) (pieces : List Piece) : Printer := p.write (p.layout.render pieces)

/-- The function appends the text of the pieces for the level that the printer is at, and changes
nothing else. -/
abbrev Writes (emit : Printer → Printer) (pieces : Nat → List Piece) : Prop :=
  ∀ p : Printer, emit p = p.append (pieces p.level)

section Pieces

variable {p : Printer} {x : String} {xs : List String} {ps qs : List Piece} {emit : Printer → Printer}
  {f : Nat → List Piece}

@[simp]
theorem level_write {s : String} : (p.write s).level = p.level := rfl

@[simp]
theorem level_append : (p.append ps).level = p.level := rfl

theorem write_append {s t : String} : p.write (s ++ t) = (p.write s).write t := by
  simp only [write, String.append_assoc]

theorem write_empty : p.write "" = p := by
  simp only [write, String.append_empty]

@[simp]
theorem append_nil : p.append [] = p := write_empty

@[simp]
theorem append_append : p.append (ps ++ qs) = (p.append ps).append qs := by
  rw [append, render_append, write_append]
  rfl

@[simp]
theorem append_cons {piece : Piece} :
    p.append (piece :: ps) = (p.write (p.layout.text piece)).append ps := by
  rw [append, render_cons, write_append]
  rfl

theorem append_token {t : Token} : p.append [.token t] = p.write t.text := by
  rw [append_cons, append_nil]
  rfl

@[simp]
theorem append_word : p.append (word x) = p.write x := append_token

@[simp]
theorem append_symbol : p.append (symbol x) = p.write x := append_token

@[simp]
theorem append_quoted : p.append (quoted x) = p.write (quote x) := append_token

@[simp]
theorem append_gap : p.append gap = p.write " " := rfl

@[simp]
theorem writeIndent_writeLine : p.writeLine.writeIndent = p.write (p.layout.text (.line p.level)) :=
  write_append.symm

@[simp]
theorem write_comma : p.write ", " = (p.write ",").write " " := by
  rw [← write_append]
  rfl

@[simp]
theorem write_equals : p.write " = " = ((p.write " ").write "=").write " " := by
  rw [← write_append, ← write_append]
  rfl

@[simp]
theorem append_words : p.append (separated (xs.map word)) = p.write (", ".intercalate xs) := by
  induction xs generalizing p with
  | nil => rfl
  | cons x xs ih =>
    cases xs with
    | nil => simp [separated]
    | cons y ys =>
      rw [String.intercalate_cons_cons, write_append, write_append, ← ih]
      simp [separated]

@[simp]
theorem append_binaryOp (op : BinaryOp) : p.append op.pieces = p.write op.text := by
  rw [BinaryOp.pieces]
  split
  · exact append_word
  · exact append_symbol

@[simp]
theorem append_unaryOp (op : UnaryOp) : p.append op.pieces = p.write op.text := by
  cases op with
  | not =>
    rw [UnaryOp.pieces, append_append, append_word, append_gap, ← write_append]
    rfl
  | neg | len => exact append_symbol

@[simp]
theorem writeKey_eq : p.writeKey x = p.append (fieldPieces x) := by
  rw [writeKey, fieldPieces]
  split <;> simp

@[simp]
theorem writeMember_eq : p.writeMember x = p.append (memberPieces x) := by
  rw [writeMember, memberPieces]
  split <;> simp

@[simp]
theorem writeGuard_eq (c : Code) : p.writeGuard c = p.append c.guardPieces := by
  cases c with
  | perform e =>
    rw [writeGuard, Code.guardPieces]
    split <;> simp
  | _ => exact append_nil.symm

@[simp]
theorem writeParameters_eq : p.writeParameters xs = p.append (parameterPieces xs) := by
  simp [writeParameters, parameterPieces]

theorem wrapIf_eq {parens : Bool} (h : Writes emit f) :
    p.wrapIf parens emit = p.append (Lua.wrapIf parens (f p.level)) := by
  cases parens <;> simp [wrapIf, Lua.wrapIf, h]

theorem writeBlock_eq (h : Writes emit f) :
    p.writeBlock emit = p.append (f (p.level + 1) ++ [.line p.level]) := by
  have hdedent : (p.indent.append (f p.indent.level)).dedent = p.append (f (p.level + 1)) := rfl
  rw [writeBlock, h, hdedent, writeIndent_writeLine, append_append, append_cons, append_nil]
  rfl

theorem writeBody_eq {isEmpty : Bool} (h : Writes emit f) :
    p.writeBody isEmpty emit = p.append (bodyPieces p.level isEmpty (f (p.level + 1))) := by
  cases isEmpty <;> simp [writeBody, bodyPieces, writeBlock_eq h]

end Pieces

end Printer

open Printer

mutual

/-- Code appends the text of its pieces and leaves the level as it is. -/
theorem Code.writes : (c : Code) → Writes c.emit (c.pieces ·)
  | .nil, p | .boolean _, p | .string _, p | .name _, p => by
    simp [Code.emit, Code.pieces]
  | .number text, p => by
    simp [Code.emit, Code.pieces, Layout.text, Token.text]
  | .index table key, p => by
    simp [Code.emit, Code.pieces, wrapIf_eq table.writes, key.writes]
  | .member table x, p => by
    simp [Code.emit, Code.pieces, wrapIf_eq table.writes]
  | .call callee arguments, p => by
    simp [Code.emit, Code.pieces, wrapIf_eq callee.writes, Code.writesList arguments]
  | .invoke receiver method arguments, p => by
    simp [Code.emit, Code.pieces, wrapIf_eq receiver.writes, Code.writesList arguments]
  | .binary left op right, p => by
    simp [Code.emit, Code.pieces, wrapIf_eq left.writes, wrapIf_eq right.writes]
  | .unary op operand, p => by
    simp [Code.emit, Code.pieces, wrapIf_eq operand.writes]
  | .table fields, p => by
    simp [Code.emit, Code.pieces, Field.writesList fields]
  | .function parameters body, p => by
    simp [Code.emit, Code.pieces, writeBody_eq (Code.writesLines body)]
  | .paren inner, p => by
    simp [Code.emit, Code.pieces, inner.writes]
  | .locals xs [], p => by
    simp [Code.emit, Code.pieces]
  | .locals xs (c :: values), p => by
    simp [Code.emit, Code.pieces, Code.writesList (c :: values)]
  | .localFunction x parameters body, p => by
    simp [Code.emit, Code.pieces, writeBody_eq (Code.writesLines body)]
  | .assign targets values, p => by
    simp [Code.emit, Code.pieces, Code.writesList targets, Code.writesList values]
  | .perform expression, p => by
    simp [Code.emit, Code.pieces, expression.writes]
  | .returns [], p => by
    simp [Code.emit, Code.pieces]
  | .returns (c :: values), p => by
    simp [Code.emit, Code.pieces, Code.writesList (c :: values)]
  | .block body, p => by
    simp [Code.emit, Code.pieces, writeBlock_eq (Code.writesLines body)]

theorem Code.writesList :
    (cs : List Code) → Writes (Code.emitList cs) (separated <| Code.listPieces · cs)
  | [], p => append_nil.symm
  | [c], p => c.writes p
  | c :: d :: rest, p => by
    simp [Code.emitList, Code.listPieces, separated, c.writes, Code.writesList (d :: rest)]

theorem Field.writesList :
    (fs : List Field) → Writes (Field.emitList fs) (separated <| Field.listPieces · fs)
  | [], p => append_nil.symm
  | [f], p => f.writes p
  | f :: g :: rest, p => by
    simp [Field.emitList, Field.listPieces, separated, f.writes, Field.writesList (g :: rest)]

theorem Field.writes : (f : Field) → Writes f.emit (f.pieces ·)
  | .item value, p => value.writes p
  | .named x value, p => by
    simp [Field.emit, Field.pieces, value.writes]
  | .keyed key value, p => by
    simp [Field.emit, Field.pieces, key.writes, value.writes]

theorem Code.writesLines :
    (cs : List Code) → Writes (Code.emitLines cs) (Code.linesPieces · cs)
  | [], p => append_nil.symm
  | c :: rest, p => by
    simp [Code.emitLines, Code.linesPieces, c.writes, Code.writesLines rest]

end

namespace Printer

variable {p : Printer} {chunk : List Code}

theorem writeStatements_eq (hp : p.level = 0) :
    p.writeStatements chunk = p.append (chunkPieces chunk) := by
  induction chunk generalizing p with
  | nil => exact append_nil.symm
  | cons c rest ih =>
    have hline (q : Printer) : q.writeLine = q.append [.line 0] := by
      rw [append_cons, append_nil, Layout.text, Nat.zero_mul, write_append]
      exact write_empty.symm
    have hstatement : (c.emit (p.writeGuard c)).writeLine =
        p.append (c.guardPieces ++ c.pieces 0 ++ [.line 0]) := by
      rw [writeGuard_eq, c.writes, level_append, hp, hline, append_append, append_append]
    have hrest (ps : List Piece) :
        (p.append ps).writeStatements rest = (p.append ps).append (chunkPieces rest) :=
      ih (p := p.append ps) hp
    calc
      p.writeStatements (c :: rest) = (c.emit (p.writeGuard c)).writeLine.writeStatements rest := rfl
      _ = p.append (chunkPieces (c :: rest)) := by
        rw [hstatement, hrest, chunkPieces, ← append_append]

/-- What was printed before makes no difference, and the printer is left as a new one. -/
theorem print_eq : p.print chunk = (printChunk p.layout chunk, new p.layout) := by
  have hdone : p.reset.writeStatements chunk = p.reset.append (chunkPieces chunk) :=
    writeStatements_eq rfl
  rw [print, hdone, printChunk]
  exact Prod.ext String.empty_append rfl

theorem printAll_new (layout : Layout) (chunks : List (List Code)) :
    (new layout).printAll chunks = new layout := by
  induction chunks with
  | nil => rfl
  | cons chunk chunks ih =>
    rw [printAll, List.foldl_cons, print_eq]
    exact ih

/-- The layout of a printer chooses the line breaks in the text of a chunk and nothing else. The text is
the plainest one with a line break in the place of every line feed, as deep as the line that it begins;
string literals stand in it as they stand there. After every statement the printer is at level 0, and
neither its text and level before nor chunks that it has printed make a difference. -/
theorem print_layout (p : Printer) {chunk : List Code}
    (hn : ∀ x ∈ Code.namesAll false chunk, '\n' ∉ x.toList)
    (hd : ∀ x ∈ Code.numeralsAll chunk, '\n' ∉ x.toList) :
    let plain := ((new .plain).print chunk).1
    let text := (p.print chunk).1
    text = printChunk p.layout chunk ∧
    text.toList = replaceFeeds ((chunkLevels chunk).map p.layout.lineBreak) plain.toList ∧
    plain.toList.count '\n' = (chunkLevels chunk).length ∧
    (p.layout.newLine = .crlf → NoBareFeed text.toList) ∧
    (∀ before value after, chunkPieces chunk = before ++ .token (.quoted value) :: after →
      '\n' ∉ (quote value).toList ∧
      plain = Layout.plain.render before ++ quote value ++ Layout.plain.render after ∧
      text = p.layout.render before ++ quote value ++ p.layout.render after) ∧
    (∀ done rest, chunk = done ++ rest → (p.reset.writeStatements done).level = 0) ∧
    ∀ earlier, (((new p.layout).printAll earlier).print chunk).1 = text := by
  intro plain text
  have hplain : plain = printChunk .plain chunk := congrArg Prod.fst print_eq
  have htext : text = printChunk p.layout chunk := congrArg Prod.fst print_eq
  have hfree := feedFree_chunkPieces hn hd
  rw [hplain, htext]
  refine ⟨rfl, ?_, ?_, ?_, ?_, ?_, ?_⟩
  · rw [← lineLevels_chunkPieces]
    exact toList_render_eq hfree
  · rw [← lineLevels_chunkPieces]
    exact count_feed_plain hfree
  · exact noBareFeed_render hfree
  · intro before value after hpieces
    simp only [printChunk, hpieces]
    exact ⟨not_mem_quote value, render_around _ _ _ _, render_around _ _ _ _⟩
  · intro done rest _
    rw [writeStatements_eq rfl]
    rfl
  · intro earlier
    rw [printAll_new, print_eq]
    rfl

/-- A block in a function in an argument, and a string with a line feed in it. -/
def nestedChunk : List Code :=
  [.perform (.call (.name "f") [.function ["x"] [.block [.yields (.string "a\nb")]]]),
    .bindLocal "y" (.number "1")]

/-- A printer in the middle of a text. -/
def usedPrinter : Printer :=
  { layout := { newLine := .crlf, indentWidth := 2 }, text := "return", level := 3 }

theorem print_layout_nested :
    (∀ x ∈ Code.namesAll false nestedChunk, '\n' ∉ x.toList) ∧
      (∀ x ∈ Code.numeralsAll nestedChunk, '\n' ∉ x.toList) ∧
      chunkLevels nestedChunk = [1, 2, 1, 0, 0, 0] ∧
      (usedPrinter.print nestedChunk).1.toList =
        replaceFeeds ([1, 2, 1, 0, 0, 0].map usedPrinter.layout.lineBreak)
          ((new .plain).print nestedChunk).1.toList ∧
      NoBareFeed (usedPrinter.print nestedChunk).1.toList ∧
      ((new .plain).print nestedChunk).1 =
        "f(function(x)\ndo\nreturn \"a\\nb\"\nend\nend)\nlocal y = 1\n" := by
  have hn : ∀ x ∈ Code.namesAll false nestedChunk, '\n' ∉ x.toList := by decide
  have hd : ∀ x ∈ Code.numeralsAll nestedChunk, '\n' ∉ x.toList := by decide
  have hlevels : chunkLevels nestedChunk = [1, 2, 1, 0, 0, 0] := by decide
  obtain ⟨-, hfeeds, -, hbare, -⟩ := print_layout usedPrinter hn hd
  rw [hlevels] at hfeeds
  exact ⟨hn, hd, hlevels, hfeeds, hbare rfl, by decide⟩

end Printer

end ScriptToLua.Lua
