import Mathlib
import ScriptToLua.Proofs.Lua.Lexer

/-!
From the words of Lua text to code: the grammar of expressions, of blocks and of those statements
that are printed here. Line breaks mean nothing, and semicolons stand for empty statements. A string
literal is read as its text between the quotes.

A reader yields what it has read and the words after that. It is given as many levels of nested
readers as it may use.
-/

namespace ScriptToLua.Lua

def BinaryOp.token (op : BinaryOp) : Token :=
  if op = .or ∨ op = .and then .word op.text else .symbol op.text

def binaryOp? (t : Token) : Option BinaryOp := BinaryOp.all.find? fun op => op.token = t

/-- How strongly an operator has to bind after the right operand to become part of it. -/
def BinaryOp.rightPrecedence (op : BinaryOp) : Nat :=
  if op.isRightAssociative then op.precedence - 1 else op.precedence

def UnaryOp.token : UnaryOp → Token
  | not => .word "not"
  | neg => .symbol "-"
  | len => .symbol "#"

def unaryOp? (t : Token) : Option UnaryOp := UnaryOp.all.find? fun op => op.token = t

/-- What can be assigned to. -/
def Code.isTarget : Code → Bool
  | name _ => true
  | index .. => true
  | member .. => true
  | _ => false

/-- The words after the word `t`. -/
def expect (t : Token) : List Token → Option (List Token)
  | [] => none
  | t' :: ts => if t' = t then some ts else none

/-- Whether a block ends here. -/
def blockEnds : List Token → Bool
  | [] => true
  | t :: _ => t = .word "end"

def readName : List Token → Option (String × List Token)
  | .word x :: ts => if isName x then some (x, ts) else none
  | _ => none

/-- Names with commas between them. -/
def readNames : List Token → Option (List String × List Token)
  | .word x :: .symbol s :: ts =>
    if isName x then
      if s = "," then do
        let (xs, ts) ← readNames ts
        return (x :: xs, ts)
      else some ([x], .symbol s :: ts)
    else none
  | .word x :: ts => if isName x then some ([x], ts) else none
  | _ => none

/-- Parameters in parentheses. -/
def readParameters (ts : List Token) : Option (List String × List Token) := do
  let ts ← expect (.symbol "(") ts
  match expect (.symbol ")") ts with
  | some ts => return ([], ts)
  | none =>
    let (xs, ts) ← readNames ts
    let ts ← expect (.symbol ")") ts
    return (xs, ts)

mutual

/-- An expression of operators that bind more strongly than `limit`. -/
def readExpr : (room limit : Nat) → List Token → Option (Code × List Token)
  | 0, _, _ => none
  | room + 1, limit, ts => do
    let (left, ts) ← readOperand room ts
    readOperators room limit left ts

/-- The operators after a left operand, and their right operands. -/
def readOperators : (room limit : Nat) → Code → List Token → Option (Code × List Token)
  | 0, _, _, _ => none
  | room + 1, limit, left, ts =>
    match ts.head?.bind binaryOp? with
    | some op =>
      if limit < op.precedence then do
        let (right, ts) ← readExpr room op.rightPrecedence ts.tail
        readOperators room limit (.binary left op right) ts
      else some (left, ts)
    | none => some (left, ts)

def readOperand : (room : Nat) → List Token → Option (Code × List Token)
  | 0, _ => none
  | room + 1, ts =>
    match ts.head?.bind unaryOp? with
    | some op => do
      let (operand, ts) ← readExpr room UnaryOp.precedence ts.tail
      return (.unary op operand, ts)
    | none => readSimple room ts

/-- An expression without operators. -/
def readSimple : (room : Nat) → List Token → Option (Code × List Token)
  | 0, _ => none
  | _ + 1, .numeral text :: ts => some (.number text, ts)
  | _ + 1, .quoted text :: ts => some (.string text, ts)
  | room + 1, .word x :: ts =>
    if x = "nil" then some (.nil, ts)
    else if x = "true" then some (.boolean true, ts)
    else if x = "false" then some (.boolean false, ts)
    else if x = "function" then do
      let ((parameters, body), ts) ← readFunction room ts
      return (.function parameters body, ts)
    else readPrefixed room (.word x :: ts)
  | room + 1, .symbol s :: ts =>
    if s = "\x7b" then do
      let (fields, ts) ← readFields room ts
      return (.table fields, ts)
    else readPrefixed room (.symbol s :: ts)
  | _ + 1, [] => none

/-- A name or an expression in parentheses, and all that follows of calls and accesses. -/
def readPrefixed : (room : Nat) → List Token → Option (Code × List Token)
  | 0, _ => none
  | room + 1, .word x :: ts => if isName x then readSuffixes room (.name x) ts else none
  | room + 1, .symbol s :: ts =>
    if s = "(" then do
      let (inner, ts) ← readExpr room 0 ts
      let ts ← expect (.symbol ")") ts
      readSuffixes room (.paren inner) ts
    else none
  | _ + 1, _ => none

/-- Calls and accesses after an expression. -/
def readSuffixes : (room : Nat) → Code → List Token → Option (Code × List Token)
  | 0, _, _ => none
  | room + 1, e, .symbol s :: ts =>
    if s = "." then do
      let (x, ts) ← readName ts
      readSuffixes room (.member e x) ts
    else if s = "[" then do
      let (key, ts) ← readExpr room 0 ts
      let ts ← expect (.symbol "]") ts
      readSuffixes room (.index e key) ts
    else if s = ":" then do
      let (x, ts) ← readName ts
      let (arguments, ts) ← readArguments room ts
      readSuffixes room (.invoke e x arguments) ts
    else if s = "(" ∨ s = "\x7b" then do
      let (arguments, ts) ← readArguments room (.symbol s :: ts)
      readSuffixes room (.call e arguments) ts
    else some (e, .symbol s :: ts)
  | room + 1, e, .quoted text :: ts => readSuffixes room (.call e [.string text]) ts
  | _ + 1, e, ts => some (e, ts)

/-- Arguments in parentheses, or a single table or string. -/
def readArguments : (room : Nat) → List Token → Option (List Code × List Token)
  | 0, _ => none
  | room + 1, .symbol s :: ts =>
    if s = "(" then
      match expect (.symbol ")") ts with
      | some ts => some ([], ts)
      | none => do
        let (arguments, ts) ← readExprs room ts
        let ts ← expect (.symbol ")") ts
        return (arguments, ts)
    else if s = "\x7b" then do
      let (fields, ts) ← readFields room ts
      return ([.table fields], ts)
    else none
  | _ + 1, .quoted text :: ts => some ([.string text], ts)
  | _ + 1, _ => none

/-- Expressions with commas between them. -/
def readExprs : (room : Nat) → List Token → Option (List Code × List Token)
  | 0, _ => none
  | room + 1, ts => do
    let (e, ts) ← readExpr room 0 ts
    match expect (.symbol ",") ts with
    | some ts => do
      let (es, ts) ← readExprs room ts
      return (e :: es, ts)
    | none => return ([e], ts)

/-- The fields of a table up to its last brace, with commas or semicolons between them. -/
def readFields : (room : Nat) → List Token → Option (List Field × List Token)
  | 0, _ => none
  | room + 1, ts =>
    match expect (.symbol "\x7d") ts with
    | some ts => some ([], ts)
    | none => do
      let (field, ts) ← readField room ts
      match (expect (.symbol ",") ts).or (expect (.symbol ";") ts) with
      | some ts => do
        let (fields, ts) ← readFields room ts
        return (field :: fields, ts)
      | none => do
        let ts ← expect (.symbol "\x7d") ts
        return ([field], ts)

/-- A field: a keyed value, a named value or an item. A name before `=` is read as an expression. -/
def readField : (room : Nat) → List Token → Option (Field × List Token)
  | 0, _ => none
  | room + 1, ts =>
    match expect (.symbol "[") ts with
    | some ts => do
      let (key, ts) ← readExpr room 0 ts
      let ts ← expect (.symbol "]") ts
      let ts ← expect (.symbol "=") ts
      let (value, ts) ← readExpr room 0 ts
      return (.keyed key value, ts)
    | none => do
      let (e, ts) ← readExpr room 0 ts
      match e, expect (.symbol "=") ts with
      | _, none => return (.item e, ts)
      | .name x, some ts => do
        let (value, ts) ← readExpr room 0 ts
        return (.named x value, ts)
      | _, some _ => none

/-- The parameters and the body of a function up to its `end`. -/
def readFunction : (room : Nat) → List Token → Option ((List String × List Code) × List Token)
  | 0, _ => none
  | room + 1, ts => do
    let (parameters, ts) ← readParameters ts
    let (body, ts) ← readBlock room ts
    let ts ← expect (.word "end") ts
    return ((parameters, body), ts)

/-- Statements as far as the block goes; a return is the last one. -/
def readBlock : (room : Nat) → List Token → Option (List Code × List Token)
  | 0, _ => none
  | room + 1, ts =>
    if blockEnds ts then some ([], ts)
    else
      match expect (.symbol ";") ts, expect (.word "return") ts with
      | some ts, _ => readBlock room ts
      | none, some ts => readReturn room ts
      | none, none => do
        let (c, ts) ← readStatement room ts
        let (cs, ts) ← readBlock room ts
        return (c :: cs, ts)

/-- What follows the word `return`. -/
def readReturn : (room : Nat) → List Token → Option (List Code × List Token)
  | 0, _ => none
  | room + 1, ts =>
    if blockEnds ts then some ([.returns []], ts)
    else
      match expect (.symbol ";") ts with
      | some ts => some ([.returns []], ts)
      | none => do
        let (values, ts) ← readExprs room ts
        return ([.returns values], (expect (.symbol ";") ts).getD ts)

def readStatement : (room : Nat) → List Token → Option (Code × List Token)
  | 0, _ => none
  | room + 1, ts =>
    match expect (.word "local") ts, expect (.word "do") ts with
    | some ts, _ => readLocal room ts
    | none, some ts => do
      let (body, ts) ← readBlock room ts
      let ts ← expect (.word "end") ts
      return (.block body, ts)
    | none, none => do
      let (e, ts) ← readPrefixed room ts
      match (expect (.symbol "=") ts).or (expect (.symbol ",") ts) with
      | some _ => do
        let (targets, ts) ← readTargets room e ts
        let (values, ts) ← readExprs room ts
        return (.assign targets values, ts)
      | none => if e.isCall then some (.perform e, ts) else none

/-- What follows the word `local`. -/
def readLocal : (room : Nat) → List Token → Option (Code × List Token)
  | 0, _ => none
  | room + 1, ts =>
    match expect (.word "function") ts with
    | some ts => do
      let (x, ts) ← readName ts
      let ((parameters, body), ts) ← readFunction room ts
      return (.localFunction x parameters body, ts)
    | none => do
      let (names, ts) ← readNames ts
      match expect (.symbol "=") ts with
      | some ts => do
        let (values, ts) ← readExprs room ts
        return (.locals names values, ts)
      | none => return (.locals names [], ts)

/-- The targets of an assignment up to its sign, after the first of them. -/
def readTargets : (room : Nat) → Code → List Token → Option (List Code × List Token)
  | 0, _, _ => none
  | room + 1, e, ts =>
    if e.isTarget then
      match expect (.symbol ",") ts with
      | some ts => do
        let (e', ts) ← readPrefixed room ts
        let (targets, ts) ← readTargets room e' ts
        return (e :: targets, ts)
      | none => do
        let ts ← expect (.symbol "=") ts
        return ([e], ts)
    else none

end

section

-- Lean derives the equations of the readers here, once: the rules are elaborated side by side, and each
-- of them would wait for the equations otherwise.
attribute [local simp] readExpr readOperators readOperand readSimple readPrefixed readSuffixes
  readArguments readExprs readFields readField readFunction readBlock readReturn readStatement readLocal
  readTargets

end

/-- What is read of all words. -/
def complete {α : Type} : Option (α × List Token) → Option α
  | some (a, []) => some a
  | _ => none

/-- As many levels as the words may need. -/
def roomFor (ts : List Token) : Nat := 16 * ts.length + 16

/-- The expression that a text writes. -/
def parseExpr (text : String) : Option Code := do
  let ts ← lex text
  complete (readExpr (roomFor ts) 0 ts)

/-- The statements that a text writes. -/
def parseChunk (text : String) : Option (List Code) := do
  let ts ← lex text
  complete (readBlock (roomFor ts) ts)

end ScriptToLua.Lua
