import ScriptToLua.Lua.Name
import ScriptToLua.Lua.Syntax
import ScriptToLua.Lua.Token

/-!
Lua code as text. Parentheses are put in where the grammar needs them, so that code can be built
without regard to precedence.
-/

namespace ScriptToLua.Lua

/-- How strongly an expression holds together; whatever is no operator holds together more strongly
than any operator. -/
def Code.precedence : Code → Nat
  | binary _ op _ => op.precedence
  | unary .. => UnaryOp.precedence
  | _ => 255

/-- Names, accesses and calls, which can be indexed and called as they stand. -/
def Code.isReference : Code → Bool
  | name _ => true
  | index .. => true
  | member .. => true
  | call .. => true
  | invoke .. => true
  | _ => false

/-- What can be indexed and called as it stands. -/
def Code.isCallable : Code → Bool
  | paren _ => true
  | e => e.isReference

/-- Whether the text of an expression begins with a parenthesis. -/
def Code.opensWithParen : Code → Bool
  | paren _ => true
  | call inner _ => !inner.isReference || opensWithParen inner
  | invoke inner _ _ => !inner.isReference || opensWithParen inner
  | index inner _ => !inner.isReference || opensWithParen inner
  | member inner _ => !inner.isReference || opensWithParen inner
  | _ => false

/-- Whether a minus sign before the expression would run into one of its own. -/
def Code.opensWithMinus : Code → Bool
  | unary .neg _ => true
  | number text => text.toList.head? = some '-'
  | _ => false

/-- Whether the operand of a unary operator stands in parentheses. -/
def UnaryOp.wraps (op : UnaryOp) (operand : Code) : Bool :=
  operand.precedence < UnaryOp.precedence || (op = .neg && operand.opensWithMinus)

/-- Whether the left operand of a binary operator stands in parentheses. -/
def BinaryOp.wrapsLeft (op : BinaryOp) (left : Code) : Bool :=
  left.precedence < op.precedence || (left.precedence = op.precedence && op.isRightAssociative)

/-- Whether the right operand of a binary operator stands in parentheses. -/
def BinaryOp.wrapsRight (op : BinaryOp) (right : Code) : Bool :=
  right.precedence < op.precedence || (right.precedence = op.precedence && !op.isRightAssociative)

def word (text : String) : List Piece := [.token (.word text)]

def symbol (text : String) : List Piece := [.token (.symbol text)]

def quoted (value : String) : List Piece := [.token (.quoted value)]

def gap : List Piece := [.gap]

def wrapIf (parens : Bool) (pieces : List Piece) : List Piece :=
  if parens then symbol "(" ++ pieces ++ symbol ")" else pieces

/-- Pieces with a comma and a blank between them. -/
def separated : List (List Piece) → List Piece
  | [] => []
  | [p] => p
  | p :: rest => p ++ symbol "," ++ gap ++ separated rest

def BinaryOp.pieces (op : BinaryOp) : List Piece :=
  if op = .or ∨ op = .and then word op.text else symbol op.text

def UnaryOp.pieces : UnaryOp → List Piece
  | .not => word "not" ++ gap
  | .neg => symbol "-"
  | .len => symbol "#"

/-- `.name`, or a bracketed string where the text is no name. -/
def memberPieces (x : String) : List Piece :=
  if isName x then symbol "." ++ word x else symbol "[" ++ quoted x ++ symbol "]"

/-- `name`, or a bracketed string where the text is no name. -/
def fieldPieces (x : String) : List Piece :=
  if isName x then word x else symbol "[" ++ quoted x ++ symbol "]"

def parameterPieces (parameters : List String) : List Piece :=
  symbol "(" ++ separated (parameters.map word) ++ symbol ")"

/-- The lines of a function's body and its `end`, on one line with the parameters if the body is
empty. -/
def bodyPieces (level : Nat) (isEmpty : Bool) (lines : List Piece) : List Piece :=
  (if isEmpty then gap else lines ++ [.line level]) ++ word "end"

/-- A statement that begins with a parenthesis would go on with the line before it, so a semicolon
keeps them apart. -/
def Code.guardPieces : Code → List Piece
  | perform e => if e.opensWithParen then symbol ";" else []
  | _ => []

mutual

/-- The pieces of code that stands at the given nesting level. -/
@[grind =]
def Code.pieces (level : Nat) : Code → List Piece
  | .nil => word "nil"
  | .boolean value => word (if value then "true" else "false")
  | .number text => [.token (.numeral text)]
  | .string value => quoted value
  | .name x => word x
  | .index table key =>
    wrapIf (!table.isCallable) (table.pieces level) ++ symbol "[" ++ key.pieces level ++ symbol "]"
  | .member table x => wrapIf (!table.isCallable) (table.pieces level) ++ memberPieces x
  | .call callee arguments =>
    wrapIf (!callee.isCallable) (callee.pieces level) ++
      symbol "(" ++ separated (Code.listPieces level arguments) ++ symbol ")"
  | .invoke receiver method arguments =>
    wrapIf (!receiver.isCallable) (receiver.pieces level) ++ symbol ":" ++ word method ++
      symbol "(" ++ separated (Code.listPieces level arguments) ++ symbol ")"
  | .binary left op right =>
    wrapIf (op.wrapsLeft left) (left.pieces level) ++ gap ++ op.pieces ++ gap ++
      wrapIf (op.wrapsRight right) (right.pieces level)
  | .unary op operand => op.pieces ++ wrapIf (op.wraps operand) (operand.pieces level)
  | .table fields => symbol "\x7b" ++ separated (Field.listPieces level fields) ++ symbol "\x7d"
  | .function parameters body =>
    word "function" ++ parameterPieces parameters ++
      bodyPieces level body.isEmpty (Code.linesPieces (level + 1) body)
  | .paren inner => symbol "(" ++ inner.pieces level ++ symbol ")"
  | .locals names [] => word "local" ++ gap ++ separated (names.map word)
  | .locals names values =>
    word "local" ++ gap ++ separated (names.map word) ++ gap ++ symbol "=" ++ gap ++
      separated (Code.listPieces level values)
  | .localFunction x parameters body =>
    word "local" ++ gap ++ word "function" ++ gap ++ word x ++ parameterPieces parameters ++
      bodyPieces level body.isEmpty (Code.linesPieces (level + 1) body)
  | .assign targets values =>
    separated (Code.listPieces level targets) ++ gap ++ symbol "=" ++ gap ++
      separated (Code.listPieces level values)
  | .perform expression => expression.pieces level
  | .returns [] => word "return"
  | .returns values => word "return" ++ gap ++ separated (Code.listPieces level values)
  | .block body =>
    word "do" ++ Code.linesPieces (level + 1) body ++ [.line level] ++ word "end"

/-- The pieces of each code in a list. -/
def Code.listPieces (level : Nat) : List Code → List (List Piece)
  | [] => []
  | c :: rest => c.pieces level :: Code.listPieces level rest

/-- The pieces of each field in a list. -/
def Field.listPieces (level : Nat) : List Field → List (List Piece)
  | [] => []
  | f :: rest => f.pieces level :: Field.listPieces level rest

def Field.pieces (level : Nat) : Field → List Piece
  | .item value => value.pieces level
  | .named x value => fieldPieces x ++ gap ++ symbol "=" ++ gap ++ value.pieces level
  | .keyed key value =>
    symbol "[" ++ key.pieces level ++ symbol "]" ++ gap ++ symbol "=" ++ gap ++ value.pieces level

/-- Statements, each on a line of its own. -/
def Code.linesPieces (level : Nat) : List Code → List Piece
  | [] => []
  | c :: rest => [.line level] ++ c.guardPieces ++ c.pieces level ++ Code.linesPieces level rest

end

/-- The pieces of a chunk: every statement is followed by a line break. -/
def chunkPieces : List Code → List Piece
  | [] => []
  | c :: rest => c.guardPieces ++ c.pieces 0 ++ [.line 0] ++ chunkPieces rest

/-- The text of a chunk. -/
def printChunk (l : Layout) (chunk : List Code) : String := l.render (chunkPieces chunk)

/-- The text of one piece of code in the default layout. -/
def Code.print (c : Code) : String := Layout.render {} (c.pieces 0)

end ScriptToLua.Lua
