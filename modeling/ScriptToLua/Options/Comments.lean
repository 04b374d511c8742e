import ScriptToLua.Text.Blank

/-!
Options files are JSON with comments and trailing commas. Both are taken out before the text is read;
line breaks stay, so that lines keep their numbers, and string literals stay as they are.
-/

namespace ScriptToLua.Options

/-- What the text read so far has opened. -/
inductive Region where
  | plain
  /-- Inside a string literal; `escaped` after a backslash. -/
  | quoted (escaped : Bool)
  | lineComment
  /-- Inside a block comment; `star` after an asterisk. -/
  | blockComment (star : Bool)
  deriving DecidableEq, Repr

/-- The region inside a string literal after the character `c` of it. -/
def Region.afterQuoted (escaped : Bool) (c : Char) : Region :=
  if escaped then .quoted false
  else if c = '\\' then .quoted true
  else if c = '"' then .plain
  else .quoted false

/-- Takes comments out of a text that begins in the given region. A comment that is not closed
reaches to the end of the text. -/
def stripFrom : Region → List Char → List Char
  | _, [] => []
  | .quoted escaped, c :: rest => c :: stripFrom (.afterQuoted escaped c) rest
  | .lineComment, c :: rest =>
    if c = '\n' then '\n' :: stripFrom .plain rest else stripFrom .lineComment rest
  | .blockComment star, c :: rest =>
    if star && c = '/' then stripFrom .plain rest
    else if c = '\n' then '\n' :: stripFrom (.blockComment false) rest
    else stripFrom (.blockComment (c = '*')) rest
  | .plain, '/' :: '/' :: rest => stripFrom .lineComment rest
  | .plain, '/' :: '*' :: rest => stripFrom (.blockComment false) rest
  | .plain, c :: rest => c :: stripFrom (if c = '"' then .quoted false else .plain) rest

def stripComments (cs : List Char) : List Char := stripFrom .plain cs

/-- Whether a closing bracket is the next thing in the text. -/
def closesNext (cs : List Char) : Bool :=
  match cs.dropWhile Text.isBlank with
  | c :: _ => c = '}' || c = ']'
  | [] => false

/-- Takes out the commas before closing brackets; `quoted` says whether the text begins inside a
string literal, and whether after a backslash. -/
def dropCommasFrom : (quoted : Option Bool) → List Char → List Char
  | _, [] => []
  | some escaped, c :: rest =>
    match Region.afterQuoted escaped c with
    | .quoted escaped => c :: dropCommasFrom (some escaped) rest
    | _ => c :: dropCommasFrom none rest
  | none, c :: rest =>
    if c = '"' then c :: dropCommasFrom (some false) rest
    else if c = ',' && closesNext rest then dropCommasFrom none rest
    else c :: dropCommasFrom none rest

def dropTrailingCommas (cs : List Char) : List Char := dropCommasFrom none cs

/-- The text without comments and trailing commas. -/
def normalize (cs : List Char) : List Char := dropTrailingCommas (stripComments cs)

end ScriptToLua.Options
