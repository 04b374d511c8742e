import ScriptToLua.Json.Record
import ScriptToLua.Lua.Token
import ScriptToLua.Options.Comments

/-!
The settings of a compilation and how they are read from an options file, where they stand under the
key `tstl`.
-/

namespace ScriptToLua

structure Settings where
  /-- Whether slots for constant indices are worked out at once. -/
  foldConstantIndices : Bool := true
  layout : Lua.Layout := {}
  deriving DecidableEq, Repr

namespace Options

open Json Json.Reader

/-- The truth value that a word stands for, in any case and with white space around it. -/
def truthValue? (text : String) : Option Bool :=
  let w := Text.keyword text
  if ["true", "1", "yes", "on"].contains w then some true
  else if ["false", "0", "no", "off"].contains w then some false
  else none

/-- Why a word that stands for neither truth value is refused. -/
def badTruthValue (text : String) : String :=
  "invalid boolean value: '" ++ text ++ "'. Expected true, false, 'true', or 'false'"

/-- How deep values inside the settings may be nested. -/
def nestedLevels : Nat := 126

/-- A truth value, as such or as a word. -/
def readBoolean : Reader Bool := do
  match ← value .needed nestedLevels with
  | .boolean b => return b
  | .string text =>
    match truthValue? text with
    | some b => return b
    | none => throw (.refused (badTruthValue text))
  | .other => throw .unexpected

/-- The name of a line break, at its opening quote. -/
def readNewLineName : Reader Lua.NewLine := do
  match ← string .needed with
  | "lf" => return .lf
  | "crlf" => return .crlf
  | _ => throw .unexpected

/-- A line break: its name, or an object with its name as only key and `null` under it. -/
def readNewLine : Reader Lua.NewLine := do
  match ← token with
  | '"' => readNewLineName
  | '{' =>
    advance
    if (← token) = '"' then
      let newLine ← readNewLineName
      colon
      if (← token) = 'n' then word "null".toList else mismatch
      if (← token) = '}' then advance else failNext
      return newLine
    else mismatch
  | _ => failNext

/-- A width of at most 64 bits. -/
def readWidth : Reader Nat := do
  let c ← token
  if c = '-' || c.isDigit then
    match ← signedNumber .needed with
    | .natural n => return n
    | .other => throw .unexpected
  else mismatch

def settingsFields : List (FieldReader Settings) :=
  [⟨"foldConstantIndices", fun s => return { s with foldConstantIndices := ← readBoolean }⟩,
    ⟨"newLine", fun s => return { s with layout.newLine := ← readNewLine }⟩,
    ⟨"indentWidth", fun s => return { s with layout.indentWidth := ← readWidth }⟩]

/-- The settings as they stand in the file; `null` stands for the defaults. -/
def readSettings : Reader Settings := do
  if (← token) = 'n' then
    word "null".toList
    return {}
  else record settingsFields {}

/-- An options file: a record with settings, and nothing but white space after it. -/
def readDocument : Reader Settings := do
  let s ← record [⟨"tstl", fun _ => readSettings⟩] {}
  if (← token?).isSome then failNext
  return s

end Options

/-- What is said of an options file that cannot be read as one. -/
def Settings.invalidText : String := "failed to parse tsconfig JSON"

/-- The settings in the text of an options file. -/
def Settings.ofString (text : String) : Except Json.Flaw Settings :=
  (Options.readDocument.run (.start (Options.normalize text.toList))).map Prod.fst

end ScriptToLua
