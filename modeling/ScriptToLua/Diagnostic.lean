import ScriptToLua.Text.Template

/-!
What the lowering reports about a source file. A problem is a cause; its message is a numbered
template that the details of the cause are put into.
-/

namespace ScriptToLua

inductive Severity where
  | warning | error | suggestion | message
  deriving DecidableEq, Repr

structure Message where
  code : Nat
  severity : Severity
  template : String
  deriving DecidableEq, Repr

namespace Message

def unsupportedSyntax : Message :=
  ⟨100001, .error, "Unsupported syntax: \x7b0\x7d."⟩

def invalidDeleteOperand : Message :=
  ⟨100002, .error, "The operand of a 'delete' operator must be a property reference."⟩

def lengthAssignment : Message :=
  ⟨100003, .error, "Assigning to the 'length' of an array is not supported."⟩

def unknownArrayMethod : Message :=
  ⟨100004, .warning, "Array method '\x7b0\x7d' has no Lua lowering; emitting a plain call."⟩

def tooDeep : Message :=
  ⟨100005, .error, "Expression is nested too deeply to lower."⟩

def invalidTarget : Message :=
  ⟨100006, .error,
    "The left-hand side of an assignment must be a variable or a property access."⟩

def all : List Message :=
  [unsupportedSyntax, invalidDeleteOperand, lengthAssignment, unknownArrayMethod, tooDeep,
    invalidTarget]

/-- The message with a given code. -/
def ofCode? (code : Nat) : Option Message := all.find? fun m => m.code = code

end Message

/-- Why a piece of source has no faithful lowering. -/
inductive Problem where
  | unsupportedSyntax (what : String)
  | invalidDeleteOperand
  | lengthAssignment
  | unknownArrayMethod (name : String)
  | tooDeep
  | invalidTarget
  deriving DecidableEq, Repr

namespace Problem

def message : Problem → Message
  | unsupportedSyntax _ => .unsupportedSyntax
  | invalidDeleteOperand => .invalidDeleteOperand
  | lengthAssignment => .lengthAssignment
  | unknownArrayMethod _ => .unknownArrayMethod
  | tooDeep => .tooDeep
  | invalidTarget => .invalidTarget

/-- The details that are put into the message. -/
def details : Problem → List String
  | unsupportedSyntax what => [what]
  | unknownArrayMethod name => [name]
  | _ => []

end Problem

/-- A message at a place in a file. -/
structure Diagnostic where
  file : String
  start : Nat
  length : Nat
  text : String
  severity : Severity
  code : Nat
  deriving DecidableEq, Repr

namespace Diagnostic

def ofMessage (file : String) (start length : Nat) (m : Message) (args : List String) :
    Diagnostic :=
  ⟨file, start, length, Text.fill m.template args, m.severity, m.code⟩

/-- An error with a text of its own. -/
def error (file : String) (start length : Nat) (text : String) (code : Nat) : Diagnostic :=
  ⟨file, start, length, text, .error, code⟩

def isError (d : Diagnostic) : Bool := d.severity = .error

end Diagnostic

end ScriptToLua
