import ScriptToLua.Lowering.Statement
import ScriptToLua.Lua.Printer
import ScriptToLua.Options.Settings

/-!
From the nodes of a source file to the text of a Lua chunk.
-/

namespace ScriptToLua

open Source (Arena NodeId)

/-- A lowered source file. -/
structure Output where
  lua : String
  chunk : List Lua.Code
  diagnostics : List Diagnostic

def Output.hasErrors (o : Output) : Bool := o.diagnostics.any Diagnostic.isError

/-- The name of the file under `root`, if there is a file. -/
def fileName (arena : Arena) (root : NodeId) : String :=
  match arena.get? root with
  | some (.file name _) => name
  | _ => ""

/-- The chunk for the tree under `root` and what there is to report about it, in order. -/
def lowerFile (arena : Arena) (root : NodeId) (store : TypeStore) (facts : TypeFacts)
    (fold : Bool) : List Lua.Code × List Diagnostic :=
  let context : Lowering.Context := ⟨arena, facts, fold, fileName arena root⟩
  let (chunk, state) := ((Lowering.chunk root).run context).run ⟨store, [], false⟩
  (chunk, state.reported.reverse)

/-- Lowers and prints the tree under `root`. -/
def compile (arena : Arena) (root : NodeId) (store : TypeStore) (facts : TypeFacts)
    (settings : Settings) : Output :=
  let (chunk, diagnostics) := lowerFile arena root store facts settings.foldConstantIndices
  ⟨Lua.printChunk settings.layout chunk, chunk, diagnostics⟩

/-- Why there are no settings. -/
inductive SettingsError where
  /-- The file is missing or is no text. -/
  | unreadable
  | invalid (flaw : Json.Flaw)
  deriving DecidableEq, Repr

def SettingsError.message (path : String) : SettingsError → String
  | unreadable => "failed to read tsconfig: " ++ path
  | invalid _ => "failed to parse tsconfig: " ++ path

/-- The settings in the bytes of an options file. -/
def Settings.ofBytes (file : Option ByteArray) : Except SettingsError Settings :=
  match file.bind String.fromUTF8? with
  | none => .error .unreadable
  | some text => (Settings.ofString text).mapError .invalid

/-- Lowers and prints the tree under `root` with the settings of an options file. -/
def compileWith (file : Option ByteArray) (arena : Arena) (root : NodeId) (store : TypeStore)
    (facts : TypeFacts) : Except SettingsError Output := do
  return compile arena root store facts (← Settings.ofBytes file)

end ScriptToLua
