import ScriptToLua.Text.Blank

/-!
Where log output is asked for and in which form.
-/

namespace ScriptToLua

inductive LogFormat where
  | text | tree | json
  deriving DecidableEq, Repr

def LogFormat.name : LogFormat → String
  | text => "text"
  | tree => "tree"
  | json => "json"

/-- The format that a word asks for, in any case and with white space around it; any other word asks
for plain text. -/
def LogFormat.ofString (word : String) : LogFormat :=
  match Text.keyword word with
  | "tree" => tree
  | "json" => json
  | _ => text

structure LogSettings where
  directives : String
  format : LogFormat
  deriving DecidableEq, Repr

/-- The settings that follow from the directives for this program, those for every program, and the
name of a format. Without directives there are no settings. -/
def LogSettings.resolve (own general format : Option String) : Option LogSettings :=
  (own.or general).map fun directives =>
    ⟨directives, (format.map LogFormat.ofString).getD .text⟩

end ScriptToLua
