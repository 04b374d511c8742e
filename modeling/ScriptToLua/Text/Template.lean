/-!
Message templates. The arguments are put in one after the other: the first argument takes the place
of every `{0}`, then the second the place of every `{1}` in the result, and so on.
-/

namespace ScriptToLua.Text

/-- Replaces `pattern` from left to right after passing over `skip` characters of an occurrence that
has been replaced already. -/
def replaceFrom (pattern replacement : List Char) : (skip : Nat) → List Char → List Char
  | _, [] => []
  | skip + 1, _ :: rest => replaceFrom pattern replacement skip rest
  | 0, c :: rest =>
    if pattern.isPrefixOf (c :: rest) then
      replacement ++ replaceFrom pattern replacement (pattern.length - 1) rest
    else c :: replaceFrom pattern replacement 0 rest

/-- Replaces every occurrence of a non-empty `pattern`, from left to right and without overlap. -/
def replaceAll (pattern replacement cs : List Char) : List Char :=
  replaceFrom pattern replacement 0 cs

/-- The mark for the argument at position `i`. -/
def placeholder (i : Nat) : List Char := '{' :: Nat.toDigits 10 i ++ ['}']

/-- Puts in the arguments for the positions from `i` on. -/
def fillFrom (i : Nat) (cs : List Char) : List String → List Char
  | [] => cs
  | arg :: args => fillFrom (i + 1) (replaceAll (placeholder i) arg.toList cs) args

/-- The template with its arguments put in. -/
def fill (template : String) (args : List String) : String :=
  String.ofList (fillFrom 0 template.toList args)

end ScriptToLua.Text
