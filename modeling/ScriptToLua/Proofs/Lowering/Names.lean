import Mathlib
import ScriptToLua.Proofs.Lowering.Reread
import ScriptToLua.Proofs.Lua.Words

/-!
The names in lowered chunks and in their texts, `lowerFile_names`: where what the source names are
identifiers, all names are names of Lua, the text has no other words but keywords, and members and fields
with other names are strings in brackets.
-/

namespace ScriptToLua

open Lua (Code Words isName)
open Source (Arena NodeId)

/-- What the nodes name are identifiers. -/
def Source.Arena.Named (a : Arena) : Prop := ∀ e ∈ a.entries.toList, ∀ x ∈ e.1.names, isIdentifier x

instance (a : Arena) : Decidable a.Named := by unfold Source.Arena.Named; infer_instance

/-- The names of Lua, and any text for a numeral. -/
def Lua.Words.named : Words := ⟨fun x => isName x, fun _ => True⟩

namespace Lowering

theorem serves_named : Serves .named where
  added := serves_lua.added
  method := serves_lua.method
  one := trivial
  index _ _ := trivial
  successor _ _ _ _ := trivial

theorem Covers.named {a : Arena} (h : a.Named) : Covers .named a :=
  { serves_named with
    names := fun _ _ hn x hx => by
      obtain ⟨s, hs⟩ := mem_of_get? hn
      exact Lua.isName_rename (h _ hs x hx)
    numerals := fun _ _ _ _ _ => trivial }

end Lowering

/-- Where the source names identifiers only, all variables, functions, parameters and methods of the
chunk have names of Lua, and the words of its text are such names and keywords. The text is the same in any
layout when members and fields with other names are written as strings in brackets, and then no member or
field has another name. -/
theorem lowerFile_names {arena : Arena} (h : arena.Named) (root : NodeId) (store : TypeStore)
    (facts : TypeFacts) (fold : Bool) :
    let chunk := (lowerFile arena root store facts fold).1
    (∀ x ∈ Code.namesAll false chunk, isName x) ∧ Lua.WellWorded (Lua.chunkPieces chunk) ∧
      (∀ l, Lua.printChunk l chunk = Lua.printChunk l (Code.bracketedAll chunk)) ∧
      ∀ x ∈ Code.namesAll true (Code.bracketedAll chunk), isName x := by
  intro chunk
  have hblock : Code.IsBlock .named chunk :=
    lowerFile_isBlock (Lowering.Covers.named h) root store facts fold
  have hnames : ∀ x ∈ Code.namesAll false chunk, isName x := Lua.Code.IsBlock.names chunk hblock
  exact ⟨hnames, Lua.wellWorded_chunkPieces hnames,
    fun l => (Lua.printChunk_bracketed l chunk).symm, Lua.isName_bracketedAll chunk hnames⟩

/-- `function été(end, $) { e.not = { "a-b": end, ok: $ }; }` -/
def foreignNames : Arena :=
  ⟨#[(.identifier "e", ⟨24, 25⟩), (.property ⟨0⟩ "not", ⟨24, 29⟩), (.identifier "end", ⟨41, 44⟩),
    (.identifier "$", ⟨50, 51⟩), (.object [(.string "a-b", ⟨2⟩), (.name "ok", ⟨3⟩)], ⟨32, 53⟩),
    (.assign ⟨1⟩ .plain ⟨4⟩, ⟨24, 53⟩), (.expressionStatement ⟨5⟩, ⟨24, 54⟩),
    (.functionDecl "été" ["end", "$"] [⟨6⟩], ⟨0, 56⟩), (.file "main.ts" [⟨7⟩], ⟨0, 56⟩)]⟩

theorem lowerFile_names_of_foreign :
    let chunk := (lowerFile foreignNames ⟨8⟩ .initial .empty true).1
    foreignNames.Named ∧ (∀ x ∈ Code.namesAll false chunk, isName x) ∧
      Lua.WellWorded (Lua.chunkPieces chunk) ∧
      Code.namesAll true chunk =
        ["_E9t_E9", "____end", "_24", "e", "not", "a-b", "____end", "ok", "_24"] ∧
      Lua.printChunk {} chunk = Lua.printChunk {} (Code.bracketedAll chunk) ∧
      Lua.printChunk {} chunk =
        "local function _E9t_E9(____end, _24)\n    e[\"not\"] = \x7b[\"a-b\"] = ____end, ok = _24\x7d\nend\n" := by
  intro chunk
  have h : foreignNames.Named := by decide
  obtain ⟨hnames, hwords, htext, -⟩ := lowerFile_names h ⟨8⟩ .initial .empty true
  exact ⟨h, hnames, hwords, by cbv, htext {}, by cbv⟩

end ScriptToLua
