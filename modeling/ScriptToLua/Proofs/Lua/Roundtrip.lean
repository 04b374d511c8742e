import Mathlib
import ScriptToLua.Proofs.Lua.Rereading.Block
import ScriptToLua.Proofs.Lua.Spacing.Statement

/-!
Printed code is parsed as the code that it was printed from.
-/

namespace ScriptToLua.Lua

theorem printedChunk_spaced {chunk : List Code} (h : Code.IsBlock .lua chunk) :
    Spaced .blank (chunkPieces chunk) := by
  induction chunk with
  | nil => trivial
  | cons c chunk ih =>
    rw [chunkPieces, List.append_assoc, List.append_assoc]
    apply (Code.statementSpacesOut c h.1).guarded 0 Mode.blank_free
    exact fun _ => ih h.2.2

theorem readTokens_chunkPieces (chunk : List Code) :
    readTokens (chunkPieces chunk) = readTokens (Code.linesPieces 0 chunk) := by
  induction chunk with
  | nil => rfl
  | cons c chunk ih => simp [chunkPieces, Code.linesPieces, ih]

/-- The text of an expression is parsed as the expression with the parentheses that are printed. -/
theorem parseExpr_print_eq_printed {e : Code} (h : e.IsExpr .lua) (ha : e.KeepsApart) :
    parseExpr e.print = some e.printed := by
  have hspaced : Spaced .blank (e.pieces 0) := by
    have hs := Code.spacesOut e h 0 .blank [] (Code.Follows.of_free Mode.blank_free e)
      fun _ _ => trivial
    rwa [List.append_nil] at hs
  have hread := (Code.rereads e h ha).whole 0 [] nofun
  rw [parseExpr, Code.print, lex_render {} hspaced]
  have hexpr : readExpr (roomFor (readTokens (e.pieces 0))) 0 (readTokens (e.pieces 0)) =
      some (e.printed, []) := by
    have hroom := hread (roomFor (readTokens (e.pieces 0))) (by rw [roomFor]; omega)
    rwa [List.append_nil] at hroom
  change complete (readExpr (roomFor (readTokens (e.pieces 0))) 0 (readTokens (e.pieces 0))) = _
  rw [hexpr]
  rfl

theorem parseChunk_printChunk_eq_printed (l : Layout) {chunk : List Code} (h : Code.IsBlock .lua chunk)
    (ha : Code.BlockKeepsApart chunk) :
    parseChunk (printChunk l chunk) = some (Code.printedAll chunk) := by
  have hread := Code.blockRereads chunk h ha 0 [] rfl
  rw [parseChunk, printChunk, lex_render l (printedChunk_spaced h), readTokens_chunkPieces]
  have hblock : readBlock (roomFor (readTokens (Code.linesPieces 0 chunk)))
      (readTokens (Code.linesPieces 0 chunk)) = some (Code.printedAll chunk, []) := by
    have hroom := hread (roomFor (readTokens (Code.linesPieces 0 chunk))) (by rw [roomFor]; omega)
    rwa [List.append_nil] at hroom
  change complete (readBlock (roomFor (readTokens (Code.linesPieces 0 chunk)))
    (readTokens (Code.linesPieces 0 chunk))) = _
  rw [hblock]
  rfl

/-- The text of an expression is parsed as the expression, but for parentheses and the notation of
members. String literals are compared as they are printed. -/
theorem parseExpr_print {e : Code} (h : e.IsFormula) :
    (parseExpr e.print).map (Code.normal id) = some (e.normal literalText) := by
  obtain ⟨hexpr, happart⟩ := Code.IsFormula.isExpr e h
  rw [parseExpr_print_eq_printed hexpr happart, Option.map_some, Code.normal_printed]

/-- Reads `-(a .. b) ^ 2 * (c - "d")["e-f"]`. -/
theorem parseExpr_print_of_nested :
    let e : Code := .binary
      (.unary .neg (.binary (.binary (.name "a") .concat (.name "b")) .pow (.number "2"))) .mul
      (.member (.binary (.name "c") .sub (.string "d")) "e-f")
    e.IsFormula ∧ (parseExpr e.print).map (Code.normal id) = some (e.normal literalText) := by
  intro e
  have he : e.IsFormula := by
    simp only [e, Code.IsFormula]
    decide
  exact ⟨he, parseExpr_print he⟩

end ScriptToLua.Lua
