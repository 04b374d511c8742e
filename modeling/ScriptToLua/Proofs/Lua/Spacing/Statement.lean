import Mathlib
import ScriptToLua.Proofs.Lua.Spacing.Expression

/-!
The words of printed statements and blocks keep apart, and so do those of all code that Lua's
grammar allows.
-/

namespace ScriptToLua.Lua

/-- The words of a statement keep apart. -/
def StatementSpacesOut (c : Code) : Prop :=
  ∀ level m rest, m.Free → (∀ m', Spaced m' rest) → Spaced m (c.pieces level ++ rest)

/-- The words of a block keep apart. -/
def BlockSpacesOut (body : List Code) : Prop :=
  ∀ level rest, (∀ m, Spaced m rest) → ∀ m, Spaced m (Code.linesPieces level body ++ rest)

section Statements

variable {x : String} {xs : List String} {m : Mode} {rest : List Piece} {body targets es : List Code}
  {c e : Code}

theorem names_separable (hxs : ∀ x ∈ xs, isName x) : Separable (separated (xs.map word)) := by
  apply Separable.separated
  intro p hp
  obtain ⟨x, hx, rfl⟩ := List.mem_map.1 hp
  exact Separable.word (hxs x hx)

theorem SpacesOut.exprs_separable (h : ∀ e ∈ es, SpacesOut e) (level : Nat) :
    Separable (separated (Code.listPieces level es)) :=
  Separable.separated (SpacesOut.separable_listPieces h level)

/-- The parameters of a function, its body and its `end`. -/
theorem BlockSpacesOut.function_pieces (h : BlockSpacesOut body) (hxs : ∀ x ∈ xs, isName x)
    (level : Nat) (hm : m.extend? '(' = none) (hrest : ∀ m', m'.StopsAt callers → Spaced m' rest) :
    Spaced m (parameterPieces xs ++
      (bodyPieces level body.isEmpty (Code.linesPieces (level + 1) body) ++ rest)) := by
  have hend : Spaced .blank (word "end" ++ rest) :=
    spaced_word (by decide) (fun _ _ _ => rfl) (hrest _ (Mode.word_stopsAt _))
  simp only [parameterPieces, List.append_assoc]
  apply spaced_symbol (by decide) hm
  apply names_separable hxs _ _ (Mode.symbol_free (by decide))
  intro m' hm'
  apply spaced_symbol (by decide) (hm' _ (by decide))
  rw [bodyPieces]
  cases body with
  | nil => exact spaced_gap hend
  | cons c body =>
    rw [List.append_assoc, List.isEmpty_cons, if_neg nofun, List.append_assoc]
    have hline : ∀ m', Spaced m' ([Piece.line level] ++ (word "end" ++ rest)) := fun _ => hend
    exact h (level + 1) _ hline _

theorem SpacesOut.function (h : BlockSpacesOut body) (hxs : ∀ x ∈ xs, isName x) :
    SpacesOut (.function xs body) := by
  intro level m rest hm hrest
  simp only [Code.pieces, List.append_assoc]
  apply spaced_word (by decide)
  · intro c hc _
    apply follows_of hm c
    · simp [isExprStart, hc]
    · rintro rfl
      cases hc
  · exact h.function_pieces hxs level (Mode.word_stopsAt _ _ (by decide))
      fun m' hm' => hrest m' hm'.closers

namespace StatementSpacesOut

/-- Where a word begins a statement. -/
theorem starts_word (hx : isWord x) (hm : m.Free) (h : Spaced (.word x.toList) rest) :
    Spaced m (word x ++ rest) := spaced_word hx (fun c _ _ => hm c) h

theorem localFunction (h : BlockSpacesOut body) (hx : isName x) (hxs : ∀ x ∈ xs, isName x) :
    StatementSpacesOut (.localFunction x xs body) := by
  intro level m rest hm hrest
  simp only [Code.pieces, List.append_assoc]
  apply starts_word (by decide) hm
  apply spaced_gap
  apply starts_word (by decide) Mode.blank_free
  apply spaced_gap
  apply starts_word (isWord_of_isName hx) Mode.blank_free
  exact h.function_pieces hxs level (Mode.word_stopsAt _ _ (by decide)) fun m' _ => hrest m'

theorem block (h : BlockSpacesOut body) : StatementSpacesOut (.block body) := by
  intro level m rest hm hrest
  simp only [Code.pieces, List.append_assoc]
  apply starts_word (by decide) hm
  apply h (level + 1)
  intro m'
  exact starts_word (by decide) Mode.blank_free (hrest _)

theorem locals (hxs : ∀ x ∈ xs, isName x) (h : ∀ e ∈ es, SpacesOut e) :
    StatementSpacesOut (.locals xs es) := by
  intro level m rest hm hrest
  cases es with
  | nil =>
    simp only [Code.pieces, List.append_assoc]
    apply starts_word (by decide) hm
    apply spaced_gap
    exact names_separable hxs _ _ Mode.blank_free fun m' _ => hrest m'
  | cons e es =>
    simp only [Code.pieces, List.append_assoc]
    apply starts_word (by decide) hm
    apply spaced_gap
    apply names_separable hxs _ _ Mode.blank_free
    intro m' _
    apply spaced_gap
    apply spaced_symbol (by decide) rfl
    apply spaced_gap
    exact SpacesOut.exprs_separable h level _ _ Mode.blank_free fun m' _ => hrest m'

theorem assign (ht : ∀ t ∈ targets, SpacesOut t) (h : ∀ e ∈ es, SpacesOut e) :
    StatementSpacesOut (.assign targets es) := by
  intro level m rest hm hrest
  simp only [Code.pieces, List.append_assoc]
  apply SpacesOut.exprs_separable ht level _ _ hm
  intro m' _
  apply spaced_gap
  apply spaced_symbol (by decide) rfl
  apply spaced_gap
  exact SpacesOut.exprs_separable h level _ _ Mode.blank_free fun m' _ => hrest m'

theorem perform (h : SpacesOut e) : StatementSpacesOut (.perform e) := by
  intro level m rest hm hrest
  exact h.separable level m rest hm fun m' _ => hrest m'

theorem returns (h : ∀ e ∈ es, SpacesOut e) : StatementSpacesOut (.returns es) := by
  intro level m rest hm hrest
  cases es with
  | nil => exact starts_word (by decide) hm (hrest _)
  | cons e es =>
    simp only [Code.pieces, List.append_assoc]
    apply starts_word (by decide) hm
    apply spaced_gap
    exact SpacesOut.exprs_separable h level _ _ Mode.blank_free fun m' _ => hrest m'

/-- A statement after the semicolon that may guard it. -/
theorem guarded (h : StatementSpacesOut c) (level : Nat) (hm : m.Free) (hrest : ∀ m', Spaced m' rest) :
    Spaced m (c.guardPieces ++ (c.pieces level ++ rest)) := by
  rcases Code.guardPieces_cases c with hguard | hguard
  · rw [hguard]
    exact h level m rest hm hrest
  · rw [hguard]
    apply spaced_symbol (by decide) (hm _)
    exact h level _ rest (Mode.symbol_free (by decide)) hrest

end StatementSpacesOut

theorem BlockSpacesOut.nil : BlockSpacesOut [] := fun _ _ hrest => hrest

theorem BlockSpacesOut.cons (hc : StatementSpacesOut c) (h : BlockSpacesOut body) :
    BlockSpacesOut (c :: body) := by
  intro level rest hrest m
  simp only [Code.linesPieces, List.append_assoc]
  exact hc.guarded level Mode.blank_free (h level rest hrest)

end Statements

mutual

theorem Code.spacesOut : (e : Code) → e.IsExpr .lua → SpacesOut e
  | .nil, _ => SpacesOut.nil
  | .boolean b, _ => SpacesOut.boolean b
  | .number _, h => SpacesOut.number h
  | .string value, _ => SpacesOut.string value
  | .name _, h => SpacesOut.name h
  | .index t key, h => SpacesOut.index (Code.spacesOut t h.1) (Code.spacesOut key h.2)
  | .member t x, h => SpacesOut.member (Code.spacesOut t h) x
  | .call callee arguments, h =>
    SpacesOut.call (Code.spacesOut callee h.1) (Code.spacesOutAll arguments h.2)
  | .invoke receiver _ arguments, h =>
    SpacesOut.invoke (Code.spacesOut receiver h.1) h.2.1 (Code.spacesOutAll arguments h.2.2)
  | .binary left op right, h =>
    SpacesOut.binary (Code.spacesOut left h.1) (Code.spacesOut right h.2) op
  | .unary op operand, h => SpacesOut.unary (Code.spacesOut operand h) op
  | .table fields, h => SpacesOut.table (Field.spacesOutAll fields h)
  | .function _ body, h => SpacesOut.function (Code.blockSpacesOut body h.2) h.1
  | .paren inner, h => SpacesOut.paren (Code.spacesOut inner h)

theorem Code.spacesOutAll : (es : List Code) → Code.AllExprs .lua es → ∀ e ∈ es, SpacesOut e
  | [], _ => nofun
  | e :: es, h => List.forall_mem_cons.2 ⟨Code.spacesOut e h.1, Code.spacesOutAll es h.2⟩

theorem Field.spacesOutAll : (fs : List Field) → Field.AllExprs .lua fs → ∀ f ∈ fs, f.SpacesOut
  | [], _ => nofun
  | .item value :: fs, h =>
    List.forall_mem_cons.2
      ⟨Field.SpacesOut.item (Code.spacesOut value h.1), Field.spacesOutAll fs h.2⟩
  | .named x value :: fs, h =>
    List.forall_mem_cons.2
      ⟨Field.SpacesOut.named (Code.spacesOut value h.1) x, Field.spacesOutAll fs h.2⟩
  | .keyed key value :: fs, h =>
    List.forall_mem_cons.2
      ⟨Field.SpacesOut.keyed (Code.spacesOut key h.1) (Code.spacesOut value h.2.1),
        Field.spacesOutAll fs h.2.2⟩

theorem Code.statementSpacesOut : (c : Code) → c.IsStatement .lua → StatementSpacesOut c
  | .locals _ values, h => StatementSpacesOut.locals h.2.1 (Code.spacesOutAll values h.2.2)
  | .localFunction _ _ body, h =>
    StatementSpacesOut.localFunction (Code.blockSpacesOut body h.2.2) h.1 h.2.1
  | .assign targets values, h =>
    StatementSpacesOut.assign (Code.spacesOutAll targets h.2.2.2.1)
      (Code.spacesOutAll values h.2.2.2.2)
  | .perform e, h => StatementSpacesOut.perform (Code.spacesOut e h.2)
  | .returns values, h => StatementSpacesOut.returns (Code.spacesOutAll values h)
  | .block body, h => StatementSpacesOut.block (Code.blockSpacesOut body h)

theorem Code.blockSpacesOut : (body : List Code) → Code.IsBlock .lua body → BlockSpacesOut body
  | [], _ => BlockSpacesOut.nil
  | c :: body, h =>
    BlockSpacesOut.cons (Code.statementSpacesOut c h.1) (Code.blockSpacesOut body h.2.2)

end

end ScriptToLua.Lua
