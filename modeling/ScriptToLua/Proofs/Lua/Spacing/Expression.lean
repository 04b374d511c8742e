import Mathlib
import ScriptToLua.Proofs.Lua.Spacing.Word

/-!
The words of a printed expression keep apart. `SpacesOut` goes through the code with the last word
before it and all that may come after it.
-/

namespace ScriptToLua.Lua

/-- The pieces can stand in a list. -/
def Separable (p : List Piece) : Prop :=
  ∀ m rest, m.Free → (∀ m', m'.StopsAt closers → Spaced m' rest) → Spaced m (p ++ rest)

theorem Separable.word {x : String} (hx : isName x) : Separable (word x) := by
  intro m rest hm hrest
  exact spaced_word (isWord_of_isName hx) (fun c _ _ => hm c) (hrest _ (Mode.word_stopsAt _).closers)

theorem Separable.separated {ps : List (List Piece)} (h : ∀ p ∈ ps, Separable p) :
    Separable (separated ps) := by
  induction ps with
  | nil =>
    intro m rest hm hrest
    exact hrest m (hm.stopsAt closers)
  | cons p ps ih =>
    have hp := h p List.mem_cons_self
    cases ps with
    | nil => exact hp
    | cons q ps =>
      intro m rest hm hrest
      have hqs := ih fun r hr => h r (List.mem_cons_of_mem p hr)
      rw [Lua.separated, List.append_assoc, List.append_assoc, List.append_assoc]
      · apply hp m _ hm
        intro m' hm'
        apply spaced_symbol (by decide) (hm' _ (by decide))
        exact hqs .blank rest Mode.blank_free hrest
      · nofun

namespace Code

/-- Whether the text of an expression begins with a minus sign. -/
def beginsMinus : Code → Bool
  | unary .neg _ => true
  | binary left op _ => !op.wrapsLeft left && left.beginsMinus
  | _ => false

/-- What a minus sign comes right before does not begin with one. -/
theorem beginsMinus_of_wraps {e : Code} (h : UnaryOp.wraps .neg e = false) :
    e.beginsMinus = false := by
  have hprec : UnaryOp.precedence ≤ e.precedence := by
    simp only [UnaryOp.wraps, Bool.or_eq_false_iff, decide_eq_false_iff_not, Nat.not_lt] at h
    exact h.1
  cases e with
  | unary op operand =>
    cases op with
    | neg => cases h
    | _ => rfl
  | binary left op right =>
    change UnaryOp.precedence ≤ op.precedence at hprec
    have hne := op.precedence_ne_unary
    have hle := op.precedence_le
    rw [beginsMinus, Bool.and_eq_false_imp]
    intro hwraps
    rw [Bool.not_eq_true', BinaryOp.wrapsLeft_eq_false_iff] at hwraps
    cases left with
    | unary op' operand =>
      have hleft : op.precedence ≤ UnaryOp.precedence := hwraps.1
      omega
    | binary l op' r =>
      obtain ⟨hle', hassoc⟩ := hwraps
      change op.precedence ≤ op'.precedence at hle'
      change op'.precedence = op.precedence → _ at hassoc
      have hpow : ∀ op : BinaryOp, UnaryOp.precedence < op.precedence → op.precedence = 14 := by
        intro op
        cases op <;> decide
      have hop := hpow op (by omega)
      have hop' := hpow op' (by omega)
      have hright : op.isRightAssociative := op.isRightAssociative_iff.2 (.inr hop)
      rw [hassoc (hop'.trans hop.symm)] at hright
      cases hright
    | _ => rfl
  | _ => rfl

/-- The word before does not go on with the expression. -/
def Follows (e : Code) (m : Mode) : Prop :=
  ∀ c, isExprStart c → (c = '-' → e.beginsMinus) → m.extend? c = none

theorem Follows.of_free {m : Mode} (h : m.Free) (e : Code) : e.Follows m := fun c _ _ => h c

theorem Follows.of_bracket (e : Code) : e.Follows (.symbol ['[']) := by
  intro c hc _
  have hbracket : c ≠ '[' ∧ c ≠ '=' := by
    constructor
    · rintro rfl
      cases hc
    · rintro rfl
      cases hc
  have hminus : "[" = "-" → c ≠ '-' := fun h => absurd h (by decide)
  exact Mode.symbol_extend (by decide) hminus (fun _ => hbracket) fun h => absurd h (by decide)

/-- What stands where the expression ends. -/
def ending (e : Code) : List Char := if e.isCallable then callers else closers

theorem ending_closers {e : Code} {m : Mode} (h : m.StopsAt callers) : m.StopsAt e.ending := by
  unfold ending
  split
  · exact h
  · exact h.closers

theorem closers_of_ending {e : Code} {m : Mode} (h : m.StopsAt e.ending) : m.StopsAt closers := by
  unfold ending at h
  split at h
  · exact h.closers
  · exact h

theorem closers_of_wrapped {parens : Bool} {e : Code} {m : Mode}
    (h : m.StopsAt (if parens then callers else e.ending)) : m.StopsAt closers := by
  cases parens with
  | true => exact Mode.StopsAt.closers h
  | false => exact closers_of_ending h

end Code

/-- The words of an expression keep apart. -/
def SpacesOut (e : Code) : Prop :=
  ∀ level m rest, e.Follows m → (∀ m', m'.StopsAt e.ending → Spaced m' rest) →
    Spaced m (e.pieces level ++ rest)

/-- The words of a field keep apart. -/
def Field.SpacesOut (f : Field) : Prop := ∀ level, Separable (f.pieces level)

namespace SpacesOut

variable {e left right operand t key callee receiver inner : Code} {x : String} {m : Mode}
  {rest : List Piece} {arguments body : List Code} {fields : List Field}

theorem separable (h : SpacesOut e) (level : Nat) : Separable (e.pieces level) := by
  intro m rest hm hrest
  apply h level m rest (Code.Follows.of_free hm e)
  exact fun m' hm' => hrest m' (Code.closers_of_ending hm')

theorem separable_listPieces (h : ∀ e ∈ arguments, SpacesOut e) (level : Nat) :
    ∀ p ∈ Code.listPieces level arguments, Separable p := by
  induction arguments with
  | nil => nofun
  | cons e es ih =>
    exact List.forall_mem_cons.2 ⟨(h e List.mem_cons_self).separable level,
      ih fun d hd => h d (List.mem_cons_of_mem e hd)⟩

theorem paren_pieces (h : SpacesOut e) (level : Nat) (hm : m.extend? '(' = none)
    (hrest : ∀ m', m'.StopsAt callers → Spaced m' rest) :
    Spaced m (symbol "(" ++ e.pieces level ++ symbol ")" ++ rest) := by
  rw [List.append_assoc, List.append_assoc]
  apply spaced_symbol (by decide) hm
  apply h.separable level _ _ (Mode.symbol_free (by decide))
  intro m' hm'
  apply spaced_symbol (by decide) (hm' _ (by decide))
  exact hrest _ ((Mode.symbol_free (by decide)).stopsAt callers)

/-- The operand of an operator. -/
theorem wrapped (h : SpacesOut e) {parens : Bool} (level : Nat)
    (hm : parens = false → e.Follows m) (hparen : parens = true → m.extend? '(' = none)
    (hrest : ∀ m', m'.StopsAt (if parens then callers else e.ending) → Spaced m' rest) :
    Spaced m (wrapIf parens (e.pieces level) ++ rest) := by
  cases parens with
  | false => exact h level m rest (hm rfl) hrest
  | true => exact h.paren_pieces level (hparen rfl) hrest

/-- An expression that is put in parentheses unless it can be called as it stands. -/
theorem callable (h : SpacesOut e) (level : Nat)
    (hm : ∀ c, isExprStart c → c ≠ '-' → m.extend? c = none)
    (hrest : ∀ m', m'.StopsAt callers → Spaced m' rest) :
    Spaced m (wrapIf (!e.isCallable) (e.pieces level) ++ rest) := by
  apply h.wrapped level
  · intro hc c hstart hminus
    apply hm c hstart
    intro heq
    have hbegins := hminus heq
    cases e <;> first | cases hbegins | cases hc
  · intro _
    exact hm '(' (by decide) (by decide)
  · intro m' hm'
    apply hrest
    cases hc : e.isCallable <;> simpa [hc, Code.ending] using hm'

theorem follows_of (h : e.Follows m) : ∀ c, isExprStart c → c ≠ '-' → m.extend? c = none :=
  fun c hstart hc => h c hstart fun heq => absurd heq hc

theorem of_word (hx : isWord x) (hpieces : ∀ level, e.pieces level = word x) : SpacesOut e := by
  intro level m rest hm hrest
  rw [hpieces]
  apply spaced_word hx
  · intro c hc _
    apply follows_of hm c
    · simp [isExprStart, hc]
    · rintro rfl
      cases hc
  · exact hrest _ (Code.ending_closers (Mode.word_stopsAt _))

theorem nil : SpacesOut .nil := of_word (by decide) fun _ => rfl

theorem boolean (b : Bool) : SpacesOut (.boolean b) := by
  cases b with
  | true => exact of_word (by decide) fun _ => rfl
  | false => exact of_word (by decide) fun _ => rfl

theorem name (hx : isName x) : SpacesOut (.name x) := of_word (isWord_of_isName hx) fun _ => rfl

theorem number {text : String} (h : isNumeral text.toList) : SpacesOut (.number text) := by
  intro level m rest hm hrest
  refine ⟨Token.numeral_isRead h, ?_, hrest _ (Mode.numeral_stopsAt _)⟩
  rcases isNumeral_first h with hdigit | hpoint
  · apply follows_of hm
    · simp [isExprStart, isNameChar_of_isDigit hdigit]
    · intro heq
      rw [heq] at hdigit
      cases hdigit
  · rw [hpoint]
    exact follows_of hm '.' (by decide) (by decide)

theorem string (value : String) : SpacesOut (.string value) := by
  intro level m rest hm hrest
  exact spaced_quoted value (follows_of hm '"' (by decide) (by decide)) hrest

theorem paren (h : SpacesOut inner) : SpacesOut (.paren inner) := by
  intro level m rest hm hrest
  exact h.paren_pieces level (follows_of hm '(' (by decide) (by decide)) hrest

/-- The key of an access. -/
theorem bracket_pieces (h : SpacesOut key) (level : Nat)
    (hrest : ∀ m', m'.StopsAt callers → Spaced m' rest) :
    Spaced (.symbol ['[']) (key.pieces level ++ (symbol "]" ++ rest)) := by
  apply h level _ _ (Code.Follows.of_bracket key)
  intro m' hm'
  apply spaced_symbol (by decide) (Code.closers_of_ending hm' _ (by decide))
  exact hrest _ ((Mode.symbol_free (by decide)).stopsAt callers)

theorem index (ht : SpacesOut t) (hk : SpacesOut key) : SpacesOut (.index t key) := by
  intro level m rest hm hrest
  rw [Code.pieces, List.append_assoc, List.append_assoc, List.append_assoc]
  apply ht.callable level (follows_of hm)
  intro m' hm'
  apply spaced_symbol (by decide) (hm' _ (by decide))
  exact hk.bracket_pieces level hrest

theorem member (ht : SpacesOut t) (x : String) : SpacesOut (.member t x) := by
  intro level m rest hm hrest
  rw [Code.pieces, List.append_assoc]
  apply ht.callable level (follows_of hm)
  intro m' hm'
  rw [memberPieces]
  split
  · next hx =>
    rw [List.append_assoc]
    apply spaced_symbol (by decide) (hm' _ (by decide))
    exact spaced_word (isWord_of_isName hx) (fun _ => Mode.symbol_name ".")
      (hrest _ (Mode.word_stopsAt _))
  · rw [List.append_assoc, List.append_assoc]
    apply spaced_symbol (by decide) (hm' _ (by decide))
    exact (string x).bracket_pieces level hrest

/-- The arguments of a call. -/
theorem arguments_pieces (h : ∀ e ∈ arguments, SpacesOut e) (level : Nat)
    (hm : m.extend? '(' = none) (hrest : ∀ m', m'.StopsAt callers → Spaced m' rest) :
    Spaced m (symbol "(" ++ (separated (Code.listPieces level arguments) ++ (symbol ")" ++ rest))) := by
  apply spaced_symbol (by decide) hm
  apply Separable.separated (separable_listPieces h level) _ _ (Mode.symbol_free (by decide))
  intro m' hm'
  apply spaced_symbol (by decide) (hm' _ (by decide))
  exact hrest _ ((Mode.symbol_free (by decide)).stopsAt callers)

theorem call (hc : SpacesOut callee) (ha : ∀ e ∈ arguments, SpacesOut e) :
    SpacesOut (.call callee arguments) := by
  intro level m rest hm hrest
  rw [Code.pieces, List.append_assoc, List.append_assoc, List.append_assoc]
  apply hc.callable level (follows_of hm)
  intro m' hm'
  exact arguments_pieces ha level (hm' _ (by decide)) hrest

theorem invoke (hr : SpacesOut receiver) (hx : isName x) (ha : ∀ e ∈ arguments, SpacesOut e) :
    SpacesOut (.invoke receiver x arguments) := by
  intro level m rest hm hrest
  rw [Code.pieces, List.append_assoc, List.append_assoc, List.append_assoc, List.append_assoc,
    List.append_assoc]
  apply hr.callable level (follows_of hm)
  intro m' hm'
  apply spaced_symbol (by decide) (hm' _ (by decide))
  exact spaced_word (isWord_of_isName hx) (fun _ => Mode.symbol_name ":")
    (arguments_pieces ha level (Mode.word_stopsAt _ _ (by decide)) hrest)

theorem binary (hl : SpacesOut left) (hr : SpacesOut right) (op : BinaryOp) :
    SpacesOut (.binary left op right) := by
  intro level m rest hm hrest
  simp only [Code.pieces, List.append_assoc]
  apply hl.wrapped level
  · intro hwraps c hstart hminus
    apply hm c hstart
    intro heq
    rw [Code.beginsMinus, hwraps, hminus heq]
    rfl
  · intro _
    exact follows_of hm '(' (by decide) (by decide)
  · intro m' _
    apply spaced_gap
    apply spaced_operator op
    intro m''
    apply spaced_gap
    apply hr.wrapped level
    · exact fun _ => Code.Follows.of_free Mode.blank_free right
    · exact fun _ => rfl
    · exact fun m' hm' => hrest m' (Code.closers_of_wrapped hm')

theorem unary (h : SpacesOut operand) (op : UnaryOp) : SpacesOut (.unary op operand) := by
  intro level m rest hm hrest
  rw [Code.pieces, List.append_assoc]
  have hafter : ∀ m', m'.StopsAt (if op.wraps operand then callers else operand.ending) →
      Spaced m' rest := fun m' hm' => hrest m' (Code.closers_of_wrapped hm')
  cases op with
  | not =>
    apply spaced_word (by decide)
    · intro c hc _
      apply follows_of hm c
      · simp [isExprStart, hc]
      · rintro rfl
        cases hc
    · apply h.wrapped level (fun _ => Code.Follows.of_free Mode.blank_free operand) (fun _ => rfl) hafter
  | len =>
    have hfree : (Mode.symbol "#".toList).Free := Mode.symbol_free (by decide)
    apply spaced_symbol (by decide) (follows_of hm '#' (by decide) (by decide))
    exact h.wrapped level (fun _ => Code.Follows.of_free hfree operand) (fun _ => hfree '(') hafter
  | neg =>
    apply spaced_symbol (by decide) (hm '-' (by decide) fun _ => rfl)
    apply h.wrapped level ?_ (fun _ => Mode.minus_extend (by decide)) hafter
    intro hwraps c _ hminus
    apply Mode.minus_extend
    intro heq
    have hbegins := hminus heq
    rw [Code.beginsMinus_of_wraps hwraps] at hbegins
    cases hbegins

theorem table (h : ∀ f ∈ fields, f.SpacesOut) : SpacesOut (.table fields) := by
  intro level m rest hm hrest
  have hitems : ∀ p ∈ Field.listPieces level fields, Separable p := by
    clear hm hrest
    induction fields with
    | nil => nofun
    | cons f fs ih =>
      exact List.forall_mem_cons.2 ⟨h f List.mem_cons_self level,
        ih fun g hg => h g (List.mem_cons_of_mem f hg)⟩
  rw [Code.pieces, List.append_assoc, List.append_assoc]
  apply spaced_symbol (by decide) (follows_of hm '\x7b' (by decide) (by decide))
  apply Separable.separated hitems _ _ (Mode.symbol_free (by decide))
  intro m' hm'
  apply spaced_symbol (by decide) (hm' _ (by decide))
  exact hrest _ ((Mode.symbol_free (by decide)).stopsAt closers)

end SpacesOut

namespace Field.SpacesOut

variable {value key : Code}

theorem item (hv : Lua.SpacesOut value) : Field.SpacesOut (.item value) := hv.separable

/-- A sign and the value after it. -/
theorem value_pieces (hv : Lua.SpacesOut value) (level : Nat) {m : Mode} {rest : List Piece}
    (hrest : ∀ m', m'.StopsAt closers → Spaced m' rest) :
    Spaced m (gap ++ (symbol "=" ++ (gap ++ (value.pieces level ++ rest)))) := by
  apply spaced_gap
  apply spaced_symbol (by decide) rfl
  apply spaced_gap
  exact hv.separable level _ _ Mode.blank_free hrest

theorem keyed (hk : Lua.SpacesOut key) (hv : Lua.SpacesOut value) :
    Field.SpacesOut (.keyed key value) := by
  intro level m rest hm hrest
  simp only [Field.pieces, List.append_assoc]
  apply spaced_symbol (by decide) (hm _)
  apply hk.bracket_pieces level
  exact fun m' _ => value_pieces hv level hrest

theorem named (hv : Lua.SpacesOut value) (x : String) : Field.SpacesOut (.named x value) := by
  intro level m rest hm hrest
  simp only [Field.pieces, List.append_assoc]
  rw [fieldPieces]
  split
  · next hx =>
    apply spaced_word (isWord_of_isName hx) (fun c _ _ => hm c)
    exact value_pieces hv level hrest
  · rw [List.append_assoc, List.append_assoc]
    apply spaced_symbol (by decide) (hm _)
    apply (Lua.SpacesOut.string x).bracket_pieces level
    exact fun m' _ => value_pieces hv level hrest

end Field.SpacesOut

end ScriptToLua.Lua
