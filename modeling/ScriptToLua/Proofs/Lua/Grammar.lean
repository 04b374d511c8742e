import Mathlib
import ScriptToLua.Proofs.Lua.Parser

/-!
Which code is an expression, a statement or a block, what its text looks like at the ends, and when
two pieces of code say the same.
-/

namespace ScriptToLua.Lua

mutual

/-- Expressions of names, literals, accesses, calls, operators, tables and parentheses. -/
def Code.IsFormula : Code → Prop
  | .nil => True
  | .boolean _ => True
  | .number text => isNumeral text.toList
  | .string _ => True
  | .name x => isName x
  | .index table key => table.IsFormula ∧ key.IsFormula
  | .member table _ => table.IsFormula
  | .call callee arguments => callee.IsFormula ∧ Code.AllFormulas arguments
  | .invoke receiver method arguments =>
    receiver.IsFormula ∧ isName method ∧ Code.AllFormulas arguments
  | .binary left _ right => left.IsFormula ∧ right.IsFormula
  | .unary _ operand => operand.IsFormula
  | .table fields => Field.AllFormulas fields
  | .paren inner => inner.IsFormula
  | _ => False

def Code.AllFormulas : List Code → Prop
  | [] => True
  | c :: rest => c.IsFormula ∧ Code.AllFormulas rest

def Field.AllFormulas : List Field → Prop
  | [] => True
  | .item value :: rest => value.IsFormula ∧ Field.AllFormulas rest
  | .named _ value :: rest => value.IsFormula ∧ Field.AllFormulas rest
  | .keyed key value :: rest => key.IsFormula ∧ value.IsFormula ∧ Field.AllFormulas rest

end

/-- Which texts may stand as names and as numerals. -/
structure Words where
  name : String → Prop
  numeral : String → Prop

namespace Words

/-- The names and the unsigned numerals of Lua. -/
def lua : Words := ⟨fun x => isName x, fun text => isNumeral text.toList⟩

/-- Any text. -/
def any : Words := ⟨fun _ => True, fun _ => True⟩

end Words

mutual

/-- Expressions, also with functions in them. -/
@[grind =]
def Code.IsExpr (w : Words) : Code → Prop
  | .nil => True
  | .boolean _ => True
  | .number text => w.numeral text
  | .string _ => True
  | .name x => w.name x
  | .index table key => table.IsExpr w ∧ key.IsExpr w
  | .member table _ => table.IsExpr w
  | .call callee arguments => callee.IsExpr w ∧ Code.AllExprs w arguments
  | .invoke receiver method arguments => receiver.IsExpr w ∧ w.name method ∧ Code.AllExprs w arguments
  | .binary left _ right => left.IsExpr w ∧ right.IsExpr w
  | .unary _ operand => operand.IsExpr w
  | .table fields => Field.AllExprs w fields
  | .function parameters body => (∀ x ∈ parameters, w.name x) ∧ Code.IsBlock w body
  | .paren inner => inner.IsExpr w
  | _ => False

def Code.AllExprs (w : Words) : List Code → Prop
  | [] => True
  | c :: rest => c.IsExpr w ∧ Code.AllExprs w rest

def Field.AllExprs (w : Words) : List Field → Prop
  | [] => True
  | .item value :: rest => value.IsExpr w ∧ Field.AllExprs w rest
  | .named _ value :: rest => value.IsExpr w ∧ Field.AllExprs w rest
  | .keyed key value :: rest => key.IsExpr w ∧ value.IsExpr w ∧ Field.AllExprs w rest

def Code.IsStatement (w : Words) : Code → Prop
  | .locals names values => names ≠ [] ∧ (∀ x ∈ names, w.name x) ∧ Code.AllExprs w values
  | .localFunction x parameters body =>
    w.name x ∧ (∀ x ∈ parameters, w.name x) ∧ Code.IsBlock w body
  | .assign targets values =>
    targets ≠ [] ∧ (∀ c ∈ targets, c.isTarget) ∧ values ≠ [] ∧ Code.AllExprs w targets ∧
      Code.AllExprs w values
  | .perform expression => expression.isCall ∧ expression.IsExpr w
  | .returns values => Code.AllExprs w values
  | .block body => Code.IsBlock w body
  | _ => False

/-- Statements of which only the last one returns. -/
def Code.IsBlock (w : Words) : List Code → Prop
  | [] => True
  | c :: rest => c.IsStatement w ∧ (c.isReturn → rest = []) ∧ Code.IsBlock w rest

end

mutual

/-- Whether an expression or a statement ends in something that could be called. -/
def Code.endsOpen : Code → Bool
  | .name _ => true
  | .index .. => true
  | .member .. => true
  | .call .. => true
  | .invoke .. => true
  | .paren _ => true
  | .binary _ op right => op.wrapsRight right || right.endsOpen
  | .unary op operand => op.wraps operand || operand.endsOpen
  | .locals _ values => Code.lastEndsOpen values
  | .assign _ values => Code.lastEndsOpen values
  | .perform expression => expression.endsOpen
  | _ => false

/-- Whether the last code of a list does. -/
def Code.lastEndsOpen : List Code → Bool
  | [] => false
  | [c] => c.endsOpen
  | _ :: rest => Code.lastEndsOpen rest

end

/-- Whether the text of a statement begins with a parenthesis. A semicolon comes before that of a
call. -/
def Code.startsWithParen : Code → Bool
  | assign (target :: _) _ => target.opensWithParen
  | _ => false

theorem Code.guardPieces_cases (c : Code) : c.guardPieces = [] ∨ c.guardPieces = Lua.symbol ";" := by
  cases c with
  | perform e =>
    rw [Code.guardPieces]
    split
    · exact .inr rfl
    · exact .inl rfl
  | _ => exact .inl rfl

mutual

/-- Nowhere does a statement that begins with a parenthesis follow one that ends in something that
could be called. -/
@[grind =]
def Code.KeepsApart : Code → Prop
  | .index table key => table.KeepsApart ∧ key.KeepsApart
  | .member table _ => table.KeepsApart
  | .call callee arguments => callee.KeepsApart ∧ Code.AllKeepApart arguments
  | .invoke receiver _ arguments => receiver.KeepsApart ∧ Code.AllKeepApart arguments
  | .binary left _ right => left.KeepsApart ∧ right.KeepsApart
  | .unary _ operand => operand.KeepsApart
  | .table fields => Field.AllKeepApart fields
  | .function _ body => Code.BlockKeepsApart body
  | .paren inner => inner.KeepsApart
  | .locals _ values => Code.AllKeepApart values
  | .localFunction _ _ body => Code.BlockKeepsApart body
  | .assign targets values => Code.AllKeepApart targets ∧ Code.AllKeepApart values
  | .perform expression => expression.KeepsApart
  | .returns values => Code.AllKeepApart values
  | .block body => Code.BlockKeepsApart body
  | _ => True

def Code.AllKeepApart : List Code → Prop
  | [] => True
  | c :: rest => c.KeepsApart ∧ Code.AllKeepApart rest

def Field.AllKeepApart : List Field → Prop
  | [] => True
  | .item value :: rest => value.KeepsApart ∧ Field.AllKeepApart rest
  | .named _ value :: rest => value.KeepsApart ∧ Field.AllKeepApart rest
  | .keyed key value :: rest => key.KeepsApart ∧ value.KeepsApart ∧ Field.AllKeepApart rest

def Code.BlockKeepsApart : List Code → Prop
  | [] => True
  | c :: rest =>
    c.KeepsApart ∧ (∀ d ∈ rest.head?, ¬(c.endsOpen ∧ d.startsWithParen)) ∧
      Code.BlockKeepsApart rest

end

namespace BinaryOp

variable {op : BinaryOp} {left right : Code}

theorem precedence_pos (op : BinaryOp) : 0 < op.precedence := by cases op <;> decide

theorem precedence_le (op : BinaryOp) : op.precedence ≤ 14 := by cases op <;> decide

theorem precedence_ne_unary (op : BinaryOp) : op.precedence ≠ UnaryOp.precedence := by
  cases op <;> decide

theorem isRightAssociative_iff (op : BinaryOp) :
    op.isRightAssociative ↔ op.precedence = 9 ∨ op.precedence = 14 := by
  cases op <;> decide

theorem wrapsRight_eq_false_iff : op.wrapsRight right = false ↔
    op.precedence ≤ right.precedence ∧
      (right.precedence = op.precedence → op.isRightAssociative) := by
  simp [BinaryOp.wrapsRight]

theorem wrapsLeft_eq_false_iff : op.wrapsLeft left = false ↔
    op.precedence ≤ left.precedence ∧
      (left.precedence = op.precedence → op.isRightAssociative = false) := by
  simp [BinaryOp.wrapsLeft]

end BinaryOp

def Code.parenIf (parens : Bool) (c : Code) : Code := if parens then paren c else c

mutual

/-- The code with the parentheses that are printed, as it is read again: string literals by their
text, and what is printed in brackets in brackets. -/
def Code.printed : Code → Code
  | .string value => .string (literalText value)
  | .index table key => .index (.parenIf (!table.isCallable) table.printed) key.printed
  | .member table x =>
    let table := .parenIf (!table.isCallable) table.printed
    if isName x then .member table x else .index table (.string (literalText x))
  | .call callee arguments =>
    .call (.parenIf (!callee.isCallable) callee.printed) (Code.printedAll arguments)
  | .invoke receiver method arguments =>
    .invoke (.parenIf (!receiver.isCallable) receiver.printed) method (Code.printedAll arguments)
  | .binary left op right =>
    .binary (.parenIf (op.wrapsLeft left) left.printed) op
      (.parenIf (op.wrapsRight right) right.printed)
  | .unary op operand => .unary op (.parenIf (op.wraps operand) operand.printed)
  | .table fields => .table (Field.printedAll fields)
  | .function parameters body => .function parameters (Code.printedAll body)
  | .paren inner => .paren inner.printed
  | .locals names values => .locals names (Code.printedAll values)
  | .localFunction x parameters body => .localFunction x parameters (Code.printedAll body)
  | .assign targets values => .assign (Code.printedAll targets) (Code.printedAll values)
  | .perform expression => .perform expression.printed
  | .returns values => .returns (Code.printedAll values)
  | .block body => .block (Code.printedAll body)
  | c => c

def Code.printedAll : List Code → List Code
  | [] => []
  | c :: rest => c.printed :: Code.printedAll rest

def Field.printed : Field → Field
  | .item value => .item value.printed
  | .named x value =>
    if isName x then .named x value.printed else .keyed (.string (literalText x)) value.printed
  | .keyed key value => .keyed key.printed value.printed

def Field.printedAll : List Field → List Field
  | [] => []
  | f :: rest => f.printed :: Field.printedAll rest

end

mutual

/-- The code without parentheses, with every member and named field as a bracketed string. `text`
says how the strings are compared. -/
@[grind =]
def Code.normal (text : String → String) : Code → Code
  | .string value => .string (text value)
  | .index table key => .index (table.normal text) (key.normal text)
  | .member table x => .index (table.normal text) (.string (text x))
  | .call callee arguments => .call (callee.normal text) (Code.normalAll text arguments)
  | .invoke receiver method arguments =>
    .invoke (receiver.normal text) method (Code.normalAll text arguments)
  | .binary left op right => .binary (left.normal text) op (right.normal text)
  | .unary op operand => .unary op (operand.normal text)
  | .table fields => .table (Field.normalAll text fields)
  | .function parameters body => .function parameters (Code.normalAll text body)
  | .paren inner => inner.normal text
  | .locals names values => .locals names (Code.normalAll text values)
  | .localFunction x parameters body => .localFunction x parameters (Code.normalAll text body)
  | .assign targets values => .assign (Code.normalAll text targets) (Code.normalAll text values)
  | .perform expression => .perform (expression.normal text)
  | .returns values => .returns (Code.normalAll text values)
  | .block body => .block (Code.normalAll text body)
  | c => c

def Code.normalAll (text : String → String) : List Code → List Code
  | [] => []
  | c :: rest => c.normal text :: Code.normalAll text rest

def Field.normalAll (text : String → String) : List Field → List Field
  | [] => []
  | .item value :: rest => .item (value.normal text) :: Field.normalAll text rest
  | .named x value :: rest =>
    .keyed (.string (text x)) (value.normal text) :: Field.normalAll text rest
  | .keyed key value :: rest =>
    .keyed (key.normal text) (value.normal text) :: Field.normalAll text rest

end

theorem Code.normal_parenIf (text : String → String) (parens : Bool) (c : Code) :
    (Code.parenIf parens c).normal text = c.normal text := by
  cases parens <;> rfl

theorem isNameChar_of_isName {x : String} (h : isName x) : ∀ c ∈ x.toList, isNameChar c := by
  unfold isName at h
  split at h
  · cases h
  · next c cs heq =>
    simp only [Bool.and_eq_true, List.all_eq_true] at h
    intro d hd
    rw [heq] at hd
    rcases List.mem_cons.1 hd with rfl | hd
    · exact h.1.1.2
    · exact h.1.2 d hd

theorem literalText_of_isName {x : String} (h : isName x) : literalText x = x := by
  have hescape {c : Char} (hc : isNameChar c) : escape c = [c] := by
    have hplain : ['\\', '"', '\n', '\r', '\t', '\x00'].all fun d => !isNameChar d := by decide
    have hne {d : Char} (hd : d ∈ ['\\', '"', '\n', '\r', '\t', '\x00']) : c ≠ d := by
      rintro rfl
      have hc' := List.all_eq_true.1 hplain c hd
      rw [hc] at hc'
      cases hc'
    simp only [escape, hne (by decide : '\\' ∈ _), hne (by decide : '"' ∈ _),
      hne (by decide : '\n' ∈ _), hne (by decide : '\r' ∈ _), hne (by decide : '\t' ∈ _),
      hne (by decide : '\x00' ∈ _), if_false]
  have hflat (cs : List Char) (hcs : ∀ c ∈ cs, isNameChar c) : cs.flatMap escape = cs := by
    induction cs with
    | nil => rfl
    | cons c cs ih =>
      rw [List.flatMap_cons, hescape (hcs c List.mem_cons_self),
        ih fun d hd => hcs d (List.mem_cons_of_mem c hd)]
      rfl
  rw [literalText, hflat x.toList (isNameChar_of_isName h), String.ofList_toList]

mutual

/-- What is printed says the same. -/
theorem Code.normal_printed : (c : Code) → c.printed.normal id = c.normal literalText
  | .nil | .boolean _ | .number _ | .name _ => rfl
  | .string _ => rfl
  | .index table key => by
    rw [Code.printed, Code.normal, Code.normal, Code.normal_parenIf, Code.normal_printed table,
      Code.normal_printed key]
  | .member table x => by
    have ht := Code.normal_printed table
    rw [Code.printed]
    split
    · next hx =>
      rw [Code.normal, Code.normal, Code.normal_parenIf, ht, literalText_of_isName hx]
      rfl
    · rw [Code.normal, Code.normal, Code.normal_parenIf, ht]
      rfl
  | .call callee arguments => by
    rw [Code.printed, Code.normal, Code.normal, Code.normal_parenIf, Code.normal_printed callee,
      Code.normalAll_printedAll arguments]
  | .invoke receiver method arguments => by
    rw [Code.printed, Code.normal, Code.normal, Code.normal_parenIf, Code.normal_printed receiver,
      Code.normalAll_printedAll arguments]
  | .binary left op right => by
    rw [Code.printed, Code.normal, Code.normal, Code.normal_parenIf, Code.normal_parenIf,
      Code.normal_printed left, Code.normal_printed right]
  | .unary op operand => by
    rw [Code.printed, Code.normal, Code.normal, Code.normal_parenIf, Code.normal_printed operand]
  | .table fields => by
    rw [Code.printed, Code.normal, Code.normal, Field.normalAll_printedAll fields]
  | .function parameters body => by
    rw [Code.printed, Code.normal, Code.normal, Code.normalAll_printedAll body]
  | .paren inner => by
    rw [Code.printed, Code.normal, Code.normal, Code.normal_printed inner]
  | .locals names values => by
    rw [Code.printed, Code.normal, Code.normal, Code.normalAll_printedAll values]
  | .localFunction x parameters body => by
    rw [Code.printed, Code.normal, Code.normal, Code.normalAll_printedAll body]
  | .assign targets values => by
    rw [Code.printed, Code.normal, Code.normal, Code.normalAll_printedAll targets,
      Code.normalAll_printedAll values]
  | .perform expression => by
    rw [Code.printed, Code.normal, Code.normal, Code.normal_printed expression]
  | .returns values => by
    rw [Code.printed, Code.normal, Code.normal, Code.normalAll_printedAll values]
  | .block body => by
    rw [Code.printed, Code.normal, Code.normal, Code.normalAll_printedAll body]

theorem Code.normalAll_printedAll :
    (cs : List Code) → Code.normalAll id (Code.printedAll cs) = Code.normalAll literalText cs
  | [] => rfl
  | c :: rest => by
    rw [Code.printedAll, Code.normalAll, Code.normalAll, Code.normal_printed c,
      Code.normalAll_printedAll rest]

theorem Field.normalAll_printedAll :
    (fs : List Field) → Field.normalAll id (Field.printedAll fs) = Field.normalAll literalText fs
  | [] => rfl
  | .item value :: rest => by
    rw [Field.printedAll, Field.printed, Field.normalAll, Field.normalAll,
      Code.normal_printed value, Field.normalAll_printedAll rest]
  | .named x value :: rest => by
    have hv := Code.normal_printed value
    have hr := Field.normalAll_printedAll rest
    rw [Field.printedAll, Field.printed]
    split
    · next hx =>
      rw [Field.normalAll, Field.normalAll, hv, hr, literalText_of_isName hx]
      rfl
    · rw [Field.normalAll, Field.normalAll, hv, hr]
      rfl
  | .keyed key value :: rest => by
    rw [Field.printedAll, Field.printed, Field.normalAll, Field.normalAll, Code.normal_printed key,
      Code.normal_printed value, Field.normalAll_printedAll rest]

end

mutual

theorem Code.IsFormula.isExpr : (c : Code) → c.IsFormula → c.IsExpr .lua ∧ c.KeepsApart
  | .nil, _ | .boolean _, _ | .string _, _ => ⟨trivial, trivial⟩
  | .number _, h | .name _, h => ⟨h, trivial⟩
  | .index table key, h => by
    obtain ⟨ht, ht'⟩ := Code.IsFormula.isExpr table h.1
    obtain ⟨hk, hk'⟩ := Code.IsFormula.isExpr key h.2
    exact ⟨⟨ht, hk⟩, ht', hk'⟩
  | .member table _, h => Code.IsFormula.isExpr table h
  | .call callee arguments, h => by
    obtain ⟨hc, hc'⟩ := Code.IsFormula.isExpr callee h.1
    obtain ⟨ha, ha'⟩ := Code.AllFormulas.allExprs arguments h.2
    exact ⟨⟨hc, ha⟩, hc', ha'⟩
  | .invoke receiver _ arguments, h => by
    obtain ⟨hr, hr'⟩ := Code.IsFormula.isExpr receiver h.1
    obtain ⟨ha, ha'⟩ := Code.AllFormulas.allExprs arguments h.2.2
    exact ⟨⟨hr, h.2.1, ha⟩, hr', ha'⟩
  | .binary left _ right, h => by
    obtain ⟨hl, hl'⟩ := Code.IsFormula.isExpr left h.1
    obtain ⟨hr, hr'⟩ := Code.IsFormula.isExpr right h.2
    exact ⟨⟨hl, hr⟩, hl', hr'⟩
  | .unary _ operand, h => Code.IsFormula.isExpr operand h
  | .table fields, h => Field.AllFormulas.allExprs fields h
  | .paren inner, h => Code.IsFormula.isExpr inner h

theorem Code.AllFormulas.allExprs :
    (cs : List Code) → Code.AllFormulas cs → Code.AllExprs .lua cs ∧ Code.AllKeepApart cs
  | [], _ => ⟨trivial, trivial⟩
  | c :: rest, h => by
    obtain ⟨hc, hc'⟩ := Code.IsFormula.isExpr c h.1
    obtain ⟨hr, hr'⟩ := Code.AllFormulas.allExprs rest h.2
    exact ⟨⟨hc, hr⟩, hc', hr'⟩

theorem Field.AllFormulas.allExprs :
    (fs : List Field) → Field.AllFormulas fs → Field.AllExprs .lua fs ∧ Field.AllKeepApart fs
  | [], _ => ⟨trivial, trivial⟩
  | .item value :: rest, h | .named _ value :: rest, h => by
    obtain ⟨hv, hv'⟩ := Code.IsFormula.isExpr value h.1
    obtain ⟨hr, hr'⟩ := Field.AllFormulas.allExprs rest h.2
    exact ⟨⟨hv, hr⟩, hv', hr'⟩
  | .keyed key value :: rest, h => by
    obtain ⟨hk, hk'⟩ := Code.IsFormula.isExpr key h.1
    obtain ⟨hv, hv'⟩ := Code.IsFormula.isExpr value h.2.1
    obtain ⟨hr, hr'⟩ := Field.AllFormulas.allExprs rest h.2.2
    exact ⟨⟨hk, hv, hr⟩, hk', hv', hr'⟩

end

end ScriptToLua.Lua
