import Mathlib
import ScriptToLua.Proofs.Lua.Grammar

/-!
The names in code, and the names that its text shows. Members and fields whose names Lua does not allow
are printed as strings in brackets, `printChunk_bracketed`, and no other name in the text is one that Lua
does not allow, `isName_bracketedAll`.
-/

namespace ScriptToLua.Lua

mutual

/-- The names of variables, functions, parameters and methods, and with `keys` those of members and of
fields too. -/
def Code.names (keys : Bool) : Code → List String
  | .nil | .boolean _ | .number _ | .string _ => []
  | .name x => [x]
  | .index table key => table.names keys ++ key.names keys
  | .member table x => table.names keys ++ if keys then [x] else []
  | .call callee arguments => callee.names keys ++ Code.namesAll keys arguments
  | .invoke receiver method arguments =>
    receiver.names keys ++ method :: Code.namesAll keys arguments
  | .binary left _ right => left.names keys ++ right.names keys
  | .unary _ operand => operand.names keys
  | .table fields => Field.namesAll keys fields
  | .function parameters body => parameters ++ Code.namesAll keys body
  | .paren inner => inner.names keys
  | .locals xs values => xs ++ Code.namesAll keys values
  | .localFunction x parameters body => x :: (parameters ++ Code.namesAll keys body)
  | .assign targets values => Code.namesAll keys targets ++ Code.namesAll keys values
  | .perform expression => expression.names keys
  | .returns values => Code.namesAll keys values
  | .block body => Code.namesAll keys body

def Code.namesAll (keys : Bool) : List Code → List String
  | [] => []
  | c :: rest => c.names keys ++ Code.namesAll keys rest

def Field.namesAll (keys : Bool) : List Field → List String
  | [] => []
  | .item value :: rest => value.names keys ++ Field.namesAll keys rest
  | .named x value :: rest =>
    (if keys then [x] else []) ++ (value.names keys ++ Field.namesAll keys rest)
  | .keyed key value :: rest => key.names keys ++ (value.names keys ++ Field.namesAll keys rest)

end

mutual

/-- The code with a string in brackets for every member and every field whose name Lua does not
allow. -/
def Code.bracketed : Code → Code
  | .index table key => .index table.bracketed key.bracketed
  | .member table x =>
    if isName x then .member table.bracketed x else .index table.bracketed (.string x)
  | .call callee arguments => .call callee.bracketed (Code.bracketedAll arguments)
  | .invoke receiver method arguments =>
    .invoke receiver.bracketed method (Code.bracketedAll arguments)
  | .binary left op right => .binary left.bracketed op right.bracketed
  | .unary op operand => .unary op operand.bracketed
  | .table fields => .table (Field.bracketedAll fields)
  | .function parameters body => .function parameters (Code.bracketedAll body)
  | .paren inner => .paren inner.bracketed
  | .locals xs values => .locals xs (Code.bracketedAll values)
  | .localFunction x parameters body => .localFunction x parameters (Code.bracketedAll body)
  | .assign targets values => .assign (Code.bracketedAll targets) (Code.bracketedAll values)
  | .perform expression => .perform expression.bracketed
  | .returns values => .returns (Code.bracketedAll values)
  | .block body => .block (Code.bracketedAll body)
  | c => c

def Code.bracketedAll : List Code → List Code
  | [] => []
  | c :: rest => c.bracketed :: Code.bracketedAll rest

def Field.bracketed : Field → Field
  | .item value => .item value.bracketed
  | .named x value =>
    if isName x then .named x value.bracketed else .keyed (.string x) value.bracketed
  | .keyed key value => .keyed key.bracketed value.bracketed

def Field.bracketedAll : List Field → List Field
  | [] => []
  | f :: rest => f.bracketed :: Field.bracketedAll rest

end

section Names

variable {w : Words}

mutual

/-- The names of an expression are among the words that it is made of. -/
theorem Code.IsExpr.names : (c : Code) → c.IsExpr w → ∀ x ∈ c.names false, w.name x
  | .nil, _ | .boolean _, _ | .number _, _ | .string _, _ => List.forall_mem_nil _
  | .name _, h => List.forall_mem_singleton.2 h
  | .index table key, h =>
    List.forall_mem_append.2 ⟨Code.IsExpr.names table h.1, Code.IsExpr.names key h.2⟩
  | .member table _, h =>
    List.forall_mem_append.2 ⟨Code.IsExpr.names table h, List.forall_mem_nil _⟩
  | .call callee arguments, h =>
    List.forall_mem_append.2 ⟨Code.IsExpr.names callee h.1, Code.AllExprs.names arguments h.2⟩
  | .invoke receiver _ arguments, h =>
    List.forall_mem_append.2 ⟨Code.IsExpr.names receiver h.1,
      List.forall_mem_cons.2 ⟨h.2.1, Code.AllExprs.names arguments h.2.2⟩⟩
  | .binary left _ right, h =>
    List.forall_mem_append.2 ⟨Code.IsExpr.names left h.1, Code.IsExpr.names right h.2⟩
  | .unary _ operand, h => Code.IsExpr.names operand h
  | .table fields, h => Field.AllExprs.names fields h
  | .function _ body, h => List.forall_mem_append.2 ⟨h.1, Code.IsBlock.names body h.2⟩
  | .paren inner, h => Code.IsExpr.names inner h

theorem Code.AllExprs.names :
    (cs : List Code) → Code.AllExprs w cs → ∀ x ∈ Code.namesAll false cs, w.name x
  | [], _ => List.forall_mem_nil _
  | c :: rest, h =>
    List.forall_mem_append.2 ⟨Code.IsExpr.names c h.1, Code.AllExprs.names rest h.2⟩

theorem Field.AllExprs.names :
    (fs : List Field) → Field.AllExprs w fs → ∀ x ∈ Field.namesAll false fs, w.name x
  | [], _ => List.forall_mem_nil _
  | .item value :: rest, h =>
    List.forall_mem_append.2 ⟨Code.IsExpr.names value h.1, Field.AllExprs.names rest h.2⟩
  | .named _ value :: rest, h =>
    List.forall_mem_append.2 ⟨List.forall_mem_nil _,
      List.forall_mem_append.2 ⟨Code.IsExpr.names value h.1, Field.AllExprs.names rest h.2⟩⟩
  | .keyed key value :: rest, h =>
    List.forall_mem_append.2 ⟨Code.IsExpr.names key h.1,
      List.forall_mem_append.2 ⟨Code.IsExpr.names value h.2.1, Field.AllExprs.names rest h.2.2⟩⟩

theorem Code.IsStatement.names : (c : Code) → c.IsStatement w → ∀ x ∈ c.names false, w.name x
  | .locals _ values, h => List.forall_mem_append.2 ⟨h.2.1, Code.AllExprs.names values h.2.2⟩
  | .localFunction _ _ body, h =>
    List.forall_mem_cons.2 ⟨h.1, List.forall_mem_append.2 ⟨h.2.1, Code.IsBlock.names body h.2.2⟩⟩
  | .assign targets values, h =>
    List.forall_mem_append.2
      ⟨Code.AllExprs.names targets h.2.2.2.1, Code.AllExprs.names values h.2.2.2.2⟩
  | .perform expression, h => Code.IsExpr.names expression h.2
  | .returns values, h => Code.AllExprs.names values h
  | .block body, h => Code.IsBlock.names body h

theorem Code.IsBlock.names :
    (cs : List Code) → Code.IsBlock w cs → ∀ x ∈ Code.namesAll false cs, w.name x
  | [], _ => List.forall_mem_nil _
  | c :: rest, h =>
    List.forall_mem_append.2 ⟨Code.IsStatement.names c h.1, Code.IsBlock.names rest h.2.2⟩

end

end Names

section Brackets

mutual

/-- Members and fields add no name that Lua does not allow. -/
theorem Code.isName_bracketed :
    (c : Code) → (∀ x ∈ c.names false, isName x) → ∀ x ∈ c.bracketed.names true, isName x
  | .nil, h | .boolean _, h | .number _, h | .string _, h | .name _, h => h
  | .index table key, h => by
    obtain ⟨ht, hk⟩ := List.forall_mem_append.1 h
    exact List.forall_mem_append.2 ⟨table.isName_bracketed ht, key.isName_bracketed hk⟩
  | .member table x, h => by
    have ht := table.isName_bracketed (List.forall_mem_append.1 h).1
    rw [Code.bracketed]
    split
    · next hx => exact List.forall_mem_append.2 ⟨ht, List.forall_mem_singleton.2 hx⟩
    · exact List.forall_mem_append.2 ⟨ht, List.forall_mem_nil _⟩
  | .call callee arguments, h => by
    obtain ⟨hc, ha⟩ := List.forall_mem_append.1 h
    exact List.forall_mem_append.2 ⟨callee.isName_bracketed hc, isName_bracketedAll arguments ha⟩
  | .invoke receiver method arguments, h => by
    obtain ⟨hr, hcons⟩ := List.forall_mem_append.1 h
    obtain ⟨hm, ha⟩ := List.forall_mem_cons.1 hcons
    exact List.forall_mem_append.2 ⟨receiver.isName_bracketed hr,
      List.forall_mem_cons.2 ⟨hm, isName_bracketedAll arguments ha⟩⟩
  | .binary left _ right, h => by
    obtain ⟨hl, hr⟩ := List.forall_mem_append.1 h
    exact List.forall_mem_append.2 ⟨left.isName_bracketed hl, right.isName_bracketed hr⟩
  | .unary _ operand, h => operand.isName_bracketed h
  | .table fields, h => Field.isName_bracketedAll fields h
  | .function parameters body, h => by
    obtain ⟨hp, hb⟩ := List.forall_mem_append.1 h
    exact List.forall_mem_append.2 ⟨hp, isName_bracketedAll body hb⟩
  | .paren inner, h => inner.isName_bracketed h
  | .locals xs values, h => by
    obtain ⟨hx, hv⟩ := List.forall_mem_append.1 h
    exact List.forall_mem_append.2 ⟨hx, isName_bracketedAll values hv⟩
  | .localFunction x parameters body, h => by
    obtain ⟨hx, h⟩ := List.forall_mem_cons.1 h
    obtain ⟨hp, hb⟩ := List.forall_mem_append.1 h
    exact List.forall_mem_cons.2 ⟨hx, List.forall_mem_append.2 ⟨hp, isName_bracketedAll body hb⟩⟩
  | .assign targets values, h => by
    obtain ⟨ht, hv⟩ := List.forall_mem_append.1 h
    exact List.forall_mem_append.2 ⟨isName_bracketedAll targets ht, isName_bracketedAll values hv⟩
  | .perform expression, h => expression.isName_bracketed h
  | .returns values, h => isName_bracketedAll values h
  | .block body, h => isName_bracketedAll body h

theorem isName_bracketedAll :
    (cs : List Code) → (∀ x ∈ Code.namesAll false cs, isName x) →
      ∀ x ∈ Code.namesAll true (Code.bracketedAll cs), isName x
  | [], h => h
  | c :: rest, h => by
    obtain ⟨hc, hr⟩ := List.forall_mem_append.1 h
    exact List.forall_mem_append.2 ⟨c.isName_bracketed hc, isName_bracketedAll rest hr⟩

theorem Field.isName_bracketedAll :
    (fs : List Field) → (∀ x ∈ Field.namesAll false fs, isName x) →
      ∀ x ∈ Field.namesAll true (Field.bracketedAll fs), isName x
  | [], h => h
  | .item value :: rest, h => by
    obtain ⟨hv, hr⟩ := List.forall_mem_append.1 h
    exact List.forall_mem_append.2 ⟨value.isName_bracketed hv, Field.isName_bracketedAll rest hr⟩
  | .named x value :: rest, h => by
    obtain ⟨hv, hr⟩ := List.forall_mem_append.1 (List.forall_mem_append.1 h).2
    have htail := List.forall_mem_append.2
      ⟨value.isName_bracketed hv, Field.isName_bracketedAll rest hr⟩
    rw [Field.bracketedAll, Field.bracketed]
    split
    · next hx => exact List.forall_mem_append.2 ⟨List.forall_mem_singleton.2 hx, htail⟩
    · exact htail
  | .keyed key value :: rest, h => by
    obtain ⟨hk, h⟩ := List.forall_mem_append.1 h
    obtain ⟨hv, hr⟩ := List.forall_mem_append.1 h
    exact List.forall_mem_append.2 ⟨key.isName_bracketed hk,
      List.forall_mem_append.2 ⟨value.isName_bracketed hv, Field.isName_bracketedAll rest hr⟩⟩

end

namespace Code

theorem isReference_bracketed (c : Code) : c.bracketed.isReference = c.isReference := by
  cases c with
  | member table x =>
    rw [bracketed]
    split <;> rfl
  | _ => rfl

theorem isCallable_bracketed (c : Code) : c.bracketed.isCallable = c.isCallable := by
  cases c with
  | member table x =>
    rw [bracketed]
    split <;> rfl
  | _ => rfl

theorem precedence_bracketed (c : Code) : c.bracketed.precedence = c.precedence := by
  cases c with
  | member table x =>
    rw [bracketed]
    split <;> rfl
  | _ => rfl

theorem opensWithMinus_bracketed (c : Code) : c.bracketed.opensWithMinus = c.opensWithMinus := by
  cases c with
  | member table x =>
    rw [bracketed]
    split <;> rfl
  | unary op operand => cases op <;> rfl
  | _ => rfl

theorem opensWithParen_bracketed : (c : Code) → c.bracketed.opensWithParen = c.opensWithParen
  | .call inner _ | .invoke inner _ _ | .index inner _ => by
    simp only [bracketed, opensWithParen, isReference_bracketed, opensWithParen_bracketed inner]
  | .member inner x => by
    rw [bracketed]
    split <;> simp only [opensWithParen, isReference_bracketed, opensWithParen_bracketed inner]
  | .nil | .boolean _ | .number _ | .string _ | .name _ | .binary _ _ _ | .unary _ _ | .table _
  | .function _ _ | .paren _ | .locals _ _ | .localFunction _ _ _ | .assign _ _ | .perform _
  | .returns _ | .block _ => rfl

theorem guardPieces_bracketed (c : Code) : c.bracketed.guardPieces = c.guardPieces := by
  cases c with
  | member table x =>
    rw [bracketed]
    split <;> rfl
  | perform e => rw [bracketed, guardPieces, guardPieces, opensWithParen_bracketed]
  | _ => rfl

theorem isEmpty_bracketedAll (cs : List Code) : (bracketedAll cs).isEmpty = cs.isEmpty := by
  cases cs <;> rfl

end Code

mutual

/-- Brackets are printed where they are not written. -/
theorem Code.pieces_bracketed (level : Nat) :
    (c : Code) → c.bracketed.pieces level = c.pieces level
  | .nil | .boolean _ | .number _ | .string _ | .name _ => rfl
  | .index table key => by
    rw [Code.bracketed, Code.pieces, Code.pieces, Code.isCallable_bracketed,
      Code.pieces_bracketed level table, Code.pieces_bracketed level key]
  | .member table x => by
    have ht := Code.pieces_bracketed level table
    rw [Code.bracketed, Code.pieces, memberPieces]
    split
    · next hx => rw [Code.pieces, Code.isCallable_bracketed, ht, memberPieces, if_pos hx]
    · rw [Code.pieces, Code.isCallable_bracketed, ht, Code.pieces, List.append_assoc,
        List.append_assoc, List.append_assoc]
  | .call callee arguments => by
    rw [Code.bracketed, Code.pieces, Code.pieces, Code.isCallable_bracketed,
      Code.pieces_bracketed level callee, Code.listPieces_bracketed level arguments]
  | .invoke receiver method arguments => by
    rw [Code.bracketed, Code.pieces, Code.pieces, Code.isCallable_bracketed,
      Code.pieces_bracketed level receiver, Code.listPieces_bracketed level arguments]
  | .binary left op right => by
    rw [Code.bracketed, Code.pieces, Code.pieces, BinaryOp.wrapsLeft, BinaryOp.wrapsRight,
      Code.precedence_bracketed, Code.precedence_bracketed, Code.pieces_bracketed level left,
      Code.pieces_bracketed level right]
    rfl
  | .unary op operand => by
    rw [Code.bracketed, Code.pieces, Code.pieces, UnaryOp.wraps, Code.precedence_bracketed,
      Code.opensWithMinus_bracketed, Code.pieces_bracketed level operand]
    rfl
  | .table fields => by
    rw [Code.bracketed, Code.pieces, Code.pieces, Field.listPieces_bracketed level fields]
  | .function parameters body => by
    rw [Code.bracketed, Code.pieces, Code.pieces, Code.isEmpty_bracketedAll,
      Code.linesPieces_bracketed (level + 1) body]
  | .paren inner => by
    rw [Code.bracketed, Code.pieces, Code.pieces, Code.pieces_bracketed level inner]
  | .locals xs [] => rfl
  | .locals xs (c :: values) => by
    have hv := Code.listPieces_bracketed level (c :: values)
    rw [Code.bracketedAll] at hv
    rw [Code.bracketed, Code.bracketedAll, Code.pieces, Code.pieces, hv]
    all_goals nofun
  | .localFunction x parameters body => by
    rw [Code.bracketed, Code.pieces, Code.pieces, Code.isEmpty_bracketedAll,
      Code.linesPieces_bracketed (level + 1) body]
  | .assign targets values => by
    rw [Code.bracketed, Code.pieces, Code.pieces, Code.listPieces_bracketed level targets,
      Code.listPieces_bracketed level values]
  | .perform expression => by
    rw [Code.bracketed, Code.pieces, Code.pieces, Code.pieces_bracketed level expression]
  | .returns [] => rfl
  | .returns (c :: values) => by
    have hv := Code.listPieces_bracketed level (c :: values)
    rw [Code.bracketedAll] at hv
    rw [Code.bracketed, Code.bracketedAll, Code.pieces, Code.pieces, hv]
    all_goals nofun
  | .block body => by
    rw [Code.bracketed, Code.pieces, Code.pieces, Code.linesPieces_bracketed (level + 1) body]

theorem Code.listPieces_bracketed (level : Nat) :
    (cs : List Code) → Code.listPieces level (Code.bracketedAll cs) = Code.listPieces level cs
  | [] => rfl
  | c :: rest => by
    rw [Code.bracketedAll, Code.listPieces, Code.listPieces, Code.pieces_bracketed level c,
      Code.listPieces_bracketed level rest]

theorem Field.listPieces_bracketed (level : Nat) :
    (fs : List Field) → Field.listPieces level (Field.bracketedAll fs) = Field.listPieces level fs
  | [] => rfl
  | f :: rest => by
    rw [Field.bracketedAll, Field.listPieces, Field.listPieces, Field.pieces_bracketed level f,
      Field.listPieces_bracketed level rest]

theorem Field.pieces_bracketed (level : Nat) :
    (f : Field) → f.bracketed.pieces level = f.pieces level
  | .item value => by
    rw [Field.bracketed, Field.pieces, Field.pieces, Code.pieces_bracketed level value]
  | .named x value => by
    have hv := Code.pieces_bracketed level value
    rw [Field.bracketed, Field.pieces, fieldPieces]
    split
    · next hx => rw [Field.pieces, hv, fieldPieces, if_pos hx]
    · rw [Field.pieces, hv, Code.pieces]
  | .keyed key value => by
    rw [Field.bracketed, Field.pieces, Field.pieces, Code.pieces_bracketed level key,
      Code.pieces_bracketed level value]

theorem Code.linesPieces_bracketed (level : Nat) :
    (cs : List Code) → Code.linesPieces level (Code.bracketedAll cs) = Code.linesPieces level cs
  | [] => rfl
  | c :: rest => by
    rw [Code.bracketedAll, Code.linesPieces, Code.linesPieces, Code.guardPieces_bracketed,
      Code.pieces_bracketed level c, Code.linesPieces_bracketed level rest]

end

theorem chunkPieces_bracketed (chunk : List Code) :
    chunkPieces (Code.bracketedAll chunk) = chunkPieces chunk := by
  induction chunk with
  | nil => rfl
  | cons c rest ih =>
    rw [Code.bracketedAll, chunkPieces, chunkPieces, Code.guardPieces_bracketed,
      Code.pieces_bracketed, ih]

/-- The text of a chunk is that of the chunk with brackets. -/
theorem printChunk_bracketed (l : Layout) (chunk : List Code) :
    printChunk l (Code.bracketedAll chunk) = printChunk l chunk := by
  rw [printChunk, printChunk, chunkPieces_bracketed]

end Brackets

end ScriptToLua.Lua
