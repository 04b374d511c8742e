import Mathlib
import ScriptToLua.Proofs.Lua.Words

/-!
Line breaks in the text of code. The tokens in it have no line feeds, so a layout only chooses what stands
for the line feeds of the plainest one: `toList_render_eq`. Each is a line break with the blanks of the line
that it begins, and how deep the lines are nested is read off the code, `lineLevels_chunkPieces`.
-/

namespace ScriptToLua.Lua

/-- The layout that ends lines with a line feed and indents nothing. -/
def Layout.plain : Layout := { newLine := .lf, indentWidth := 0 }

/-- What stands in a text before a line at the given level. -/
def Layout.lineBreak (l : Layout) (level : Nat) : List Char :=
  l.newLine.text.toList ++ List.replicate (level * l.indentWidth) ' '

/-- The text in which the line feeds, from the first to the last, are replaced by the given texts. -/
def replaceFeeds : List (List Char) → List Char → List Char
  | _, [] => []
  | text :: texts, '\n' :: cs => text ++ replaceFeeds texts cs
  | texts, c :: cs => c :: replaceFeeds texts cs

/-- A carriage return stands before every line feed. -/
def NoBareFeed (cs : List Char) : Prop :=
  ∀ before after, cs = before ++ '\n' :: after → before.getLast? = some '\r'

mutual

/-- The nesting levels of the lines that begin within code that stands at the given level: a statement
is one level deeper than the block it is in, and the `end` of a block is as deep as what the block
belongs to. -/
def Code.levels (level : Nat) : Code → List Nat
  | .nil | .boolean _ | .number _ | .string _ | .name _ => []
  | .index table key => table.levels level ++ key.levels level
  | .member table _ => table.levels level
  | .call callee arguments => callee.levels level ++ Code.listLevels level arguments
  | .invoke receiver _ arguments => receiver.levels level ++ Code.listLevels level arguments
  | .binary left _ right => left.levels level ++ right.levels level
  | .unary _ operand => operand.levels level
  | .table fields => Field.listLevels level fields
  | .function _ body | .localFunction _ _ body =>
    if body.isEmpty then [] else Code.bodyLevels (level + 1) body ++ [level]
  | .paren inner => inner.levels level
  | .locals _ values => Code.listLevels level values
  | .assign targets values => Code.listLevels level targets ++ Code.listLevels level values
  | .perform expression => expression.levels level
  | .returns values => Code.listLevels level values
  | .block body => Code.bodyLevels (level + 1) body ++ [level]

def Code.listLevels (level : Nat) : List Code → List Nat
  | [] => []
  | c :: rest => c.levels level ++ Code.listLevels level rest

def Field.listLevels (level : Nat) : List Field → List Nat
  | [] => []
  | .item value :: rest => value.levels level ++ Field.listLevels level rest
  | .named _ value :: rest => value.levels level ++ Field.listLevels level rest
  | .keyed key value :: rest =>
    key.levels level ++ (value.levels level ++ Field.listLevels level rest)

/-- The nesting levels of the lines of statements that each begin a line. -/
def Code.bodyLevels (level : Nat) : List Code → List Nat
  | [] => []
  | c :: rest => level :: (c.levels level ++ Code.bodyLevels level rest)

end

/-- The nesting levels of the lines of a chunk, without its first line. -/
def chunkLevels : List Code → List Nat
  | [] => []
  | c :: rest => c.levels 0 ++ 0 :: chunkLevels rest

section Levels

/-- The level of the line that a piece begins. -/
def Piece.level? : Piece → Option Nat
  | .line level => some level
  | _ => none

/-- The nesting levels of the lines that begin in the pieces. -/
def lineLevels (pieces : List Piece) : List Nat := pieces.filterMap Piece.level?

variable {ps qs : List Piece} {x : String} {xs : List String} {pss : List (List Piece)}

@[simp]
theorem lineLevels_append : lineLevels (ps ++ qs) = lineLevels ps ++ lineLevels qs :=
  List.filterMap_append

@[simp]
theorem lineLevels_nil : lineLevels [] = [] := rfl

theorem lineLevels_inline {p : Piece} (hp : p.level? = none) : lineLevels (p :: ps) = lineLevels ps :=
  List.filterMap_cons_none hp

@[simp]
theorem lineLevels_line {level : Nat} : lineLevels (.line level :: ps) = level :: lineLevels ps := rfl

@[simp]
theorem lineLevels_word : lineLevels (word x) = [] := rfl

@[simp]
theorem lineLevels_symbol : lineLevels (symbol x) = [] := rfl

@[simp]
theorem lineLevels_gap : lineLevels gap = [] := rfl

@[simp]
theorem lineLevels_wrapIf {parens : Bool} : lineLevels (wrapIf parens ps) = lineLevels ps := by
  cases parens <;> simp [wrapIf]

@[simp]
theorem lineLevels_separated : lineLevels (separated pss) = pss.flatMap lineLevels := by
  fun_induction separated pss with
  | case1 => rfl
  | case2 ps => simp
  | case3 ps rest _ ih => simp [ih]

@[simp]
theorem lineLevels_memberPieces : lineLevels (memberPieces x) = [] := by
  rw [memberPieces]
  split <;> rfl

@[simp]
theorem lineLevels_fieldPieces : lineLevels (fieldPieces x) = [] := by
  rw [fieldPieces]
  split <;> rfl

@[simp]
theorem lineLevels_parameterPieces : lineLevels (parameterPieces xs) = [] := by
  simp [parameterPieces]

@[simp]
theorem BinaryOp.lineLevels_pieces (op : BinaryOp) : lineLevels op.pieces = [] := by
  rw [BinaryOp.pieces]
  split <;> rfl

@[simp]
theorem UnaryOp.lineLevels_pieces (op : UnaryOp) : lineLevels op.pieces = [] := by
  cases op <;> rfl

@[simp]
theorem Code.lineLevels_guardPieces (c : Code) : lineLevels c.guardPieces = [] := by
  rcases c.guardPieces_cases with h | h <;> simp [h]

@[simp]
theorem lineLevels_bodyPieces {level : Nat} {isEmpty : Bool} :
    lineLevels (bodyPieces level isEmpty ps) = if isEmpty then [] else lineLevels ps ++ [level] := by
  cases isEmpty <;> simp [bodyPieces]

mutual

/-- The lines that begin in the text of code are nested as the code is. -/
theorem Code.lineLevels_pieces (level : Nat) :
    (c : Code) → lineLevels (c.pieces level) = c.levels level
  | .nil | .number _ | .string _ | .name _ => rfl
  | .boolean false | .boolean true => rfl
  | .index table key => by
    simp [Code.pieces, Code.levels, table.lineLevels_pieces, key.lineLevels_pieces]
  | .member table x => by
    simp [Code.pieces, Code.levels, table.lineLevels_pieces]
  | .call callee arguments => by
    simp [Code.pieces, Code.levels, callee.lineLevels_pieces, Code.lineLevels_listPieces]
  | .invoke receiver method arguments => by
    simp [Code.pieces, Code.levels, receiver.lineLevels_pieces, Code.lineLevels_listPieces]
  | .binary left op right => by
    simp [Code.pieces, Code.levels, left.lineLevels_pieces, right.lineLevels_pieces]
  | .unary op operand => by
    simp [Code.pieces, Code.levels, operand.lineLevels_pieces]
  | .table fields => by
    simp [Code.pieces, Code.levels, Field.lineLevels_listPieces]
  | .function parameters body => by
    simp [Code.pieces, Code.levels, Code.lineLevels_linesPieces]
  | .paren inner => by
    simp [Code.pieces, Code.levels, inner.lineLevels_pieces]
  | .locals xs [] => by
    simp [Code.pieces, Code.levels, Code.listLevels]
  | .locals xs (c :: values) => by
    simp [Code.pieces, Code.levels, Code.lineLevels_listPieces]
  | .localFunction x parameters body => by
    simp [Code.pieces, Code.levels, Code.lineLevels_linesPieces]
  | .assign targets values => by
    simp [Code.pieces, Code.levels, Code.lineLevels_listPieces]
  | .perform expression => expression.lineLevels_pieces level
  | .returns [] => rfl
  | .returns (c :: values) => by
    simp [Code.pieces, Code.levels, Code.lineLevels_listPieces]
  | .block body => by
    simp [Code.pieces, Code.levels, Code.lineLevels_linesPieces]

theorem Code.lineLevels_listPieces (level : Nat) :
    (cs : List Code) → (Code.listPieces level cs).flatMap lineLevels = Code.listLevels level cs
  | [] => rfl
  | c :: rest => by
    simp [Code.listPieces, Code.listLevels, c.lineLevels_pieces, Code.lineLevels_listPieces]

theorem Field.lineLevels_listPieces (level : Nat) :
    (fs : List Field) → (Field.listPieces level fs).flatMap lineLevels = Field.listLevels level fs
  | [] => rfl
  | .item value :: rest => by
    simp [Field.listPieces, Field.pieces, Field.listLevels, value.lineLevels_pieces,
      Field.lineLevels_listPieces]
  | .named x value :: rest => by
    simp [Field.listPieces, Field.pieces, Field.listLevels, value.lineLevels_pieces,
      Field.lineLevels_listPieces]
  | .keyed key value :: rest => by
    simp [Field.listPieces, Field.pieces, Field.listLevels, key.lineLevels_pieces,
      value.lineLevels_pieces, Field.lineLevels_listPieces]

theorem Code.lineLevels_linesPieces (level : Nat) :
    (cs : List Code) → lineLevels (Code.linesPieces level cs) = Code.bodyLevels level cs
  | [] => rfl
  | c :: rest => by
    simp [Code.linesPieces, Code.bodyLevels, c.lineLevels_pieces, Code.lineLevels_linesPieces]

end

theorem lineLevels_chunkPieces (chunk : List Code) :
    lineLevels (chunkPieces chunk) = chunkLevels chunk := by
  induction chunk with
  | nil => rfl
  | cons c rest ih => simp [chunkPieces, chunkLevels, c.lineLevels_pieces, ih]

end Levels

section Feeds

variable {cs ds : List Char} {texts : List (List Char)}

theorem replaceFeeds_append (h : '\n' ∉ cs) :
    replaceFeeds texts (cs ++ ds) = cs ++ replaceFeeds texts ds := by
  induction cs with
  | nil => rfl
  | cons c cs ih =>
    have hc : c ≠ '\n' := fun hc => h (hc ▸ List.mem_cons_self)
    have hcs : '\n' ∉ cs := fun hcs => h (List.mem_cons_of_mem c hcs)
    rw [List.cons_append, List.cons_append, ← ih hcs, replaceFeeds]
    intro text texts' _ hfeed
    exact absurd hfeed hc

theorem NoBareFeed.of_not_mem (h : '\n' ∉ cs) : NoBareFeed cs := by
  rintro before after rfl
  exact absurd (List.mem_append_right before List.mem_cons_self) h

theorem NoBareFeed.append (hc : NoBareFeed cs) (hd : NoBareFeed ds) : NoBareFeed (cs ++ ds) := by
  intro before after h
  rcases List.append_eq_append_iff.1 h with ⟨middle, rfl, hmiddle⟩ | ⟨middle, hmiddle, hafter⟩
  · rw [List.getLast?_append, hd middle after hmiddle]
    rfl
  · cases middle with
    | nil => exact absurd (hd [] after hafter.symm) nofun
    | cons c middle =>
      obtain ⟨rfl, -⟩ := List.cons.inj hafter
      exact hc before middle hmiddle

theorem noBareFeed_crlf : NoBareFeed ['\r', '\n'] := by
  intro before after h
  match before with
  | [] => cases h
  | [c] =>
    obtain ⟨rfl, -⟩ := List.cons.inj h
    rfl
  | c :: d :: before =>
    obtain ⟨-, htail⟩ := List.cons.inj h
    obtain ⟨-, hnil⟩ := List.cons.inj htail
    exact absurd hnil (by simp)

end Feeds

section Render

variable {l : Layout} {pieces : List Piece}

theorem render_append (l : Layout) (ps qs : List Piece) :
    l.render (ps ++ qs) = l.render ps ++ l.render qs := by
  apply String.toList_injective
  rw [String.toList_append, toList_render, toList_render, toList_render, List.flatMap_append]

theorem render_cons (l : Layout) (p : Piece) (ps : List Piece) :
    l.render (p :: ps) = l.text p ++ l.render ps := by
  apply String.toList_injective
  rw [String.toList_append, toList_render, toList_render, List.flatMap_cons]

/-- A string literal is the same in all layouts. -/
theorem render_around (l : Layout) (before after : List Piece) (value : String) :
    l.render (before ++ .token (.quoted value) :: after) =
      l.render before ++ quote value ++ l.render after := by
  rw [render_append, render_cons, ← String.append_assoc]
  rfl

/-- No token has a line feed in it. -/
abbrev FeedFree (pieces : List Piece) : Prop := AllTokens (fun t => '\n' ∉ t.text.toList) pieces

/-- A piece begins a line, or it has the same text in all layouts and no line feed in it. -/
theorem FeedFree.head_cases {p : Piece} (h : FeedFree (p :: pieces)) :
    (∃ level, p = .line level) ∨
      p.level? = none ∧ ∃ cs, '\n' ∉ cs ∧ ∀ l : Layout, (l.text p).toList = cs := by
  cases p with
  | token t => exact .inr ⟨rfl, t.text.toList, h t List.mem_cons_self, fun _ => rfl⟩
  | gap => exact .inr ⟨rfl, " ".toList, by decide, fun _ => rfl⟩
  | line level => exact .inl ⟨level, rfl⟩

theorem FeedFree.tail {p : Piece} (h : FeedFree (p :: pieces)) : FeedFree pieces :=
  fun t ht => h t (List.mem_cons_of_mem p ht)

/-- A layout replaces the line feeds of the plain one and changes nothing else. -/
theorem toList_render_eq (h : FeedFree pieces) :
    (l.render pieces).toList =
      replaceFeeds ((lineLevels pieces).map l.lineBreak) (Layout.plain.render pieces).toList := by
  rw [toList_render, toList_render]
  induction pieces with
  | nil => rfl
  | cons p pieces ih =>
    rw [List.flatMap_cons, List.flatMap_cons, ih h.tail]
    rcases h.head_cases with ⟨level, rfl⟩ | ⟨hp, cs, hcs, htext⟩
    · rw [toList_line, toList_line]
      rfl
    · rw [htext, htext, replaceFeeds_append hcs, lineLevels_inline hp]

theorem count_feed_plain (h : FeedFree pieces) :
    (Layout.plain.render pieces).toList.count '\n' = (lineLevels pieces).length := by
  rw [toList_render]
  induction pieces with
  | nil => rfl
  | cons p pieces ih =>
    rw [List.flatMap_cons, List.count_append, ih h.tail]
    rcases h.head_cases with ⟨level, rfl⟩ | ⟨hp, cs, hcs, htext⟩
    · rw [toList_line, Nat.add_comm]
      rfl
    · rw [htext, List.count_eq_zero.2 hcs, Nat.zero_add, lineLevels_inline hp]

theorem noBareFeed_render (h : FeedFree pieces) (hl : l.newLine = .crlf) :
    NoBareFeed (l.render pieces).toList := by
  rw [toList_render]
  induction pieces with
  | nil => exact .of_not_mem List.not_mem_nil
  | cons p pieces ih =>
    rw [List.flatMap_cons]
    apply NoBareFeed.append ?_ (ih h.tail)
    rcases h.head_cases with ⟨level, rfl⟩ | ⟨-, cs, hcs, htext⟩
    · have hspaces : '\n' ∉ List.replicate (level * l.indentWidth) ' ' := by
        intro hmem
        cases List.eq_of_mem_replicate hmem
      rw [toList_line, hl]
      exact .append noBareFeed_crlf (.of_not_mem hspaces)
    · rw [htext]
      exact .of_not_mem hcs

end Render

section Tokens

variable {x : String}

theorem not_mem_quote (value : String) : '\n' ∉ (quote value).toList := by
  have hescape (c : Char) : '\n' ∉ escape c := by
    unfold escape
    split_ifs with h₁ h₂ h₃
    · decide
    · decide
    · decide
    · decide
    · decide
    · decide
    · intro h
      exact h₃ (List.mem_singleton.1 h).symm
  rw [quote, String.toList_ofList]
  intro h
  rcases List.mem_append.1 h with h | h
  · rcases List.mem_cons.1 h with h | h
    · cases h
    · obtain ⟨c, -, hc⟩ := List.mem_flatMap.1 h
      exact hescape c hc
  · cases List.mem_singleton.1 h

theorem not_mem_name (h : isName x) : '\n' ∉ x.toList :=
  fun hmem => nomatch isNameChar_of_isName h '\n' hmem

theorem printable_feedFree : Printable fun t => '\n' ∉ t.text.toList where
  word x hx := by
    have hkeywords : keywords.all fun k => '\n' ∉ k.toList := by decide
    rcases hx with hx | hx
    · exact of_decide_eq_true (List.all_eq_true.1 hkeywords x (List.contains_iff_mem.1 hx))
    · exact not_mem_name hx
  quoted := not_mem_quote
  symbol x hx := by
    have hsymbols : symbols.all fun s => '\n' ∉ s.toList := by decide
    exact of_decide_eq_true (List.all_eq_true.1 hsymbols x hx)

/-- Where no name and no numeral has a line feed in it, only line breaks bring line feeds into the text. -/
theorem feedFree_chunkPieces {chunk : List Code} (hn : ∀ x ∈ Code.namesAll false chunk, '\n' ∉ x.toList)
    (hd : ∀ x ∈ Code.numeralsAll chunk, '\n' ∉ x.toList) : FeedFree (chunkPieces chunk) :=
  allTokens_chunkPieces printable_feedFree hn hd

end Tokens

end ScriptToLua.Lua
