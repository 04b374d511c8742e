import Mathlib
import ScriptToLua.Proofs.Lua.Rereading.Expression

/-!
Statements and blocks are read as they were printed, if no statement goes on with the next one.
-/

namespace ScriptToLua.Lua

/-- Whether a word can begin a statement or end a block. -/
def Token.beginsStatement : Token → Bool
  | word x => isName x || ["local", "do", "return", "end"].contains x
  | symbol s => s = ";" || s = "("
  | _ => false

/-- The words after a statement begin another one or end the block; `isOpen` says whether the
statement ends in something that could be called. -/
def Ends (isOpen : Bool) (ts : List Token) : Prop :=
  ∀ t ∈ ts.head?, t.beginsStatement ∧ (isOpen → t ≠ .symbol "(")

namespace Ends

variable {isOpen : Bool} {ts : List Token}

theorem ne_symbol (h : Ends isOpen ts) {s : String} (hs : s ≠ ";" ∧ s ≠ "(") :
    ∀ t ∈ ts.head?, t ≠ .symbol s := by
  rintro t ht rfl
  have hbegins := (h _ ht).1
  simp [Token.beginsStatement, hs] at hbegins

theorem stops (h : Ends isOpen ts) : Stops isOpen ts := by
  intro t ht
  obtain ⟨hbegins, hparen⟩ := h t ht
  cases t with
  | word x =>
    refine ⟨?_, fun _ => rfl⟩
    simp only [Token.beginsStatement, Bool.or_eq_true] at hbegins
    rcases hbegins with hx | hx
    · exact binaryOp?_of_isName hx
    · simp only [List.contains_iff_mem, List.mem_cons, List.not_mem_nil, or_false] at hx
      rcases hx with rfl | rfl | rfl | rfl <;> decide
  | symbol s =>
    simp only [Token.beginsStatement, Bool.or_eq_true, decide_eq_true_eq] at hbegins
    rcases hbegins with rfl | rfl
    · exact ⟨by decide, fun _ => by decide⟩
    · exact ⟨by decide, fun hopen => absurd rfl (hparen hopen)⟩
  | numeral text => cases hbegins
  | quoted text => cases hbegins

theorem of_blockEnds (h : blockEnds ts) (isOpen : Bool) : Ends isOpen ts := by
  intro t ht
  cases ts with
  | nil => cases ht
  | cons t' ts =>
    cases ht
    obtain rfl : t = .word "end" := of_decide_eq_true h
    exact ⟨by decide, fun _ => by decide⟩

end Ends

/-- A block is read as it was printed. -/
def BlockRereads (body : List Code) : Prop :=
  ∀ level, Parses 9 readBlock (fun rest => blockEnds rest)
    (readTokens (Code.linesPieces level body)) (Code.printedAll body)

/-- A statement is read as it was printed. -/
def StatementRereads (c : Code) : Prop :=
  ∀ level, Parses 8 readStatement (Ends c.endsOpen) (readTokens (c.pieces level)) c.printed

theorem readTokens_bodyPieces (level : Nat) (body : List Code) :
    readTokens (bodyPieces level body.isEmpty (Code.linesPieces (level + 1) body)) =
      readTokens (Code.linesPieces (level + 1) body) ++ [.word "end"] := by
  cases body with
  | nil => rfl
  | cons c body => simp [bodyPieces]

section Statements

variable {x : String} {xs : List String} {body es targets : List Code} {e c : Code}

theorem BlockRereads.function (h : BlockRereads body) (hxs : ∀ x ∈ xs, isName x) (level : Nat) :
    Parses 0 readFunction (fun _ => True)
      (readTokens (parameterPieces xs) ++ readTokens (Code.linesPieces level body) ++ [.word "end"])
      (xs, Code.printedAll body) := by
  intro rest _
  have hbody := h level (.word "end" :: rest) rfl
  have hparameters := readParameters_pieces hxs
    (readTokens (Code.linesPieces level body) ++ .word "end" :: rest)
  have hfunction := readFunction_rule hparameters hbody
  exact hfunction.words (by simp) (by simp; omega)

theorem Rereads.function (h : BlockRereads body) (hxs : ∀ x ∈ xs, isName x) :
    Rereads (.function xs body) := by
  apply of_operand rfl
  intro level rest _
  have hfunction := readOperand_function (h.function hxs (level + 1) rest trivial)
  exact hfunction.words (by simp [Code.pieces, readTokens_bodyPieces])
    (by simp [Code.pieces, readTokens_bodyPieces]; omega)

namespace StatementRereads

theorem localFunction (h : BlockRereads body) (hx : isName x) (hxs : ∀ x ∈ xs, isName x) :
    StatementRereads (.localFunction x xs body) := by
  intro level rest _
  have hfunction := readStatement_local
    (readLocal_function hx (h.function hxs (level + 1) rest trivial))
  exact hfunction.words (by simp [Code.pieces, readTokens_bodyPieces])
    (by simp [Code.pieces, readTokens_bodyPieces]; omega)

theorem block (h : BlockRereads body) : StatementRereads (.block body) := by
  intro level rest _
  have hblock := readStatement_block (h (level + 1) (.word "end" :: rest) rfl)
  exact hblock.words (by simp [Code.pieces]) (by simp [Code.pieces]; omega)

theorem locals (hne : xs ≠ []) (hxs : ∀ x ∈ xs, isName x) (h : ∀ e ∈ es, Rereads e) :
    StatementRereads (.locals xs es) := by
  intro level rest hends
  cases es with
  | nil =>
    have hnames := readNames_separated hne hxs (hends.ne_symbol (by decide))
    have hlocal := readStatement_local (readLocal_names hnames (hends.ne_symbol (by decide)))
    exact hlocal.words (by simp [Code.pieces]) (by simp [Code.pieces])
  | cons e es =>
    have hvalues := parses_exprs (List.cons_ne_nil e es) h level rest
      ⟨hends.stops, hends.ne_symbol (by decide)⟩
    have hsign : ∀ t ∈ (Token.symbol "=" ::
        (readTokens (separated (Code.listPieces level (e :: es))) ++ rest)).head?,
        t ≠ .symbol "," := by
      rintro _ ⟨⟩
      decide
    have hnames := readNames_separated hne hxs hsign
    have hlocal := readStatement_local (readLocal_values hnames hvalues)
    exact hlocal.words (by simp [Code.pieces]) (by simp [Code.pieces]; omega)

theorem perform (hc : e.isCall) (h : Rereads e) : StatementRereads (.perform e) := by
  intro level rest hends
  have hcallable : e.isCallable := by cases e <;> first | rfl | cases hc
  have hcall : e.printed.isCall := by cases e <;> first | rfl | cases hc
  have hopen : e.endsOpen := Code.endsOpen_of_isCallable hcallable
  have hsuffix : NoSuffix rest := fun t ht => (hends.stops t ht).2 hopen
  have hprefixed := h.prefixed hcallable level rest 1 _ (readSuffixes_stop hsuffix _)
  have hperform := readStatement_call hcall hprefixed
    fun t ht => ⟨hends.ne_symbol (by decide) t ht, hends.ne_symbol (by decide) t ht⟩
  exact hperform.words (by simp [Code.pieces]) (by simp [Code.pieces])

/-- The words after the first target of an assignment, up to its sign. -/
theorem readsTargets (level : Nat) (hes : ∀ t ∈ e :: targets, t.isTarget)
    (h : ∀ t ∈ targets, Rereads t) :
    ∃ ts, readTokens (separated (Code.listPieces level (e :: targets))) =
        readTokens (e.pieces level) ++ ts ∧
      ∀ rest, NoSuffix (ts ++ .symbol "=" :: rest) ∧
        Reads (16 * ts.length + 2) (readTargets · e.printed (ts ++ .symbol "=" :: rest))
          (Code.printedAll (e :: targets), rest) := by
  have hprinted {e : Code} (he : e.isTarget) : e.printed.isTarget := by
    cases e with
    | name x => rfl
    | index table key => rfl
    | member table x =>
      rw [Code.printed]
      split <;> rfl
    | _ => cases he
  induction targets generalizing e with
  | nil =>
    refine ⟨[], by simp [Code.listPieces, separated], fun rest => ⟨?_, ?_⟩⟩
    · rintro _ ⟨⟩
      decide
    · exact (readTargets_last (hprinted (hes e List.mem_cons_self)) rest).mono (by simp)
  | cons t targets ih =>
    have htarget := hes t (List.mem_cons_of_mem e List.mem_cons_self)
    obtain ⟨ts, htokens, hts⟩ := ih (fun d hd => hes d (List.mem_cons_of_mem e hd))
      fun d hd => h d (List.mem_cons_of_mem t hd)
    refine ⟨.symbol "," :: (readTokens (t.pieces level) ++ ts), ?_, fun rest => ⟨?_, ?_⟩⟩
    · rw [← htokens]
      simp [Code.listPieces, separated]
    · rintro _ ⟨⟩
      decide
    · obtain ⟨hsuffix, hrest⟩ := hts rest
      have hcallable : t.isCallable := by cases t <;> first | rfl | cases htarget
      have hprefixed := (h t List.mem_cons_self).prefixed hcallable level _ 1 _
        (readSuffixes_stop hsuffix t.printed)
      have htargets := readTargets_cons (hprinted (hes e List.mem_cons_self)) hprefixed hrest
      exact htargets.words (by simp) (by simp; omega)

theorem assign (hne : targets ≠ []) (htargets : ∀ t ∈ targets, t.isTarget)
    (ht : ∀ t ∈ targets, Rereads t) (hne' : es ≠ []) (h : ∀ e ∈ es, Rereads e) :
    StatementRereads (.assign targets es) := by
  intro level rest hends
  cases targets with
  | nil => exact absurd rfl hne
  | cons e targets =>
    obtain ⟨ts, htokens, hts⟩ := readsTargets level htargets
      fun t hd => ht t (List.mem_cons_of_mem e hd)
    obtain ⟨hsuffix, hread⟩ := hts (readTokens (separated (Code.listPieces level es)) ++ rest)
    have htarget := htargets e List.mem_cons_self
    have hcallable : e.isCallable := by cases e <;> first | rfl | cases htarget
    have hprefixed := (ht e List.mem_cons_self).prefixed hcallable level _ 1 _
      (readSuffixes_stop hsuffix e.printed)
    have hvalues := parses_exprs hne' h level rest ⟨hends.stops, hends.ne_symbol (by decide)⟩
    have hassign := readStatement_assign hprefixed hread hvalues
    exact hassign.words (by simp [Code.pieces, htokens])
      (by simp [Code.pieces, htokens]; omega)

end StatementRereads

end Statements

/-- The first of the words begins a name or a parenthesis, and the latter only if `paren` says so. -/
def BeginsPrefixed (paren : Bool) (ts : List Token) : Prop :=
  ∃ t, ts.head? = some t ∧ t.beginsPrefixed ∧ (t = .symbol "(" → paren)

theorem BeginsPrefixed.append {paren : Bool} {p : List Piece} (h : BeginsPrefixed paren (readTokens p))
    (q : List Piece) : BeginsPrefixed paren (readTokens (p ++ q)) := by
  obtain ⟨t, htokens, ht, hparen⟩ := h
  refine ⟨t, ?_, ht, hparen⟩
  rw [readTokens_append, List.head?_append, htokens]
  rfl

theorem BeginsPrefixed.wrapIf {e : Code} {level : Nat}
    (h : e.isCallable → BeginsPrefixed e.opensWithParen (readTokens (e.pieces level))) :
    BeginsPrefixed (!e.isReference || e.opensWithParen)
      (readTokens (wrapIf (!e.isCallable) (e.pieces level))) := by
  cases hc : e.isCallable with
  | true =>
    obtain ⟨t, htokens, ht, hparen⟩ := h hc
    refine ⟨t, htokens, ht, fun heq => ?_⟩
    rw [hparen heq, Bool.or_true]
  | false =>
    have href : e.isReference = false := by cases e <;> first | rfl | cases hc
    refine ⟨.symbol "(", by simp, by decide, ?_⟩
    intro _
    rw [href]
    rfl

/-- What can be called begins with a name or a parenthesis. -/
theorem beginsPrefixed_callable (level : Nat) : (e : Code) → e.IsExpr .lua → e.isCallable →
    BeginsPrefixed e.opensWithParen (readTokens (e.pieces level))
  | .name x, h, _ => ⟨.word x, rfl, h, nofun⟩
  | .paren inner, _, _ => ⟨.symbol "(", rfl, by decide, fun _ => rfl⟩
  | .index table key, h, _ => by
    have hwrapped := BeginsPrefixed.wrapIf (beginsPrefixed_callable level table h.1)
    rw [Code.pieces, List.append_assoc, List.append_assoc, Code.opensWithParen]
    exact hwrapped.append _
  | .member table x, h, _ => by
    have hwrapped := BeginsPrefixed.wrapIf (beginsPrefixed_callable level table h)
    rw [Code.pieces, Code.opensWithParen]
    exact hwrapped.append _
  | .call callee arguments, h, _ => by
    have hwrapped := BeginsPrefixed.wrapIf (beginsPrefixed_callable level callee h.1)
    rw [Code.pieces, List.append_assoc, List.append_assoc, Code.opensWithParen]
    exact hwrapped.append _
  | .invoke receiver method arguments, h, _ => by
    have hwrapped := BeginsPrefixed.wrapIf (beginsPrefixed_callable level receiver h.1)
    rw [Code.pieces, List.append_assoc, List.append_assoc, List.append_assoc, List.append_assoc,
      Code.opensWithParen]
    exact hwrapped.append _

theorem Token.beginsStatement_of_beginsPrefixed {t : Token} (h : t.beginsPrefixed) :
    t.beginsStatement := by
  cases t with
  | word x =>
    have hx : isName x := h
    simp [Token.beginsStatement, hx]
  | symbol s =>
    have hs : s = "(" := of_decide_eq_true h
    simp [Token.beginsStatement, hs]
  | numeral text => cases h
  | quoted text => cases h

/-- A statement that begins with a parenthesis is a call, which a semicolon comes before, or an
assignment. -/
theorem Code.IsStatement.begins {c : Code} (h : c.IsStatement .lua) (level : Nat) :
    ∃ t, (readTokens (c.pieces level)).head? = some t ∧ t.beginsStatement ∧
      (t = .symbol "(" → c.startsWithParen ∨ c.guardPieces = Lua.symbol ";") := by
  cases c with
  | locals names values =>
    refine ⟨.word "local", ?_, by decide, nofun⟩
    cases values <;> rfl
  | localFunction x parameters body => exact ⟨.word "local", rfl, by decide, nofun⟩
  | returns values =>
    refine ⟨.word "return", ?_, by decide, nofun⟩
    cases values <;> rfl
  | block body => exact ⟨.word "do", rfl, by decide, nofun⟩
  | perform e =>
    have hcall : e.isCall := h.1
    have hcallable : e.isCallable := by cases e <;> first | rfl | cases hcall
    obtain ⟨t, htokens, ht, hparen⟩ := beginsPrefixed_callable level e h.2 hcallable
    exact ⟨t, htokens, Token.beginsStatement_of_beginsPrefixed ht,
      fun heq => .inr (if_pos (hparen heq))⟩
  | assign targets values =>
    obtain ⟨hne, htargets, -, hexprs, -⟩ := h
    cases targets with
    | nil => exact absurd rfl hne
    | cons e targets =>
      have htarget := htargets e List.mem_cons_self
      have hcallable : e.isCallable := by cases e <;> first | rfl | cases htarget
      obtain ⟨t, htokens, ht, hparen⟩ := beginsPrefixed_callable level e hexprs.1 hcallable
      refine ⟨t, ?_, Token.beginsStatement_of_beginsPrefixed ht, fun heq => .inl (hparen heq)⟩
      cases targets <;> simp [Code.pieces, Code.listPieces, separated, htokens]
  | _ => cases h

namespace BlockRereads

variable {c : Code} {body : List Code}

theorem nil : BlockRereads [] := by
  intro level rest hend
  exact (readBlock_end hend).mono (by simp)

theorem returns {es : List Code} (h : ∀ e ∈ es, Rereads e) : BlockRereads [.returns es] := by
  intro level rest hend
  cases es with
  | nil =>
    have hreturn := readBlock_return (readReturn_nil hend)
    exact hreturn.words (by simp [Code.linesPieces, Code.guardPieces, Code.pieces])
      (by simp [Code.linesPieces, Code.guardPieces, Code.pieces])
  | cons e es =>
    have hends := Ends.of_blockEnds hend (Code.lastEndsOpen (e :: es))
    have hvalues := parses_exprs (List.cons_ne_nil e es) h level rest
      ⟨hends.stops, hends.ne_symbol (by decide)⟩
    have hreturn := readBlock_return (readReturn_exprs hvalues hend)
    exact hreturn.words (by simp [Code.linesPieces, Code.guardPieces, Code.pieces])
      (by simp [Code.linesPieces, Code.guardPieces, Code.pieces]; omega)

/-- The words of a block do not go on with a statement before it that can be followed by the first
statement of the block. -/
theorem ends {isOpen : Bool} (hbody : Code.IsBlock .lua body)
    (happart : ∀ d ∈ body.head?, ¬(isOpen ∧ d.startsWithParen)) (level : Nat) {rest : List Token}
    (hend : blockEnds rest) :
    Ends isOpen (readTokens (Code.linesPieces level body) ++ rest) := by
  cases body with
  | nil => exact Ends.of_blockEnds hend isOpen
  | cons d body =>
    obtain ⟨t, htokens, ht, hparen⟩ := Code.IsStatement.begins hbody.1 level
    rcases Code.guardPieces_cases d with hguard | hguard
    · intro t' ht'
      simp only [Code.linesPieces, hguard, readTokens_append, readTokens_line, readTokens_nil,
        List.nil_append, List.append_assoc, List.head?_append, htokens, Option.some_or] at ht'
      cases ht'
      refine ⟨ht, ?_⟩
      rintro hopen rfl
      rcases hparen rfl with hstarts | hsemicolon
      · exact happart d rfl ⟨hopen, hstarts⟩
      · rw [hguard] at hsemicolon
        cases hsemicolon
    · intro t' ht'
      simp only [Code.linesPieces, hguard, readTokens_append, readTokens_symbol] at ht'
      cases ht'
      exact ⟨by decide, fun _ => by decide⟩

theorem cons (hc : StatementRereads c) (hrest : BlockRereads body) (hstatement : c.IsStatement .lua)
    (hbody : Code.IsBlock .lua body) (happart : ∀ d ∈ body.head?, ¬(c.endsOpen ∧ d.startsWithParen)) :
    BlockRereads (c :: body) := by
  intro level rest hend
  have hfirst := hc level _ (ends hbody happart level hend)
  have hbody := hrest level rest hend
  have hlength : 1 ≤ (readTokens (c.pieces level)).length := by
    obtain ⟨t, htokens, -, -⟩ := Code.IsStatement.begins hstatement level
    apply List.length_pos_iff.2
    intro hnil
    rw [hnil] at htokens
    cases htokens
  have hblock := readBlock_cons (n := 16 * ((readTokens (c.pieces level)).length +
      (readTokens (Code.linesPieces level body)).length) + 8)
    (hfirst.mono (by omega)) (hbody.mono (by omega))
  rcases Code.guardPieces_cases c with hguard | hguard
  · exact hblock.words (by simp [Code.linesPieces, hguard]) (by simp [Code.linesPieces, hguard])
  · have hsemicolon := readBlock_semicolon hblock
    have hlines : readTokens (Code.linesPieces level (c :: body)) =
        .symbol ";" :: (readTokens (c.pieces level) ++ readTokens (Code.linesPieces level body)) := by
      simp [Code.linesPieces, hguard]
    rw [hlines]
    exact hsemicolon.words (by simp) (by rw [List.length_cons, List.length_append]; omega)

end BlockRereads

mutual

theorem Code.rereads : (e : Code) → e.IsExpr .lua → e.KeepsApart → Rereads e
  | .nil, _, _ => Rereads.nil
  | .boolean b, _, _ => Rereads.boolean b
  | .number text, _, _ => Rereads.number text
  | .string value, _, _ => Rereads.string value
  | .name _, h, _ => Rereads.name h
  | .index t key, h, ha => Rereads.index (Code.rereads t h.1 ha.1) (Code.rereads key h.2 ha.2)
  | .member t x, h, ha => Rereads.member (Code.rereads t h ha) x
  | .call callee arguments, h, ha =>
    Rereads.call (Code.rereads callee h.1 ha.1) (Code.rereadsAll arguments h.2 ha.2)
  | .invoke receiver _ arguments, h, ha =>
    Rereads.invoke (Code.rereads receiver h.1 ha.1) h.2.1 (Code.rereadsAll arguments h.2.2 ha.2)
  | .binary left op right, h, ha =>
    Rereads.binary (Code.rereads left h.1 ha.1) (Code.rereads right h.2 ha.2) op
  | .unary op operand, h, ha => Rereads.unary (Code.rereads operand h ha) op
  | .table fields, h, ha => Rereads.table (Field.rereadsAll fields h ha)
  | .function _ body, h, ha => Rereads.function (Code.blockRereads body h.2 ha) h.1
  | .paren inner, h, ha => Rereads.paren (Code.rereads inner h ha)

theorem Code.rereadsAll :
    (es : List Code) → Code.AllExprs .lua es → Code.AllKeepApart es → ∀ e ∈ es, Rereads e
  | [], _, _ => nofun
  | e :: es, h, ha =>
    List.forall_mem_cons.2 ⟨Code.rereads e h.1 ha.1, Code.rereadsAll es h.2 ha.2⟩

theorem Field.rereadsAll :
    (fs : List Field) → Field.AllExprs .lua fs → Field.AllKeepApart fs → ∀ f ∈ fs, f.Rereads
  | [], _, _ => nofun
  | .item value :: fs, h, ha =>
    List.forall_mem_cons.2
      ⟨Field.Rereads.item (Code.rereads value h.1 ha.1), Field.rereadsAll fs h.2 ha.2⟩
  | .named x value :: fs, h, ha =>
    List.forall_mem_cons.2
      ⟨Field.Rereads.named (Code.rereads value h.1 ha.1) x, Field.rereadsAll fs h.2 ha.2⟩
  | .keyed key value :: fs, h, ha =>
    List.forall_mem_cons.2
      ⟨Field.Rereads.keyed (Code.rereads key h.1 ha.1) (Code.rereads value h.2.1 ha.2.1),
        Field.rereadsAll fs h.2.2 ha.2.2⟩

/-- A return is read as a block of its own. -/
theorem Code.statementRereads : (c : Code) → c.IsStatement .lua → c.KeepsApart →
    StatementRereads c ∨ c.isReturn ∧ BlockRereads [c]
  | .locals _ values, h, ha =>
    .inl (StatementRereads.locals h.1 h.2.1 (Code.rereadsAll values h.2.2 ha))
  | .localFunction _ _ body, h, ha =>
    .inl (StatementRereads.localFunction (Code.blockRereads body h.2.2 ha) h.1 h.2.1)
  | .assign targets values, h, ha =>
    .inl (StatementRereads.assign h.1 h.2.1 (Code.rereadsAll targets h.2.2.2.1 ha.1) h.2.2.1
      (Code.rereadsAll values h.2.2.2.2 ha.2))
  | .perform e, h, ha => .inl (StatementRereads.perform h.1 (Code.rereads e h.2 ha))
  | .returns values, h, ha => .inr ⟨rfl, BlockRereads.returns (Code.rereadsAll values h ha)⟩
  | .block body, h, ha => .inl (StatementRereads.block (Code.blockRereads body h ha))

theorem Code.blockRereads :
    (body : List Code) → Code.IsBlock .lua body → Code.BlockKeepsApart body → BlockRereads body
  | [], _, _ => BlockRereads.nil
  | c :: body, h, ha => by
    rcases Code.statementRereads c h.1 ha.1 with hc | ⟨hreturn, hc⟩
    · exact BlockRereads.cons hc (Code.blockRereads body h.2.2 ha.2.2) h.1 h.2.2 ha.2.1
    · obtain rfl : body = [] := h.2.1 hreturn
      exact hc

end

end ScriptToLua.Lua
