import Mathlib
import ScriptToLua.Proofs.Lua.Parser

/-!
The rules of the grammar: what a reader reads when the readers it uses read their parts, and how many
levels of readers that takes.
-/

namespace ScriptToLua.Lua

/-- With `n` levels or more the reader yields `b`. -/
def Reads {β : Type} (n : Nat) (reader : Nat → Option β) (b : β) : Prop :=
  ∀ room, n ≤ room → reader room = some b

theorem Reads.mono {β : Type} {n n' : Nat} {reader : Nat → Option β} {b : β} (h : Reads n reader b)
    (hn : n ≤ n') : Reads n' reader b := fun room hr => h room (Nat.le_trans hn hr)

theorem Reads.words {β : Type} {n n' : Nat} {reader : Nat → List Token → Option β}
    {ts ts' : List Token} {b : β} (h : Reads n (reader · ts) b) (hts : ts = ts') (hn : n ≤ n') :
    Reads n' (reader · ts') b := by
  rw [← hts]
  exact h.mono hn

theorem Reads.succ {β : Type} {n : Nat} {reader : Nat → Option β} {b : β}
    (h : ∀ room, n ≤ room → reader (room + 1) = some b) : Reads (n + 1) reader b := by
  intro room hr
  obtain ⟨room, rfl⟩ := Nat.exists_eq_add_of_le' (Nat.le_of_add_left_le hr)
  exact h room (Nat.le_of_succ_le_succ hr)

theorem expect_self (t : Token) (ts : List Token) : expect t (t :: ts) = some ts := if_pos rfl

theorem expect_none {t : Token} {ts : List Token} (h : ∀ t' ∈ ts.head?, t' ≠ t) :
    expect t ts = none := by
  cases ts with
  | nil => rfl
  | cons t' ts => exact if_neg (h t' rfl)

/-- Whether a word can begin an expression. -/
def Token.beginsExpr : Token → Bool
  | word x => isName x || ["nil", "true", "false", "function", "not"].contains x
  | numeral _ => true
  | quoted _ => true
  | symbol s => ["(", "\x7b", "-", "#"].contains s

/-- Whether a word can begin a name or an expression in parentheses. -/
def Token.beginsPrefixed : Token → Bool
  | word x => isName x
  | symbol s => s = "("
  | _ => false

/-- Whether a word after an expression begins a call or an access. -/
def Token.opensSuffix : Token → Bool
  | symbol s => s = "." || s = "[" || s = ":" || s = "(" || s = "\x7b"
  | quoted _ => true
  | _ => false

/-- The words do not go on with a call or an access. -/
def NoSuffix (ts : List Token) : Prop := ∀ t ∈ ts.head?, t.opensSuffix = false

/-- The words do not go on with an operator that binds more strongly than `limit`. -/
def NoOperator (limit : Nat) (ts : List Token) : Prop :=
  ∀ t ∈ ts.head?, ∀ op ∈ binaryOp? t, op.precedence ≤ limit

@[simp] theorem binaryOp?_token (op : BinaryOp) : binaryOp? op.token = some op := by
  cases op <;> decide

@[simp] theorem unaryOp?_token (op : UnaryOp) : unaryOp? op.token = some op := by
  cases op <;> decide

section Name

variable {x : String}

theorem isKeyword_of_isName (h : isName x) : isKeyword x = false := by
  unfold isName at h
  split at h
  · cases h
  · simp only [Bool.and_eq_true, Bool.not_eq_true'] at h
    exact h.2

theorem ne_of_isName (h : isName x) {k : String} (hk : isKeyword k) : x ≠ k := by
  rintro rfl
  rw [isKeyword_of_isName h] at hk
  cases hk

theorem ne_word_of_beginsPrefixed {t : Token} (ht : t.beginsPrefixed) {k : String}
    (hk : isKeyword k) : t ≠ .word k := by
  rintro rfl
  have hname : isName k := ht
  exact ne_of_isName hname hk rfl

theorem unaryOp?_of_isName (h : isName x) : unaryOp? (.word x) = none := by
  have hne : "not" ≠ x := (ne_of_isName h (by decide)).symm
  simp [unaryOp?, UnaryOp.all, UnaryOp.token, hne]

theorem binaryOp?_of_isName (h : isName x) : binaryOp? (.word x) = none := by
  have hor : "or" ≠ x := (ne_of_isName h (by decide)).symm
  have hand : "and" ≠ x := (ne_of_isName h (by decide)).symm
  simp [binaryOp?, BinaryOp.all, BinaryOp.token, BinaryOp.text, hor, hand]

end Name

section Operators

variable {n n' limit : Nat} {e left right : Code} {t : Token} {ts ts' : List Token}
  {r : Code × List Token}

theorem readExpr_rule (h : Reads n (readOperand · ts) (e, ts'))
    (h' : Reads n' (readOperators · limit e ts') r) :
    Reads (n + n' + 1) (readExpr · limit ts) r := by
  apply Reads.succ
  intro room hr
  have h₁ : readOperand room ts = some (e, ts') := h room (by omega)
  have h₂ : readOperators room limit e ts' = some r := h' room (by omega)
  rw [readExpr, h₁]
  exact h₂

theorem readOperators_stop (h : NoOperator limit ts) (e : Code) :
    Reads 1 (readOperators · limit e ts) (e, ts) := by
  apply Reads.succ
  intro room _
  rw [readOperators]
  cases ts with
  | nil => rfl
  | cons t ts =>
    cases hop : binaryOp? t with
    | none => simp only [List.head?_cons, Option.bind_some, hop]
    | some op =>
      have hle : op.precedence ≤ limit := h t rfl op hop
      simp only [List.head?_cons, Option.bind_some, hop, if_neg (Nat.not_lt.2 hle)]

theorem readOperators_rule {op : BinaryOp} (hl : limit < op.precedence)
    (h : Reads n (readExpr · op.rightPrecedence ts) (right, ts'))
    (h' : Reads n' (readOperators · limit (.binary left op right) ts') r) :
    Reads (n + n' + 1) (readOperators · limit left (op.token :: ts)) r := by
  apply Reads.succ
  intro room hr
  have h₁ : readExpr room op.rightPrecedence ts = some (right, ts') := h room (by omega)
  have h₂ : readOperators room limit (.binary left op right) ts' = some r := h' room (by omega)
  change readOperators (room + 1) limit left (op.token :: ts) = _
  rw [readOperators]
  simp only [List.head?_cons, Option.bind_some, binaryOp?_token, if_pos hl, List.tail_cons, h₁]
  exact h₂

theorem readOperand_unary (op : UnaryOp) (h : Reads n (readExpr · UnaryOp.precedence ts) (e, ts')) :
    Reads (n + 1) (readOperand · (op.token :: ts)) (.unary op e, ts') := by
  apply Reads.succ
  intro room hr
  have h₁ : readExpr room UnaryOp.precedence ts = some (e, ts') := h room hr
  change readOperand (room + 1) (op.token :: ts) = _
  rw [readOperand]
  simp only [List.head?_cons, Option.bind_some, unaryOp?_token, List.tail_cons, h₁]
  rfl

theorem readOperand_simple (ht : unaryOp? t = none) (h : Reads n (readSimple · (t :: ts)) r) :
    Reads (n + 1) (readOperand · (t :: ts)) r := by
  apply Reads.succ
  intro room hr
  rw [readOperand]
  simp only [List.head?_cons, Option.bind_some, ht]
  exact h room hr

end Operators

section Simple

variable {n n' limit : Nat} {e : Code} {ts ts' : List Token} {r : Code × List Token}

theorem readOperand_constant {t : Token} (ht : unaryOp? t = none)
    (h : ∀ room, readSimple (room + 1) (t :: ts) = some (e, ts)) :
    Reads 2 (readOperand · (t :: ts)) (e, ts) := by
  apply readOperand_simple ht
  apply Reads.succ
  intro room _
  exact h room

theorem readOperand_number (text : String) :
    Reads 2 (readOperand · (.numeral text :: ts)) (.number text, ts) := by
  apply readOperand_constant
  · simp [unaryOp?, UnaryOp.all, UnaryOp.token]
  · intro room
    rw [readSimple]

theorem readOperand_string (text : String) :
    Reads 2 (readOperand · (.quoted text :: ts)) (.string text, ts) := by
  apply readOperand_constant
  · simp [unaryOp?, UnaryOp.all, UnaryOp.token]
  · intro room
    rw [readSimple]

theorem readOperand_nil : Reads 2 (readOperand · (.word "nil" :: ts)) (.nil, ts) := by
  apply readOperand_constant
  · decide
  · intro room
    rw [readSimple, if_pos rfl]

theorem readOperand_boolean (b : Bool) :
    Reads 2 (readOperand · (.word (if b then "true" else "false") :: ts)) (.boolean b, ts) := by
  cases b with
  | true =>
    apply readOperand_constant
    · decide
    · intro room
      rw [if_pos rfl, readSimple, if_neg (by decide), if_pos rfl]
  | false =>
    apply readOperand_constant
    · decide
    · intro room
      rw [if_neg nofun, readSimple, if_neg (by decide), if_neg (by decide), if_pos rfl]

theorem readOperand_function {parameters : List String} {body : List Code}
    (h : Reads n (readFunction · ts) ((parameters, body), ts')) :
    Reads (n + 2) (readOperand · (.word "function" :: ts)) (.function parameters body, ts') := by
  apply readOperand_simple (by decide)
  apply Reads.succ
  intro room hr
  have h₁ : readFunction room ts = some ((parameters, body), ts') := h room hr
  change readSimple (room + 1) (.word "function" :: ts) = _
  rw [readSimple, if_neg (by decide), if_neg (by decide), if_neg (by decide), if_pos rfl, h₁]
  rfl

theorem readOperand_table {fields : List Field} (h : Reads n (readFields · ts) (fields, ts')) :
    Reads (n + 2) (readOperand · (.symbol "\x7b" :: ts)) (.table fields, ts') := by
  apply readOperand_simple (by decide)
  apply Reads.succ
  intro room hr
  have h₁ : readFields room ts = some (fields, ts') := h room hr
  change readSimple (room + 1) (.symbol "\x7b" :: ts) = _
  rw [readSimple, if_pos rfl, h₁]
  rfl

end Simple

section Prefixed

variable {n n' limit : Nat} {e inner key : Code} {x : String} {t : Token}
  {ts ts' ts'' : List Token} {es : List Code} {r : Code × List Token}

theorem beginsPrefixed_of_readPrefixed {room : Nat} (h : readPrefixed room ts = some r) :
    ∃ t ts', ts = t :: ts' ∧ t.beginsPrefixed := by
  unfold readPrefixed at h
  split at h
  · cases h
  · next x ts' =>
    split at h
    · next hx => exact ⟨_, _, rfl, hx⟩
    · cases h
  · next s ts' =>
    split at h
    · next hs => exact ⟨_, _, rfl, decide_eq_true hs⟩
    · cases h
  · cases h

theorem readOperand_prefixed (h : Reads n (readPrefixed · ts) r) :
    Reads (n + 2) (readOperand · ts) r := by
  obtain ⟨t, ts', rfl, ht⟩ := beginsPrefixed_of_readPrefixed (h n (Nat.le_refl n))
  cases t with
  | word x =>
    have hx : isName x := ht
    apply readOperand_simple (unaryOp?_of_isName hx)
    apply Reads.succ
    intro room hr
    rw [readSimple, if_neg (ne_of_isName hx (by decide)), if_neg (ne_of_isName hx (by decide)),
      if_neg (ne_of_isName hx (by decide)), if_neg (ne_of_isName hx (by decide))]
    exact h room hr
  | symbol s =>
    obtain rfl : s = "(" := of_decide_eq_true ht
    apply readOperand_simple (by decide)
    apply Reads.succ
    intro room hr
    rw [readSimple, if_neg (by decide)]
    exact h room hr
  | numeral text => cases ht
  | quoted text => cases ht

theorem readPrefixed_name (hx : isName x) (h : Reads n (readSuffixes · (.name x) ts) r) :
    Reads (n + 1) (readPrefixed · (.word x :: ts)) r := by
  apply Reads.succ
  intro room hr
  rw [readPrefixed, if_pos hx]
  exact h room hr

theorem readPrefixed_paren (h : Reads n (readExpr · 0 ts) (inner, .symbol ")" :: ts'))
    (h' : Reads n' (readSuffixes · (.paren inner) ts') r) :
    Reads (n + n' + 1) (readPrefixed · (.symbol "(" :: ts)) r := by
  apply Reads.succ
  intro room hr
  have h₁ : readExpr room 0 ts = some (inner, .symbol ")" :: ts') := h room (by omega)
  have h₂ : readSuffixes room (.paren inner) ts' = some r := h' room (by omega)
  change readPrefixed (room + 1) (.symbol "(" :: ts) = _
  rw [readPrefixed, if_pos rfl, h₁]
  change ((expect (.symbol ")") (.symbol ")" :: ts')).bind _) = _
  rw [expect_self]
  exact h₂

theorem readSuffixes_stop (h : NoSuffix ts) (e : Code) :
    Reads 1 (readSuffixes · e ts) (e, ts) := by
  apply Reads.succ
  intro room _
  cases ts with
  | nil => rw [readSuffixes] <;> nofun
  | cons t ts =>
    have ht : t.opensSuffix = false := h t rfl
    cases t with
    | word x => rw [readSuffixes] <;> nofun
    | numeral text => rw [readSuffixes] <;> nofun
    | quoted text => cases ht
    | symbol s =>
      simp only [Token.opensSuffix, Bool.or_eq_false_iff, decide_eq_false_iff_not] at ht
      obtain ⟨⟨⟨⟨h₁, h₂⟩, h₃⟩, h₄⟩, h₅⟩ := ht
      rw [readSuffixes, if_neg h₁, if_neg h₂, if_neg h₃, if_neg (not_or.2 ⟨h₄, h₅⟩)]

theorem readSuffixes_member (hx : isName x) (h : Reads n (readSuffixes · (.member e x) ts) r) :
    Reads (n + 1) (readSuffixes · e (.symbol "." :: .word x :: ts)) r := by
  apply Reads.succ
  intro room hr
  rw [readSuffixes, if_pos rfl, readName, if_pos hx]
  exact h room hr

theorem readSuffixes_index (h : Reads n (readExpr · 0 ts) (key, .symbol "]" :: ts'))
    (h' : Reads n' (readSuffixes · (.index e key) ts') r) :
    Reads (n + n' + 1) (readSuffixes · e (.symbol "[" :: ts)) r := by
  apply Reads.succ
  intro room hr
  have h₁ : readExpr room 0 ts = some (key, .symbol "]" :: ts') := h room (by omega)
  have h₂ : readSuffixes room (.index e key) ts' = some r := h' room (by omega)
  change readSuffixes (room + 1) e (.symbol "[" :: ts) = _
  rw [readSuffixes, if_neg (by decide), if_pos rfl, h₁]
  change ((expect (.symbol "]") (.symbol "]" :: ts')).bind _) = _
  rw [expect_self]
  exact h₂

theorem readSuffixes_invoke (hx : isName x) (h : Reads n (readArguments · ts) (es, ts'))
    (h' : Reads n' (readSuffixes · (.invoke e x es) ts') r) :
    Reads (n + n' + 1) (readSuffixes · e (.symbol ":" :: .word x :: ts)) r := by
  apply Reads.succ
  intro room hr
  have h₁ : readArguments room ts = some (es, ts') := h room (by omega)
  have h₂ : readSuffixes room (.invoke e x es) ts' = some r := h' room (by omega)
  change readSuffixes (room + 1) e (.symbol ":" :: .word x :: ts) = _
  rw [readSuffixes, if_neg (by decide), if_neg (by decide), if_pos rfl, readName, if_pos hx]
  change ((readArguments room ts).bind _) = _
  rw [h₁]
  exact h₂

theorem readSuffixes_call (h : Reads n (readArguments · (.symbol "(" :: ts)) (es, ts'))
    (h' : Reads n' (readSuffixes · (.call e es) ts') r) :
    Reads (n + n' + 1) (readSuffixes · e (.symbol "(" :: ts)) r := by
  apply Reads.succ
  intro room hr
  have h₁ : readArguments room (.symbol "(" :: ts) = some (es, ts') := h room (by omega)
  have h₂ : readSuffixes room (.call e es) ts' = some r := h' room (by omega)
  change readSuffixes (room + 1) e (.symbol "(" :: ts) = _
  rw [readSuffixes, if_neg (by decide), if_neg (by decide), if_neg (by decide), if_pos (.inl rfl),
    h₁]
  exact h₂

end Prefixed

section Lists

variable {n n' limit : Nat} {e key value : Code} {x : String} {ts ts' ts'' : List Token}
  {es : List Code} {f : Field} {fs : List Field} {r : Code × List Token}

theorem beginsExpr_of_readSimple {room : Nat} {t : Token}
    (h : readSimple room (t :: ts) = some r) : t.beginsExpr := by
  cases room with
  | zero => cases h
  | succ room =>
    cases t with
    | numeral text => rfl
    | quoted text => rfl
    | word x =>
      by_contra hx
      simp only [Token.beginsExpr, List.contains_cons, List.contains_nil, Bool.or_eq_true,
        beq_iff_eq, not_or] at hx
      simp only [readSimple, hx, if_false] at h
      obtain ⟨t, ts', heq, ht⟩ := beginsPrefixed_of_readPrefixed h
      cases heq
      exact hx.1 ht
    | symbol s =>
      by_contra hs
      simp only [Token.beginsExpr, List.contains_cons, List.contains_nil, Bool.or_eq_true,
        beq_iff_eq, not_or] at hs
      simp only [readSimple, hs, if_false] at h
      obtain ⟨t, ts', heq, ht⟩ := beginsPrefixed_of_readPrefixed h
      cases heq
      exact hs.1 (of_decide_eq_true ht)

theorem beginsExpr_of_readExpr {room : Nat} (h : readExpr room limit ts = some r) :
    ∃ t ts', ts = t :: ts' ∧ t.beginsExpr := by
  cases room with
  | zero => cases h
  | succ room =>
    rw [readExpr] at h
    obtain ⟨p, ho, -⟩ := Option.bind_eq_some_iff.1 h
    cases room with
    | zero => cases ho
    | succ room =>
      rw [readOperand] at ho
      cases ts with
      | nil => cases room <;> cases ho
      | cons t ts =>
        refine ⟨t, ts, rfl, ?_⟩
        cases hop : unaryOp? t with
        | some op =>
          have ht : op.token = t := by simpa using List.find?_some hop
          rw [← ht]
          cases op <;> decide
        | none =>
          simp only [List.head?_cons, Option.bind_some, hop] at ho
          exact beginsExpr_of_readSimple ho

theorem readExprs_last (h : Reads n (readExpr · 0 ts) (e, ts'))
    (hend : ∀ t ∈ ts'.head?, t ≠ .symbol ",") : Reads (n + 1) (readExprs · ts) ([e], ts') := by
  apply Reads.succ
  intro room hr
  have h₁ : readExpr room 0 ts = some (e, ts') := h room hr
  rw [readExprs]
  simp only [h₁, Option.bind_eq_bind, Option.bind_some, expect_none hend]
  rfl

theorem readExprs_cons (h : Reads n (readExpr · 0 ts) (e, .symbol "," :: ts'))
    (h' : Reads n' (readExprs · ts') (es, ts'')) :
    Reads (n + n' + 1) (readExprs · ts) (e :: es, ts'') := by
  apply Reads.succ
  intro room hr
  have h₁ : readExpr room 0 ts = some (e, .symbol "," :: ts') := h room (by omega)
  have h₂ : readExprs room ts' = some (es, ts'') := h' room (by omega)
  rw [readExprs, h₁]
  change ((readExprs room ts').bind _) = _
  rw [h₂]
  rfl

theorem beginsExpr_of_readExprs {room : Nat} {r : List Code × List Token}
    (h : readExprs room ts = some r) : ∃ t ts', ts = t :: ts' ∧ t.beginsExpr := by
  cases room with
  | zero => cases h
  | succ room =>
    rw [readExprs] at h
    obtain ⟨p, he, -⟩ := Option.bind_eq_some_iff.1 h
    exact beginsExpr_of_readExpr he

/-- A word that begins no expression is not there where one has been read. -/
theorem expect_none_of_begins {t : Token} (h : ∃ t' ts', ts = t' :: ts' ∧ t'.beginsExpr)
    (ht : t.beginsExpr = false) : expect t ts = none := by
  obtain ⟨t', ts', rfl, ht'⟩ := h
  apply expect_none
  rintro _ ⟨⟩ rfl
  exact absurd ht' (Bool.eq_false_iff.1 ht)

theorem readArguments_nil : Reads 1 (readArguments · (.symbol "(" :: .symbol ")" :: ts)) ([], ts) := by
  apply Reads.succ
  intro room _
  rw [readArguments, if_pos rfl, expect_self]

theorem readArguments_exprs (h : Reads n (readExprs · ts) (es, .symbol ")" :: ts')) :
    Reads (n + 1) (readArguments · (.symbol "(" :: ts)) (es, ts') := by
  apply Reads.succ
  intro room hr
  have h₁ : readExprs room ts = some (es, .symbol ")" :: ts') := h room hr
  have hno : expect (.symbol ")") ts = none :=
    expect_none_of_begins (beginsExpr_of_readExprs h₁) rfl
  rw [readArguments, if_pos rfl, hno]
  change ((readExprs room ts).bind _) = _
  rw [h₁]
  rfl

theorem readField_item (h : Reads n (readExpr · 0 ts) (e, ts'))
    (hend : ∀ t ∈ ts'.head?, t ≠ .symbol "=") : Reads (n + 1) (readField · ts) (.item e, ts') := by
  apply Reads.succ
  intro room hr
  have h₁ : readExpr room 0 ts = some (e, ts') := h room hr
  have hno : expect (.symbol "[") ts = none :=
    expect_none_of_begins (beginsExpr_of_readExpr h₁) rfl
  rw [readField, hno]
  simp only [h₁, Option.bind_eq_bind, Option.bind_some, expect_none hend]
  rfl

theorem readField_named (h : Reads n (readExpr · 0 ts) (.name x, .symbol "=" :: ts'))
    (h' : Reads n' (readExpr · 0 ts') (value, ts'')) :
    Reads (n + n' + 1) (readField · ts) (.named x value, ts'') := by
  apply Reads.succ
  intro room hr
  have h₁ : readExpr room 0 ts = some (.name x, .symbol "=" :: ts') := h room (by omega)
  have h₂ : readExpr room 0 ts' = some (value, ts'') := h' room (by omega)
  have hno : expect (.symbol "[") ts = none :=
    expect_none_of_begins (beginsExpr_of_readExpr h₁) rfl
  rw [readField, hno, h₁]
  change ((readExpr room 0 ts').bind _) = _
  rw [h₂]
  rfl

theorem readField_keyed
    (h : Reads n (readExpr · 0 ts) (key, .symbol "]" :: .symbol "=" :: ts'))
    (h' : Reads n' (readExpr · 0 ts') (value, ts'')) :
    Reads (n + n' + 1) (readField · (.symbol "[" :: ts)) (.keyed key value, ts'') := by
  apply Reads.succ
  intro room hr
  have h₁ : readExpr room 0 ts = some (key, .symbol "]" :: .symbol "=" :: ts') := h room (by omega)
  have h₂ : readExpr room 0 ts' = some (value, ts'') := h' room (by omega)
  rw [readField, expect_self]
  change ((readExpr room 0 ts).bind _) = _
  rw [h₁]
  change ((readExpr room 0 ts').bind _) = _
  rw [h₂]
  rfl

theorem not_brace_of_readField {room : Nat} {r : Field × List Token}
    (h : readField room ts = some r) : expect (.symbol "\x7d") ts = none := by
  cases room with
  | zero => cases h
  | succ room =>
    apply expect_none
    intro t ht
    cases ts with
    | nil => cases ht
    | cons t' ts =>
      cases ht
      rintro rfl
      rw [readField, expect_none (by rintro _ ⟨⟩; decide)] at h
      obtain ⟨p, he, -⟩ := Option.bind_eq_some_iff.1 h
      obtain ⟨t, ts₁, heq, ht⟩ := beginsExpr_of_readExpr he
      cases heq
      cases ht

theorem readFields_nil : Reads 1 (readFields · (.symbol "\x7d" :: ts)) ([], ts) := by
  apply Reads.succ
  intro room _
  rw [readFields, expect_self]

theorem readFields_last (h : Reads n (readField · ts) (f, .symbol "\x7d" :: ts')) :
    Reads (n + 1) (readFields · ts) ([f], ts') := by
  apply Reads.succ
  intro room hr
  have h₁ : readField room ts = some (f, .symbol "\x7d" :: ts') := h room hr
  rw [readFields, not_brace_of_readField h₁]
  change ((readField room ts).bind _) = _
  rw [h₁]
  rfl

theorem readFields_cons (h : Reads n (readField · ts) (f, .symbol "," :: ts'))
    (h' : Reads n' (readFields · ts') (fs, ts'')) :
    Reads (n + n' + 1) (readFields · ts) (f :: fs, ts'') := by
  apply Reads.succ
  intro room hr
  have h₁ : readField room ts = some (f, .symbol "," :: ts') := h room (by omega)
  have h₂ : readFields room ts' = some (fs, ts'') := h' room (by omega)
  rw [readFields, not_brace_of_readField h₁]
  change ((readField room ts).bind _) = _
  rw [h₁]
  change ((readFields room ts').bind _) = _
  rw [h₂]
  rfl

end Lists

end ScriptToLua.Lua
