import Mathlib
import ScriptToLua.Lua.Name
import ScriptToLua.Lua.Printer
import ScriptToLua.Numeral

/-!
From Lua text to words. Blanks and comments separate the words, and every word is as long as it can
be. Long brackets are left out: text with one is not read. `lex_render` says when printed text is
read as the words it was printed from.
-/

namespace ScriptToLua.Lua

/-- The blanks of Lua. -/
def isBlank (c : Char) : Bool := [' ', '\t', '\n', '\r', '\x0b', '\x0c'].contains c

def symbols : List String :=
  ["+", "-", "*", "/", "//", "%", "^", "#", "&", "|", "~", "<<", ">>", "==", "~=", "<=", ">=", "<",
    ">", "=", "(", ")", "\x7b", "\x7d", "[", "]", "::", ";", ":", ",", ".", "..", "..."]

def isHexDigit (c : Char) : Bool := (Numeral.digit? 16 c).isSome

/-- Nothing, or an exponent after one of the marks. -/
def isExponent (marks : List Char) : List Char → Bool
  | [] => true
  | m :: '+' :: ds => marks.contains m && Numeral.isDecimal ds
  | m :: '-' :: ds => marks.contains m && Numeral.isDecimal ds
  | m :: ds => marks.contains m && Numeral.isDecimal ds

/-- Digits with at most one point among them, and perhaps an exponent. -/
def isMagnitude (digit : Char → Bool) (marks : List Char) (cs : List Char) : Bool :=
  match cs.dropWhile digit with
  | '.' :: rest =>
    !(cs.takeWhile digit ++ rest.takeWhile digit).isEmpty && isExponent marks (rest.dropWhile digit)
  | rest => !(cs.takeWhile digit).isEmpty && isExponent marks rest

/-- The marks before the exponent of a numeral that begins like this. -/
def exponentMarks (cs : List Char) : List Char :=
  if (Numeral.hexDigits? cs).isSome then ['p', 'P'] else ['e', 'E']

/-- An unsigned numeral of Lua. -/
def isNumeral (cs : List Char) : Bool :=
  match Numeral.hexDigits? cs with
  | some ds => isMagnitude isHexDigit ['p', 'P'] ds
  | none => isMagnitude Char.isDigit ['e', 'E'] cs

/-- What has been read since the last word. -/
inductive Mode where
  | blank
  | word (cs : List Char)
  | numeral (cs : List Char)
  | symbol (cs : List Char)
  /-- A string literal that began with `quote`. -/
  | quoted (quote : Char) (cs : List Char)
  /-- The same after a backslash. -/
  | escaped (quote : Char) (cs : List Char)
  /-- A string literal with its last quote. -/
  | closed (cs : List Char)
  /-- Two minus signs. -/
  | dashes
  | comment
  /-- There is no way to go on. -/
  | stuck

namespace Mode

/-- How a character begins a word. -/
def start? (c : Char) : Option Mode :=
  if isBlank c then some blank
  else if c.isDigit then some (numeral [c])
  else if isNameChar c then some (word [c])
  else if c = '"' ∨ c = '\'' then some (quoted c [])
  else if symbols.contains (String.singleton c) then some (symbol [c])
  else none

def isLineEnd (c : Char) : Bool := c = '\n' || c = '\r'

/-- How a word goes on with a character, if it does. -/
def extend? : Mode → Char → Option Mode
  | blank, _ => none
  | word cs, c => if isNameChar c then some (word (cs ++ [c])) else none
  | numeral cs, c =>
    if isNameChar c || c = '.' then some (numeral (cs ++ [c]))
    else if (c = '+' ∨ c = '-') ∧ cs.getLast?.any (exponentMarks cs).contains then
      some (numeral (cs ++ [c]))
    else none
  | symbol cs, c =>
    if cs = ['-'] ∧ c = '-' then some dashes
    else if cs = ['['] ∧ (c = '[' ∨ c = '=') then some stuck
    else if cs = ['.'] ∧ c.isDigit then some (numeral ['.', c])
    else if symbols.contains (String.ofList (cs ++ [c])) then some (symbol (cs ++ [c]))
    else none
  | quoted quote cs, c =>
    if c = quote then some (closed cs)
    else if c = '\\' then some (escaped quote (cs ++ [c]))
    else if isLineEnd c then some stuck
    else some (quoted quote (cs ++ [c]))
  | escaped quote cs, c => some (quoted quote (cs ++ [c]))
  | closed _, _ => none
  | dashes, c => if isLineEnd c then none else if c = '[' then some stuck else some comment
  | comment, c => if isLineEnd c then none else some comment
  | stuck, _ => some stuck

/-- The word that has been read, if there is one and it is complete. A string literal is its text
between the quotes. -/
def tokens? : Mode → Option (List Token)
  | blank => some []
  | word cs => some [.word (String.ofList cs)]
  | numeral cs => if isNumeral cs then some [.numeral (String.ofList cs)] else none
  | symbol cs => some [.symbol (String.ofList cs)]
  | closed cs => some [.quoted (String.ofList cs)]
  | dashes => some []
  | comment => some []
  | _ => none

end Mode

/-- The words of a text of which a part has been read already. -/
def lexFrom : Mode → List Char → Option (List Token)
  | mode, [] => mode.tokens?
  | mode, c :: cs =>
    match mode.extend? c with
    | some mode' => lexFrom mode' cs
    | none => do
      let ts ← mode.tokens?
      let mode' ← Mode.start? c
      return ts ++ (← lexFrom mode' cs)

/-- The words of a text. -/
def lex (text : String) : Option (List Token) := lexFrom .blank text.toList

/-- How a character of a string reads: the literal text between the quotes. -/
def literalText (value : String) : String := String.ofList (value.toList.flatMap escape)

namespace Token

/-- The word as it is read. -/
def raw : Token → Token
  | quoted value => quoted (literalText value)
  | t => t

/-- What has been read at the end of the word. -/
def mode : Token → Mode
  | word text => .word text.toList
  | numeral text => .numeral text.toList
  | quoted value => .closed (value.toList.flatMap escape)
  | symbol text => .symbol text.toList

/-- The first character of the word. -/
def first (t : Token) : Char := t.text.toList.headD ' '

/-- The text is read as the word. -/
def IsRead (t : Token) : Prop :=
  ∃ c cs m, t.text.toList = c :: cs ∧ Mode.start? c = some m ∧
    cs.foldlM Mode.extend? m = some t.mode ∧ t.mode.tokens? = some [t.raw]

end Token

/-- What is read of printed text. -/
def readTokens (pieces : List Piece) : List Token :=
  pieces.filterMap fun
    | .token t => some t.raw
    | _ => none

section ReadTokens

@[simp] theorem readTokens_nil : readTokens [] = [] := rfl

@[simp] theorem readTokens_append (ps qs : List Piece) :
    readTokens (ps ++ qs) = readTokens ps ++ readTokens qs := List.filterMap_append

@[simp] theorem readTokens_token (t : Token) (ps : List Piece) :
    readTokens (.token t :: ps) = t.raw :: readTokens ps := rfl

@[simp] theorem readTokens_line (level : Nat) (ps : List Piece) :
    readTokens (.line level :: ps) = readTokens ps := rfl

@[simp] theorem readTokens_word (x : String) : readTokens (word x) = [.word x] := rfl

@[simp] theorem readTokens_symbol (s : String) : readTokens (symbol s) = [.symbol s] := rfl

@[simp] theorem readTokens_quoted (value : String) :
    readTokens (quoted value) = [.quoted (literalText value)] := rfl

@[simp] theorem readTokens_gap : readTokens gap = [] := rfl

end ReadTokens

/-- No word runs into the next one; `mode` is what stands before. -/
def Spaced : Mode → List Piece → Prop
  | _, [] => True
  | mode, .token t :: rest => t.IsRead ∧ mode.extend? t.first = none ∧ Spaced t.mode rest
  | _, .gap :: rest => Spaced .blank rest
  | _, .line _ :: rest => Spaced .blank rest

section Lex

variable {m m' : Mode} {ts : List Token} {c : Char} {cs rest : List Char}

theorem lexFrom_run (h : cs.foldlM Mode.extend? m = some m') (rest : List Char) :
    lexFrom m (cs ++ rest) = lexFrom m' rest := by
  induction cs generalizing m with
  | nil =>
    obtain rfl : m = m' := Option.some.inj h
    rfl
  | cons c cs ih =>
    rw [List.foldlM_cons] at h
    cases hc : m.extend? c with
    | none => simp [hc] at h
    | some m₁ =>
      rw [hc] at h
      rw [List.cons_append, lexFrom, hc]
      exact ih h

theorem lexFrom_start (hm : m.tokens? = some ts) (he : m.extend? c = none)
    (hs : Mode.start? c = some m') (rest : List Char) :
    lexFrom m (c :: rest) = (lexFrom m' rest).map (ts ++ ·) := by
  rw [lexFrom, he]
  simp only [hm, hs, Option.bind_eq_bind, Option.bind_some]
  cases lexFrom m' rest with
  | none => rfl
  | some ts' => rfl

theorem lexFrom_token {t : Token} (ht : t.IsRead) (hm : m.tokens? = some ts)
    (he : m.extend? t.first = none) (rest : List Char) :
    lexFrom m (t.text.toList ++ rest) = (lexFrom t.mode rest).map (ts ++ ·) := by
  obtain ⟨c, cs, m₁, htext, hs, hrun, -⟩ := ht
  rw [Token.first, htext, List.headD_cons] at he
  rw [htext, List.cons_append, lexFrom_start hm he hs, lexFrom_run hrun]

theorem lexFrom_blanks (hm : m.tokens? = some ts) (he : ∀ c, isBlank c → m.extend? c = none)
    (hc : isBlank c) (hcs : ∀ c ∈ cs, isBlank c) (rest : List Char) :
    lexFrom m (c :: cs ++ rest) = (lexFrom .blank rest).map (ts ++ ·) := by
  have hstart {c : Char} (hc : isBlank c) : Mode.start? c = some .blank := by
    rw [Mode.start?, if_pos hc]
  rw [List.cons_append, lexFrom_start hm (he c hc) (hstart hc)]
  congr 1
  induction cs with
  | nil => rfl
  | cons c' cs ih =>
    have hc' := hstart (hcs c' List.mem_cons_self)
    have hid : (fun ts : List Token => [] ++ ts) = id := rfl
    rw [List.cons_append, lexFrom_start rfl rfl hc', hid, Option.map_id]
    exact ih fun c hc => hcs c (List.mem_cons_of_mem c' hc)

end Lex

theorem not_isBlank_of_isNameChar {c : Char} (h : isNameChar c) : isBlank c = false := by
  have hall : [' ', '\t', '\n', '\r', '\x0b', '\x0c'].all fun b => !isNameChar b := by decide
  rw [isBlank, ← Bool.not_eq_true]
  intro hb
  have hc := List.all_eq_true.1 hall c (List.contains_iff_mem.1 hb)
  rw [h] at hc
  cases hc

theorem foldlM_word {cs ds : List Char} (h : ∀ d ∈ ds, isNameChar d) :
    ds.foldlM Mode.extend? (.word cs) = some (.word (cs ++ ds)) := by
  induction ds generalizing cs with
  | nil => rw [List.append_nil]; rfl
  | cons d ds ih =>
    have hd : Mode.extend? (.word cs) d = some (.word (cs ++ [d])) := if_pos (h d List.mem_cons_self)
    rw [List.foldlM_cons, hd]
    change ds.foldlM Mode.extend? (.word (cs ++ [d])) = _
    rw [ih fun e he => h e (List.mem_cons_of_mem d he), List.append_assoc]
    rfl

section Numeral

variable {digit : Char → Bool} {marks pre cs ds exp : List Char}

theorem isNameChar_of_isDigit {c : Char} (h : c.isDigit) : isNameChar c := by
  simp only [isNameChar, Char.isAlphanum, h, Bool.or_true, Bool.true_or]

theorem isNameChar_of_isHexDigit {c : Char} (h : isHexDigit c) : isNameChar c := by
  unfold isHexDigit Numeral.digit? at h
  unfold isNameChar Char.isAlphanum Char.isAlpha
  by_cases hd : c.isDigit
  · simp only [hd, Bool.or_true, Bool.true_or]
  · by_cases hl : c.isLower
    · simp only [hl, Bool.or_true, Bool.true_or]
    · by_cases hu : c.isUpper
      · simp only [hu, Bool.true_or]
      · simp [hd, hl, hu] at h

/-- A magnitude is its digits and points, of which one digit stands first or right after a point, and
then its exponent. -/
theorem isMagnitude_split (hdigit : ∀ c, digit c → isNameChar c) (h : isMagnitude digit marks cs) :
    ∃ body exp, cs = body ++ exp ∧ (∀ c ∈ body, isNameChar c ∨ c = '.') ∧ isExponent marks exp ∧
      ((∃ c rest, body = c :: rest ∧ digit c) ∨ ∃ c rest, body = '.' :: c :: rest ∧ digit c) := by
  have htake (cs : List Char) : ∀ c ∈ cs.takeWhile digit, isNameChar c ∨ c = '.' :=
    fun c hc => .inl (hdigit c (List.mem_takeWhile_imp hc))
  have hfirst (cs : List Char) : cs.takeWhile digit = [] ∨
      ∃ c rest, cs.takeWhile digit = c :: rest ∧ digit c := by
    cases hw : cs.takeWhile digit with
    | nil => exact .inl rfl
    | cons c rest =>
      have hc : c ∈ cs.takeWhile digit := by rw [hw]; exact List.mem_cons_self
      exact .inr ⟨c, rest, rfl, List.mem_takeWhile_imp hc⟩
  have hcs : cs = cs.takeWhile digit ++ cs.dropWhile digit := List.takeWhile_append_dropWhile.symm
  unfold isMagnitude at h
  split at h
  · next rest hrest =>
    simp only [Bool.and_eq_true, Bool.not_eq_true', List.isEmpty_eq_false_iff] at h
    obtain ⟨hne, hexp⟩ := h
    refine ⟨cs.takeWhile digit ++ '.' :: rest.takeWhile digit, rest.dropWhile digit, ?_, ?_, hexp, ?_⟩
    · rw [List.append_assoc, List.cons_append, List.takeWhile_append_dropWhile, ← hrest]
      exact hcs
    · intro c hc
      rcases List.mem_append.1 hc with hc | hc
      · exact htake cs c hc
      · rcases List.mem_cons.1 hc with rfl | hc
        · exact .inr rfl
        · exact htake rest c hc
    · rcases hfirst cs with hnil | ⟨c, r, hw, hc⟩
      · rw [hnil] at hne ⊢
        rcases hfirst rest with hnil' | ⟨c, r, hw, hc⟩
        · exact absurd hnil' hne
        · exact .inr ⟨c, r, by rw [hw]; rfl, hc⟩
      · exact .inl ⟨c, _, by rw [hw]; rfl, hc⟩
  · simp only [Bool.and_eq_true, Bool.not_eq_true', List.isEmpty_eq_false_iff] at h
    obtain ⟨hne, hexp⟩ := h
    refine ⟨_, _, hcs, htake cs, hexp, ?_⟩
    rcases hfirst cs with hnil | hfound
    · exact absurd hnil hne
    · exact .inl hfound

theorem hexDigits?_append (h : Numeral.hexDigits? cs = some ds) (exp : List Char) :
    Numeral.hexDigits? (cs ++ exp) = some (ds ++ exp) := by
  unfold Numeral.hexDigits? at h
  split at h
  · cases h
    rfl
  · cases h
    rfl
  · cases h

/-- The mark of an exponent does not make a numeral hexadecimal. -/
theorem exponentMarks_append {m : Char} (h : m ∈ exponentMarks pre) :
    exponentMarks (pre ++ [m]) = exponentMarks pre := by
  have hm : m ≠ 'x' ∧ m ≠ 'X' := by
    unfold exponentMarks at h
    split at h
    · simp only [List.mem_cons, List.not_mem_nil, or_false] at h
      rcases h with rfl | rfl <;> decide
    · simp only [List.mem_cons, List.not_mem_nil, or_false] at h
      rcases h with rfl | rfl <;> decide
  have hpair {x : Char} {ds : List Char} (hx : m ≠ x) (hp : Numeral.hexDigits? pre = none) :
      x = 'x' ∨ x = 'X' → pre ++ [m] ≠ '0' :: x :: ds := by
    intro hx' heq
    cases pre with
    | nil => cases heq
    | cons a rest =>
      cases rest with
      | nil =>
        cases heq
        exact hx rfl
      | cons b rest =>
        cases heq
        rcases hx' with rfl | rfl <;> cases hp
  unfold exponentMarks
  cases hp : Numeral.hexDigits? pre with
  | some ds => rw [hexDigits?_append hp]; rfl
  | none =>
    have hn : Numeral.hexDigits? (pre ++ [m]) = none := by
      unfold Numeral.hexDigits?
      split
      · next ds heq => exact absurd heq (hpair hm.1 hp (.inl rfl))
      · next ds heq => exact absurd heq (hpair hm.2 hp (.inr rfl))
      · rfl
    rw [hn]

theorem foldlM_body (h : ∀ c ∈ cs, isNameChar c ∨ c = '.') :
    cs.foldlM Mode.extend? (.numeral pre) = some (.numeral (pre ++ cs)) := by
  induction cs generalizing pre with
  | nil => rw [List.append_nil]; rfl
  | cons c cs ih =>
    have hc : Mode.extend? (.numeral pre) c = some (.numeral (pre ++ [c])) := by
      apply if_pos
      simpa using h c List.mem_cons_self
    rw [List.foldlM_cons, hc]
    change cs.foldlM Mode.extend? (.numeral (pre ++ [c])) = _
    rw [ih fun d hd => h d (List.mem_cons_of_mem c hd), List.append_assoc]
    rfl

theorem foldlM_exponent (h : isExponent (exponentMarks pre) exp) :
    exp.foldlM Mode.extend? (.numeral pre) = some (.numeral (pre ++ exp)) := by
  have hmark {m : Char} (hm : m ∈ exponentMarks pre) : isNameChar m := by
    unfold exponentMarks at hm
    split at hm
    · simp only [List.mem_cons, List.not_mem_nil, or_false] at hm
      rcases hm with rfl | rfl <;> decide
    · simp only [List.mem_cons, List.not_mem_nil, or_false] at hm
      rcases hm with rfl | rfl <;> decide
  have hdigits {ds : List Char} (hds : Numeral.isDecimal ds) : ∀ d ∈ ds, isNameChar d ∨ d = '.' := by
    simp only [Numeral.isDecimal, Bool.and_eq_true, List.all_eq_true] at hds
    exact fun d hd => .inl (isNameChar_of_isDigit (hds.2 d hd))
  have hsigned {m sign : Char} {ds : List Char} (hsign : sign = '+' ∨ sign = '-')
      (h : (exponentMarks pre).contains m && Numeral.isDecimal ds) :
      (m :: sign :: ds).foldlM Mode.extend? (.numeral pre) =
        some (.numeral (pre ++ m :: sign :: ds)) := by
    simp only [Bool.and_eq_true, List.contains_iff_mem] at h
    obtain ⟨hm, hds⟩ := h
    have hfirst : Mode.extend? (.numeral pre) m = some (.numeral (pre ++ [m])) := by
      simp only [Mode.extend?, hmark hm, Bool.true_or, if_true]
    have hsecond : Mode.extend? (.numeral (pre ++ [m])) sign =
        some (.numeral (pre ++ [m] ++ [sign])) := by
      have hno : (isNameChar sign || sign = '.') = false := by
        rcases hsign with rfl | rfl <;> decide
      have hlast : (pre ++ [m]).getLast?.any (exponentMarks (pre ++ [m])).contains := by
        rw [exponentMarks_append hm, List.getLast?_concat, Option.any_some, List.contains_iff_mem]
        exact hm
      simp only [Mode.extend?, hno, Bool.false_eq_true, if_false, if_pos (And.intro hsign hlast)]
    rw [List.foldlM_cons, hfirst]
    change (sign :: ds).foldlM Mode.extend? (.numeral (pre ++ [m])) = _
    rw [List.foldlM_cons, hsecond]
    change ds.foldlM Mode.extend? (.numeral (pre ++ [m] ++ [sign])) = _
    rw [foldlM_body (hdigits hds)]
    simp
  unfold isExponent at h
  split at h
  · rw [List.append_nil]
    rfl
  · exact hsigned (.inl rfl) h
  · exact hsigned (.inr rfl) h
  · next m ds _ _ =>
    simp only [Bool.and_eq_true, List.contains_iff_mem] at h
    obtain ⟨hm, hds⟩ := h
    apply foldlM_body
    intro d hd
    rcases List.mem_cons.1 hd with rfl | hd
    · exact .inl (hmark hm)
    · exact hdigits hds d hd

end Numeral

/-- Name characters of which the first is no digit. -/
def isWord (text : String) : Bool :=
  match text.toList with
  | [] => false
  | c :: cs => !c.isDigit && isNameChar c && cs.all isNameChar

namespace Token

theorem word_isRead {text : String} (h : isWord text) : IsRead (.word text) := by
  unfold isWord at h
  cases htext : text.toList with
  | nil => simp only [htext, Bool.false_eq_true] at h
  | cons c cs =>
    simp only [htext, Bool.and_eq_true, Bool.not_eq_true', List.all_eq_true] at h
    obtain ⟨⟨hd, hc⟩, hcs⟩ := h
    refine ⟨c, cs, .word [c], htext, ?_, ?_, ?_⟩
    · simp only [Mode.start?, not_isBlank_of_isNameChar hc, hd, hc, Bool.false_eq_true, if_false, if_true]
    · rw [foldlM_word hcs, mode, htext]
      rfl
    · simp only [mode, Mode.tokens?, String.ofList_toList, raw]

theorem foldlM_escape (pre : List Char) (c : Char) :
    (escape c).foldlM Mode.extend? (.quoted '"' pre) = some (.quoted '"' (pre ++ escape c)) := by
  have hpair (x : Char) : ['\\', x].foldlM Mode.extend? (.quoted '"' pre) =
      some (.quoted '"' (pre ++ ['\\', x])) := by
    change some (Mode.quoted '"' (pre ++ ['\\'] ++ [x])) = _
    rw [List.append_assoc]
    rfl
  unfold escape
  split
  · exact hpair '\\'
  split
  · exact hpair '"'
  split
  · exact hpair 'n'
  split
  · exact hpair 'r'
  split
  · exact hpair 't'
  split
  · exact hpair '0'
  · next h₁ h₂ h₃ h₄ _ _ =>
    have hend : Mode.isLineEnd c = false := by simp [Mode.isLineEnd, h₃, h₄]
    have hc : Mode.extend? (.quoted '"' pre) c = some (.quoted '"' (pre ++ [c])) := by
      simp only [Mode.extend?, if_neg h₁, if_neg h₂, hend, Bool.false_eq_true, if_false]
    rw [List.foldlM_cons, hc]
    rfl

theorem quoted_isRead (value : String) : IsRead (.quoted value) := by
  have hall (cs pre : List Char) : (cs.flatMap escape).foldlM Mode.extend? (.quoted '"' pre) =
      some (.quoted '"' (pre ++ cs.flatMap escape)) := by
    induction cs generalizing pre with
    | nil => rw [List.flatMap_nil, List.append_nil]; rfl
    | cons c cs ih =>
      rw [List.flatMap_cons, List.foldlM_append, foldlM_escape]
      change (cs.flatMap escape).foldlM Mode.extend? (.quoted '"' (pre ++ escape c)) = _
      rw [ih, List.append_assoc]
  refine ⟨'"', value.toList.flatMap escape ++ ['"'], .quoted '"' [], ?_, rfl, ?_, rfl⟩
  · rw [text, quote, String.toList_ofList]
    rfl
  · rw [List.foldlM_append, hall]
    rfl

theorem numeral_isRead {text : String} (h : isNumeral text.toList) : IsRead (.numeral text) := by
  have hraw : (Token.numeral text).mode.tokens? = some [(Token.numeral text).raw] := by
    simp only [mode, Mode.tokens?, h, String.ofList_toList, raw, if_true]
  have hdigit {c : Char} (hc : c.isDigit) : Mode.start? c = some (.numeral [c]) := by
    simp only [Mode.start?, not_isBlank_of_isNameChar (isNameChar_of_isDigit hc), hc,
      Bool.false_eq_true, if_false, if_true]
  have hrest (pre body : List Char) {exp : List Char} (htext : text.toList = pre ++ body ++ exp)
      (hbody : ∀ c ∈ body, isNameChar c ∨ c = '.') (hexp : isExponent (exponentMarks (pre ++ body)) exp) :
      (body ++ exp).foldlM Mode.extend? (.numeral pre) = some (Token.numeral text).mode := by
    rw [List.foldlM_append, foldlM_body hbody]
    change exp.foldlM Mode.extend? (.numeral (pre ++ body)) = _
    rw [foldlM_exponent hexp, mode, htext]
  unfold isNumeral at h
  split at h
  · next ds hds =>
    obtain ⟨body, exp, rfl, hbody, hexp, -⟩ :=
      isMagnitude_split (fun _ hc => isNameChar_of_isHexDigit hc) h
    obtain ⟨x, hx, htext⟩ : ∃ x, (x = 'x' ∨ x = 'X') ∧ text.toList = '0' :: x :: (body ++ exp) := by
      unfold Numeral.hexDigits? at hds
      split at hds
      · next heq => exact ⟨'x', .inl rfl, by rw [heq, Option.some.inj hds]⟩
      · next heq => exact ⟨'X', .inr rfl, by rw [heq, Option.some.inj hds]⟩
      · cases hds
    have hxname : isNameChar x := by rcases hx with rfl | rfl <;> decide
    have hmarks : exponentMarks (['0'] ++ x :: body) = ['p', 'P'] := by
      rcases hx with rfl | rfl <;> rfl
    refine ⟨'0', _, _, htext, rfl, ?_, hraw⟩
    apply hrest ['0'] (x :: body) htext
    · intro c hc
      rcases List.mem_cons.1 hc with rfl | hc
      · exact .inl hxname
      · exact hbody c hc
    · rw [hmarks]
      exact hexp
  · next hds =>
    obtain ⟨body, exp, htext, hbody, hexp, hfirst⟩ :=
      isMagnitude_split (fun _ hc => isNameChar_of_isDigit hc) h
    have hmarks : exponentMarks body = ['e', 'E'] := by
      unfold exponentMarks
      cases hb : Numeral.hexDigits? body with
      | none => rfl
      | some ds =>
        rw [htext, hexDigits?_append hb] at hds
        cases hds
    rcases hfirst with ⟨c, rest, rfl, hc⟩ | ⟨c, rest, rfl, hc⟩
    · refine ⟨c, _, _, htext, hdigit hc, ?_, hraw⟩
      apply hrest [c] rest htext fun d hd => hbody d (List.mem_cons_of_mem c hd)
      exact hmarks ▸ hexp
    · have hpoint : Mode.extend? (.symbol ['.']) c = some (.numeral ['.', c]) := by
        simp [Mode.extend?, hc]
      refine ⟨'.', _, .symbol ['.'], htext, rfl, ?_, hraw⟩
      change (c :: (rest ++ exp)).foldlM Mode.extend? (.symbol ['.']) = _
      rw [List.foldlM_cons, hpoint]
      apply hrest ['.', c] rest htext fun d hd =>
        hbody d (List.mem_cons_of_mem '.' (List.mem_cons_of_mem c hd))
      exact hmarks ▸ hexp

theorem mode_blank (t : Token) {c : Char} (hc : isBlank c) :
    t.mode.extend? c = none := by
  have hname : isNameChar c = false := by
    rw [← Bool.not_eq_true]
    intro hn
    rw [not_isBlank_of_isNameChar hn] at hc
    cases hc
  have hall : [' ', '\t', '\n', '\r', '\x0b', '\x0c'].all fun b =>
      b ≠ '.' ∧ b ≠ '+' ∧ b ≠ '-' ∧ b ≠ '[' ∧ b ≠ '=' ∧ b.isDigit = false := by decide
  obtain ⟨h₁, h₂, h₃, h₄, h₅, h₆⟩ :=
    of_decide_eq_true (List.all_eq_true.1 hall c (List.contains_iff_mem.1 hc))
  cases t with
  | word text => simp only [mode, Mode.extend?, hname, Bool.false_eq_true, if_false]
  | numeral text => simp only [mode, Mode.extend?, hname, h₁, h₂, h₃, Bool.false_or, or_self,
      false_and, decide_false, Bool.false_eq_true, if_false]
  | quoted value => rfl
  | symbol text =>
    have hsymbols : symbols.all fun s => s.toList.all fun d => !isBlank d := by decide
    have hno : symbols.contains (String.ofList (text.toList ++ [c])) = false := by
      rw [← Bool.not_eq_true, List.contains_iff_mem]
      intro hs
      have hd := List.all_eq_true.1 (List.all_eq_true.1 hsymbols _ hs) c (by simp)
      rw [hc] at hd
      cases hd
    simp only [mode, Mode.extend?, h₃, h₄, h₅, h₆, hno, and_false, or_self, Bool.false_eq_true,
      if_false]

end Token

/-- The text of the pieces, character by character. -/
theorem toList_render (l : Layout) (pieces : List Piece) :
    (l.render pieces).toList = pieces.flatMap fun p => (l.text p).toList := by
  have h (pieces : List Piece) (text : String) :
      (pieces.foldl (fun text p => text ++ l.text p) text).toList =
        text.toList ++ pieces.flatMap fun p => (l.text p).toList := by
    induction pieces generalizing text with
    | nil => simp
    | cons p pieces ih => rw [List.foldl_cons, ih, String.toList_append, List.flatMap_cons,
        List.append_assoc]
  exact h pieces ""

/-- A line break is the terminator and the blanks before the next line. -/
theorem toList_line (l : Layout) (level : Nat) :
    (l.text (.line level)).toList =
      l.newLine.text.toList ++ List.replicate (level * l.indentWidth) ' ' := by
  have hpush (n : Nat) : ("".pushn ' ' n).toList = List.replicate n ' ' := by
    induction n with
    | zero => rfl
    | succ n ih =>
      have hstep : "".pushn ' ' (n + 1) = ("".pushn ' ' n).push ' ' := rfl
      rw [hstep, String.toList_push, ih, List.replicate_succ']
  rw [Layout.text, String.toList_append, hpush]

/-- Printed text whose words keep apart is read as these words. -/
theorem lexFrom_render (l : Layout) {pieces : List Piece} {m : Mode} {ts : List Token}
    (h : Spaced m pieces) (hm : m.tokens? = some ts)
    (he : ∀ c, isBlank c → m.extend? c = none) :
    lexFrom m (l.render pieces).toList = some (ts ++ readTokens pieces) := by
  rw [toList_render]
  induction pieces generalizing m ts with
  | nil =>
    rw [readTokens, List.filterMap_nil, List.append_nil]
    exact hm
  | cons p pieces ih =>
    have hblank {cs : List Char} {c : Char} (hc : isBlank c) (hcs : ∀ c ∈ cs, isBlank c)
        (htext : (l.text p).toList = c :: cs) (hp : ∀ t, p ≠ .token t)
        (hrest : Spaced .blank pieces) :
        lexFrom m ((p :: pieces).flatMap fun p => (l.text p).toList) =
          some (ts ++ readTokens (p :: pieces)) := by
      have hskip : readTokens (p :: pieces) = readTokens pieces := by
        cases p with
        | token t => exact absurd rfl (hp t)
        | gap => rfl
        | line level => rfl
      rw [List.flatMap_cons, htext, lexFrom_blanks hm he hc hcs,
        ih hrest rfl fun _ _ => rfl, hskip]
      rfl
    cases p with
    | token t =>
      obtain ⟨ht, hj, hrest⟩ := h
      have hdone : t.mode.tokens? = some [t.raw] := by
        obtain ⟨c, cs, m₁, -, -, -, hdone⟩ := ht
        exact hdone
      have htoken := lexFrom_token ht hm hj (pieces.flatMap fun p => (l.text p).toList)
      rw [ih hrest hdone fun _ hc => t.mode_blank hc] at htoken
      exact htoken
    | gap =>
      have hgap : (l.text .gap).toList = [' '] := by
        rw [Layout.text]
        decide
      exact hblank rfl (fun _ hc => absurd hc List.not_mem_nil) hgap nofun h
    | line level =>
      have htext := toList_line l level
      have hspaces : ∀ c ∈ List.replicate (level * l.indentWidth) ' ', isBlank c := by
        intro c hc
        rw [List.eq_of_mem_replicate hc]
        rfl
      cases hl : l.newLine with
      | lf =>
        rw [hl] at htext
        exact hblank rfl hspaces htext nofun h
      | crlf =>
        rw [hl] at htext
        apply hblank rfl (List.forall_mem_cons.2 ⟨?_, hspaces⟩) htext nofun h
        rfl

theorem lex_render (l : Layout) {pieces : List Piece} (h : Spaced .blank pieces) :
    lex (l.render pieces) = some (readTokens pieces) :=
  lexFrom_render l h rfl fun _ _ => rfl

end ScriptToLua.Lua
