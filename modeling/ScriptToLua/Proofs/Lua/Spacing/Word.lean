import Mathlib
import ScriptToLua.Proofs.Lua.Grammar

/-!
What may follow a word of printed code, and the words that a name, a symbol, a quoted string and an
operator of the printer are read as.
-/

namespace ScriptToLua.Lua

/-- The word before goes on with no character. -/
def Mode.Free (m : Mode) : Prop := ∀ c, m.extend? c = none

/-- The word before goes on with none of these characters. -/
def Mode.StopsAt (cs : List Char) (m : Mode) : Prop := ∀ c ∈ cs, m.extend? c = none

theorem Mode.Free.stopsAt {m : Mode} (h : m.Free) (cs : List Char) : m.StopsAt cs := fun c _ => h c

theorem Mode.blank_free : Mode.Free .blank := fun _ => rfl

theorem Mode.closed_free (cs : List Char) : Mode.Free (.closed cs) := fun _ => rfl

/-- The characters that expressions begin with. -/
def isExprStart (c : Char) : Bool := isNameChar c || ['.', '"', '(', '\x7b', '#', '-'].contains c

theorem Mode.symbol_extend {s : String} {c : Char}
    (hs : ∀ t ∈ symbols, t.toList.dropLast ≠ s.toList) (hminus : s = "-" → c ≠ '-')
    (hbracket : s = "[" → c ≠ '[' ∧ c ≠ '=') (hpoint : s = "." → c.isDigit = false) :
    (Mode.symbol s.toList).extend? c = none := by
  have hlist {t : String} (h : s.toList = t.toList) : s = t := String.toList_inj.1 h
  have hno : symbols.contains (String.ofList (s.toList ++ [c])) = false := by
    rw [← Bool.not_eq_true, List.contains_iff_mem]
    intro hmem
    apply hs _ hmem
    rw [String.toList_ofList, List.dropLast_concat]
  rw [Mode.extend?, if_neg, if_neg, if_neg, if_neg]
  · rw [hno]
    exact Bool.false_ne_true
  · rintro ⟨h, hc⟩
    rw [hpoint (hlist h)] at hc
    cases hc
  · rintro ⟨h, hc | hc⟩
    · exact (hbracket (hlist h)).1 hc
    · exact (hbracket (hlist h)).2 hc
  · rintro ⟨h, hc⟩
    exact hminus (hlist h) hc

/-- No symbol goes on with a name. -/
theorem Mode.symbol_name (s : String) {c : Char} (hc : isNameChar c) (hd : c.isDigit = false) :
    (Mode.symbol s.toList).extend? c = none := by
  have hne : ∀ d ∈ ['-', '[', '='], c ≠ d := by
    rintro d hmem rfl
    have hall : ['-', '[', '='].all fun d => !isNameChar d := by decide
    have hc' := List.all_eq_true.1 hall c hmem
    rw [hc] at hc'
    cases hc'
  have hno : symbols.contains (String.ofList (s.toList ++ [c])) = false := by
    rw [← Bool.not_eq_true, List.contains_iff_mem]
    intro hmem
    have hall : symbols.all fun t => t.toList.all fun d => !isNameChar d := by decide
    have hc' := List.all_eq_true.1 (List.all_eq_true.1 hall _ hmem) c (by simp)
    rw [hc] at hc'
    cases hc'
  simp only [Mode.extend?, hne '-' (by decide), hne '[' (by decide), hne '=' (by decide), hd, hno,
    and_false, or_self, Bool.false_eq_true, if_false]

/-- Symbols that no character goes on with. -/
theorem Mode.symbol_free {s : String} (hs : s ∈ ["(", ")", "]", "\x7b", "\x7d", "#", ",", ";"]) :
    (Mode.symbol s.toList).Free := by
  have hall : ∀ s ∈ ["(", ")", "]", "\x7b", "\x7d", "#", ",", ";"],
      (∀ t ∈ symbols, t.toList.dropLast ≠ s.toList) ∧ s ≠ "-" ∧ s ≠ "[" ∧ s ≠ "." := by decide
  obtain ⟨hsymbols, hminus, hbracket, hpoint⟩ := hall s hs
  intro c
  exact Mode.symbol_extend hsymbols (fun h => absurd h hminus) (fun h => absurd h hbracket)
    fun h => absurd h hpoint

theorem Mode.minus_extend {c : Char} (hc : c ≠ '-') : (Mode.symbol "-".toList).extend? c = none :=
  Mode.symbol_extend (by decide) (fun _ => hc) (fun h => absurd h (by decide))
    fun h => absurd h (by decide)

/-- What stands where an expression ends. -/
def closers : List Char := [')', ']', '\x7d', ',']

/-- What stands where an expression ends that can be called. -/
def callers : List Char := closers ++ ['[', '(', '.', ':']

theorem Mode.word_stopsAt (cs : List Char) : (Mode.word cs).StopsAt callers := by
  intro c hc
  have hall : callers.all fun c => isNameChar c = false := by decide
  rw [Mode.extend?, of_decide_eq_true (List.all_eq_true.1 hall c hc)]
  rfl

theorem Mode.numeral_stopsAt (cs : List Char) : (Mode.numeral cs).StopsAt closers := by
  intro c hc
  have hall : closers.all fun c => (isNameChar c || c = '.') = false ∧ ¬(c = '+' ∨ c = '-') := by
    decide
  obtain ⟨hname, hsign⟩ := of_decide_eq_true (List.all_eq_true.1 hall c hc)
  rw [Mode.extend?, hname, if_neg Bool.false_ne_true, if_neg fun h => hsign h.1]

theorem Mode.StopsAt.closers {m : Mode} (h : m.StopsAt callers) : m.StopsAt closers :=
  fun c hc => h c (List.mem_append_left _ hc)

theorem Token.symbol_isRead {s : String}
    (hs : s ∈ ["(", ")", "[", "]", "\x7b", "\x7d", ".", ":", ",", ";", "=", "-", "#"]) :
    Token.IsRead (.symbol s) := by
  simp only [List.mem_cons, List.not_mem_nil, or_false] at hs
  rcases hs with rfl | rfl | rfl | rfl | rfl | rfl | rfl | rfl | rfl | rfl | rfl | rfl | rfl <;>
    exact ⟨_, _, _, rfl, rfl, rfl, rfl⟩

theorem isNumeral_first {text : String} (h : isNumeral text.toList) :
    (Token.numeral text).first.isDigit ∨ (Token.numeral text).first = '.' := by
  rw [Token.first, Token.text]
  unfold isNumeral at h
  split at h
  · next ds hds =>
    unfold Numeral.hexDigits? at hds
    split at hds
    · next heq =>
      rw [heq]
      exact .inl rfl
    · next heq =>
      rw [heq]
      exact .inl rfl
    · cases hds
  · obtain ⟨body, exp, htext, -, -, hfirst⟩ :=
      isMagnitude_split (fun _ hc => isNameChar_of_isDigit hc) h
    rw [htext]
    rcases hfirst with ⟨c, cs, rfl, hc⟩ | ⟨c, cs, rfl, -⟩
    · exact .inl hc
    · exact .inr rfl

theorem isWord_of_isName {x : String} (h : isName x) : isWord x := by
  unfold isName at h
  unfold isWord
  cases hx : x.toList with
  | nil =>
    rw [hx] at h
    cases h
  | cons c cs =>
    simp only [hx, Bool.and_eq_true] at h ⊢
    exact h.1

theorem BinaryOp.symbol_isRead {op : BinaryOp} (h : ¬(op = .or ∨ op = .and)) :
    Token.IsRead (.symbol op.text) := by
  cases op <;> first
    | exact absurd (by decide) h
    | exact ⟨_, _, _, rfl, rfl, rfl, rfl⟩

section Words

variable {m : Mode} {rest : List Piece}

theorem spaced_gap (h : Spaced .blank rest) : Spaced m (gap ++ rest) := h

theorem spaced_word {x : String} (hx : isWord x)
    (hm : ∀ c, isNameChar c → c.isDigit = false → m.extend? c = none)
    (h : Spaced (.word x.toList) rest) : Spaced m (word x ++ rest) := by
  refine ⟨Token.word_isRead hx, ?_, h⟩
  unfold isWord at hx
  cases htext : x.toList with
  | nil => simp [htext] at hx
  | cons c cs =>
    simp only [htext, Bool.and_eq_true, Bool.not_eq_true'] at hx
    rw [Token.first, Token.text, htext]
    exact hm c hx.1.2 hx.1.1

theorem spaced_symbol {s : String}
    (hs : s ∈ ["(", ")", "[", "]", "\x7b", "\x7d", ".", ":", ",", ";", "=", "-", "#"])
    (hm : m.extend? (Token.symbol s).first = none) (h : Spaced (.symbol s.toList) rest) :
    Spaced m (symbol s ++ rest) := ⟨Token.symbol_isRead hs, hm, h⟩

theorem spaced_quoted (value : String) (hm : m.extend? '"' = none)
    (h : ∀ m', m'.StopsAt closers → Spaced m' rest) : Spaced m (quoted value ++ rest) := by
  refine ⟨Token.quoted_isRead value, ?_, h _ ((Mode.closed_free _).stopsAt closers)⟩
  have hfirst : (Token.quoted value).first = '"' := by
    rw [Token.first, Token.text, quote, String.toList_ofList]
    rfl
  rw [hfirst]
  exact hm

theorem spaced_operator (op : BinaryOp) (h : ∀ m', Spaced m' rest) :
    Spaced .blank (op.pieces ++ rest) := by
  unfold BinaryOp.pieces
  split
  · next hop =>
    apply spaced_word ?_ (fun _ _ _ => rfl) (h _)
    rcases hop with rfl | rfl <;> decide
  · next hop => exact ⟨BinaryOp.symbol_isRead hop, rfl, h _⟩

end Words

end ScriptToLua.Lua
