import Mathlib
import ScriptToLua.Proofs.Options.Grammar

/-!
How a text spells tokens. A text that is cut, but not inside a word, spells the tokens of both parts
(`Spells.split`), so that each mark of the text is a token and each word ends where its characters
end; and the other way round, tokens that stand next to each other have only white space and comments
between them.
-/

namespace ScriptToLua.Options

section Characters

variable {c : Char}

/-- The characters of words stand in no other part of a text. -/
theorem apart_of_isWordChar (h : isWordChar c) :
    isGap c = false ∧ isMark c = false ∧ Text.isBlank c = false := by
  have hlt : c.toNat < 128 := by
    simp only [isWordChar, Char.isAlphanum, Char.isAlpha, Char.isUpper, Char.isLower, Char.isDigit,
      Bool.or_eq_true, Bool.and_eq_true, decide_eq_true_eq] at h
    rcases h with ((((h | h) | h) | rfl) | rfl) | rfl
    · exact (UInt32.le_iff_toNat_le.1 h.2).trans_lt (by decide)
    · exact (UInt32.le_iff_toNat_le.1 h.2).trans_lt (by decide)
    · exact (UInt32.le_iff_toNat_le.1 h.2).trans_lt (by decide)
    · decide
    · decide
    · decide
  have hascii : ∀ n < 128, isWordChar (Char.ofNat n) → isGap (Char.ofNat n) = false ∧
      isMark (Char.ofNat n) = false ∧ Text.isBlank (Char.ofNat n) = false := by decide
  rw [← Char.ofNat_toNat c] at h ⊢
  exact hascii _ hlt h

theorem isBlank_of_isGap (h : isGap c) : Text.isBlank c := by
  simp only [isGap, Bool.or_eq_true, decide_eq_true_eq] at h
  rcases h with ((rfl | rfl) | rfl) | rfl <;> rfl

theorem apart_of_isMark (h : isMark c) : isGap c = false ∧ Text.isBlank c = false := by
  simp only [isMark, isOpening, isClosing, Bool.or_eq_true, decide_eq_true_eq] at h
  rcases h with (((rfl | rfl) | rfl | rfl) | rfl) | rfl <;> decide

end Characters

variable {extended : Bool} {c : Char} {cs : List Char} {p : Piece} {ps qs before rest : List Piece}
  {t : Token} {ts us : List Token}

section Inversion

theorem Spells.eq_nil (h : Spells extended [] ts) : ts = [] := by
  generalize hps : [] = ps at h
  cases h with
  | nil => rfl
  | piece => cases hps
  | word hword =>
    cases List.map_eq_nil_iff.1 (List.append_eq_nil_iff.1 hps.symm).1
    exact absurd rfl hword.ne_nil

theorem Spells.cons_inv (h : Spells extended (p :: ps) ts) :
    (∃ us vs, p.StandsFor extended us ∧ ts = us ++ vs ∧ Spells extended ps vs) ∨
      ∃ c cs qs us, IsWord (c :: cs) ∧ p = .char c ∧ ps = cs.map .char ++ qs ∧
        ts = .word (c :: cs) :: us ∧ Spells extended qs us := by
  generalize hps : p :: ps = all at h
  cases h with
  | nil => cases hps
  | piece hp hrest =>
    cases hps
    exact .inl ⟨_, _, hp, rfl, hrest⟩
  | @word cs qs us hword hrest =>
    cases cs with
    | nil => exact absurd rfl hword.ne_nil
    | cons c cs =>
      cases hps
      exact .inr ⟨c, cs, qs, us, hword, rfl, rfl, rfl, hrest⟩

theorem IsWord.isWordChar_head (h : IsWord (c :: cs)) : Options.isWordChar c :=
  List.all_eq_true.1 h.isWordChar c List.mem_cons_self

theorem IsWord.isWordChar_tail (h : IsWord (c :: cs)) : cs.all Options.isWordChar := by
  have hall := h.isWordChar
  rw [List.all_cons, Bool.and_eq_true] at hall
  exact hall.2

theorem not_standsFor_of_isWordChar (h : isWordChar c) :
    ¬ (Piece.char c).StandsFor extended us := by
  obtain ⟨hgap, hmark, -⟩ := apart_of_isWordChar h
  rintro (h | h | h | h)
  · rw [hgap] at h
    cases h
  · rw [hmark] at h
    cases h

theorem Piece.StandsFor.unique (h : p.StandsFor extended us) (h' : p.StandsFor extended ts) :
    us = ts := by
  cases h with
  | gap hgap =>
    cases h' with
    | gap => rfl
    | mark hmark =>
      rw [(apart_of_isMark hmark).1] at hgap
      cases hgap
  | mark hmark =>
    cases h' with
    | gap hgap =>
      rw [(apart_of_isMark hmark).1] at hgap
      cases hgap
    | mark => rfl
  | comment | string => cases h'; rfl

theorem Spells.of_standsFor (h : Spells extended (p :: ps) ts) (hp : p.StandsFor extended us) :
    ∃ vs, ts = us ++ vs ∧ Spells extended ps vs := by
  obtain ⟨us', vs, hp', rfl, hrest⟩ | ⟨c, cs, qs, us, hword, rfl, -⟩ := h.cons_inv
  · exact ⟨vs, by rw [hp.unique hp'], hrest⟩
  · exact absurd hp (not_standsFor_of_isWordChar hword.isWordChar_head)

theorem spells_append_of_gaps (hqs : ∀ q ∈ qs, q.StandsFor extended []) :
    Spells extended (qs ++ ps) ts ↔ Spells extended ps ts := by
  induction qs with
  | nil => rfl
  | cons q qs ih =>
    rw [← ih fun r hr => hqs r (List.mem_cons_of_mem q hr)]
    refine ⟨fun h => ?_, fun h => .piece (hqs q List.mem_cons_self) h⟩
    obtain ⟨vs, rfl, hrest⟩ := h.of_standsFor (hqs q List.mem_cons_self)
    exact hrest

theorem Spells.of_isWordChar (h : Spells extended (.char c :: ps) ts) (hc : isWordChar c) :
    ∃ cs qs us, IsWord (c :: cs) ∧ ps = cs.map .char ++ qs ∧ ts = .word (c :: cs) :: us ∧
      Spells extended qs us := by
  obtain ⟨us, vs, hp, -⟩ | ⟨c, cs, qs, us, hword, hp, hps, hts, hrest⟩ := h.cons_inv
  · exact absurd hp (not_standsFor_of_isWordChar hc)
  · cases hp
    exact ⟨cs, qs, us, hword, hps, hts, hrest⟩

end Inversion

section Cuts

/-- A cut between `before` and `rest` that does not go through the characters of a word. -/
def CutsNoWord (before rest : List Piece) : Prop :=
  ∀ init x y tail, before = init ++ [.char x] → rest = .char y :: tail →
    ¬ (isWordChar x ∧ isWordChar y)

theorem CutsNoWord.of_append (qs : List Piece) (h : CutsNoWord (qs ++ before) rest) :
    CutsNoWord before rest :=
  fun init x y tail hbefore hrest =>
    h (qs ++ init) x y tail (by rw [hbefore, List.append_assoc]) hrest

theorem Spells.split (h : Spells extended (before ++ rest) ts) (hcut : CutsNoWord before rest) :
    ∃ ts₁ ts₂, ts = ts₁ ++ ts₂ ∧ Spells extended before ts₁ ∧ Spells extended rest ts₂ := by
  generalize hps : before ++ rest = ps at h
  induction h generalizing before with
  | nil =>
    obtain ⟨rfl, rfl⟩ := List.append_eq_nil_iff.1 hps
    exact ⟨[], [], rfl, .nil, .nil⟩
  | @piece p ps ts us hp hrest ih =>
    obtain ⟨rfl, rfl⟩ | ⟨before', rfl, rfl⟩ := List.append_eq_cons_iff.1 hps
    · exact ⟨[], us ++ ts, rfl, .nil, .piece hp hrest⟩
    · obtain ⟨ts₁, ts₂, rfl, h₁, h₂⟩ := ih (hcut.of_append [_]) rfl
      exact ⟨us ++ ts₁, ts₂, (List.append_assoc _ _ _).symm, .piece hp h₁, h₂⟩
  | @word cs ps ts hword hrest ih =>
    obtain ⟨mid, hcs, rfl⟩ | ⟨mid, rfl, rfl⟩ := List.append_eq_append_iff.1 hps
    · obtain rfl | ⟨init, q, rfl⟩ := before.eq_nil_or_concat'
      · obtain rfl : cs.map .char = mid := hcs
        exact ⟨[], .word cs :: ts, rfl, .nil, .word hword hrest⟩
      · cases mid with
        | nil =>
          rw [List.append_nil] at hcs
          refine ⟨[.word cs], ts, rfl, ?_, hrest⟩
          have h : Spells extended (cs.map .char ++ []) [.word cs] := .word hword .nil
          rwa [List.append_nil, hcs] at h
        | cons r mid =>
          -- the cut would go through this word
          have hmem (q : Piece) (hq : q ∈ cs.map Piece.char) : ∃ x, q = .char x ∧ isWordChar x := by
            obtain ⟨x, hx, rfl⟩ := List.mem_map.1 hq
            exact ⟨x, rfl, List.all_eq_true.1 hword.isWordChar x hx⟩
          obtain ⟨x, rfl, hx⟩ := hmem q (by simp [hcs])
          obtain ⟨y, rfl, hy⟩ := hmem r (by simp [hcs])
          exact absurd ⟨hx, hy⟩ (hcut init x y _ rfl rfl)
    · obtain ⟨ts₁, ts₂, rfl, h₁, h₂⟩ := ih (hcut.of_append _) rfl
      exact ⟨.word cs :: ts₁, ts₂, rfl, .word hword h₁, h₂⟩

/-- A word reaches up to the last of its characters. -/
theorem Spells.last_word (h : Spells extended (ps ++ [.char c]) ts) (hc : isWordChar c) :
    ∃ init cs, ts = init ++ [.word cs] := by
  generalize hqs : ps ++ [Piece.char c] = qs at h
  induction h generalizing ps with
  | nil => cases (List.append_eq_nil_iff.1 hqs).2
  | @piece q qs ts us hq hrest ih =>
    obtain ⟨rfl, h⟩ | ⟨ps', rfl, hps⟩ := List.append_eq_cons_iff.1 hqs
    · cases h
      exact absurd hq (not_standsFor_of_isWordChar hc)
    · obtain ⟨init, cs, rfl⟩ := ih hps.symm
      exact ⟨us ++ init, cs, (List.append_assoc _ _ _).symm⟩
  | @word cs qs ts hword hrest ih =>
    obtain rfl | ⟨qs', q, rfl⟩ := qs.eq_nil_or_concat'
    · rw [hrest.eq_nil]
      exact ⟨[], cs, rfl⟩
    · rw [← List.append_assoc] at hqs
      have hq : qs' ++ [.char c] = qs' ++ [q] := by rw [(List.append_inj' hqs rfl).2]
      obtain ⟨init, ds, rfl⟩ := ih hq
      exact ⟨.word cs :: init, ds, rfl⟩

theorem Spells.tail (h : Spells extended ps (t :: ts)) :
    ∃ before rest, ps = before ++ rest ∧ Spells extended rest ts := by
  generalize hvs : t :: ts = vs at h
  induction h with
  | nil => cases hvs
  | @piece p ps vs ws hp hrest ih =>
    obtain ⟨rfl, hts⟩ | ⟨ws', rfl, rfl⟩ := List.append_eq_cons_iff.1 hvs.symm
    · obtain ⟨before, rest, rfl, htail⟩ := ih hts.symm
      exact ⟨p :: before, rest, rfl, htail⟩
    · have hws : ws' = [] := by cases hp <;> rfl
      exact ⟨[p], ps, rfl, hws ▸ hrest⟩
  | word hword hrest =>
    cases hvs
    exact ⟨_, _, rfl, hrest⟩

/-- A cut between tokens is a cut of the text. -/
theorem Spells.of_append (h : Spells extended ps (ts ++ us)) :
    ∃ before rest, ps = before ++ rest ∧ Spells extended rest us := by
  induction ts generalizing ps with
  | nil => exact ⟨[], ps, rfl, h⟩
  | cons t ts ih =>
    obtain ⟨before, ps', rfl, htail⟩ := Spells.tail h
    obtain ⟨before', rest, rfl, hrest⟩ := ih htail
    exact ⟨before ++ before', rest, (List.append_assoc _ _ _).symm, hrest⟩

/-- Before its first mark a text has white space and comments only. -/
theorem Spells.first_mark (h : Spells extended ps (.mark c :: ts)) :
    ∃ gaps rest, ps = gaps ++ .char c :: rest ∧ (∀ p ∈ gaps, p.StandsFor extended []) ∧
      Spells extended rest ts := by
  generalize hvs : Token.mark c :: ts = vs at h
  induction h with
  | nil => cases hvs
  | @piece p ps vs ws hp hrest ih =>
    have hgap (hws : ws = []) : ∃ gaps rest, p :: ps = gaps ++ .char c :: rest ∧
        (∀ p ∈ gaps, p.StandsFor extended []) ∧ Spells extended rest ts := by
      subst hws
      obtain ⟨gaps, rest, rfl, hgaps, hrest⟩ := ih hvs
      refine ⟨p :: gaps, rest, rfl, ?_, hrest⟩
      rintro q (_ | ⟨_, hq⟩)
      · exact hp
      · exact hgaps q hq
    cases hp with
    | gap | comment => exact hgap rfl
    | mark hmark =>
      cases hvs
      exact ⟨[], ps, rfl, nofun, hrest⟩
    | string => cases hvs
  | word => cases hvs

end Cuts

section Neighbours

/-- A comment that leaves no line break behind. -/
def Piece.IsInline (p : Piece) : Prop := ∃ cs, p = .comment cs ∧ '\n' ∉ cs

/-- Two words have nothing but comments within one line between them. -/
def IsGlued (ps : List Piece) : Prop :=
  ∃ before x comments y after, ps = before ++ .char x :: (comments ++ .char y :: after) ∧
    isWordChar x ∧ isWordChar y ∧ comments ≠ [] ∧ ∀ p ∈ comments, p.IsInline

/-- A comma is the first token after an opening bracket. -/
def HasLoneComma (ps : List Piece) : Prop :=
  ∃ before o gaps after, ps = before ++ .char o :: (gaps ++ .char ',' :: after) ∧
    isOpening o ∧ ∀ p ∈ gaps, p.StandsFor true []

/-- The same of tokens. -/
def OpensWithComma (ts : List Token) : Prop :=
  ∃ before o after, ts = before ++ .mark o :: .mark ',' :: after ∧ isOpening o

theorem IsGlued.append (h : IsGlued ps) (qs : List Piece) : IsGlued (qs ++ ps) := by
  obtain ⟨before, x, comments, y, after, rfl, h⟩ := h
  exact ⟨qs ++ before, x, comments, y, after, (List.append_assoc _ _ _).symm, h⟩

theorem OpensWithComma.append (h : OpensWithComma ts) (us : List Token) :
    OpensWithComma (us ++ ts) := by
  obtain ⟨before, o, after, rfl, ho⟩ := h
  exact ⟨us ++ before, o, after, (List.append_assoc _ _ _).symm, ho⟩

theorem isMark_of_isOpening (h : isOpening c) : isMark c := by
  rw [isMark, h]
  rfl

theorem cutsNoWord_of_isMark (h : isMark c) : CutsNoWord before (.char c :: rest) := by
  rintro init x y tail - hrest ⟨-, hy⟩
  cases hrest
  rw [(apart_of_isWordChar hy).2.1] at h
  cases h

theorem Spells.hasLoneComma_iff (h : Spells true ps ts) :
    HasLoneComma ps ↔ OpensWithComma ts := by
  constructor
  · rintro ⟨before, o, gaps, after, rfl, ho, hgaps⟩
    have hmark := isMark_of_isOpening ho
    obtain ⟨ts₁, ts₂, rfl, -, h₂⟩ := h.split (cutsNoWord_of_isMark hmark)
    obtain ⟨us, rfl, hus⟩ := h₂.of_standsFor (.mark hmark)
    obtain ⟨vs, rfl, -⟩ := ((spells_append_of_gaps hgaps).1 hus).of_standsFor (.mark rfl)
    exact ⟨ts₁, o, vs, rfl, ho⟩
  · rintro ⟨us, o, vs, rfl, ho⟩
    obtain ⟨before, rest, rfl, hrest⟩ := h.of_append
    obtain ⟨gaps, rest, rfl, -, hrest⟩ := hrest.first_mark
    obtain ⟨gaps', after, rfl, hgaps, -⟩ := hrest.first_mark
    exact ⟨before ++ gaps, o, gaps', after, (List.append_assoc _ _ _).symm, ho, hgaps⟩

/-- Words with comments between them are next to each other. -/
theorem Spells.words_of_isGlued (h : Spells true ps ts) (hglued : IsGlued ps) :
    ∃ before v w after, ts = before ++ .word v :: .word w :: after := by
  obtain ⟨before, x, comments, y, after, rfl, hx, hy, hne, hcomments⟩ := hglued
  have hgaps : ∀ p ∈ comments, p.StandsFor true [] := by
    intro p hp
    obtain ⟨cs, rfl, -⟩ := hcomments p hp
    exact .comment rfl
  have hcut : CutsNoWord (before ++ [.char x]) (comments ++ .char y :: after) := by
    intro init _ z tail _ hrest
    cases comments with
    | nil => exact absurd rfl hne
    | cons p comments =>
      obtain ⟨cs, rfl, -⟩ := hcomments p List.mem_cons_self
      cases hrest
  rw [List.append_cons] at h
  obtain ⟨ts₁, ts₂, rfl, h₁, h₂⟩ := h.split hcut
  obtain ⟨us, v, rfl⟩ := h₁.last_word hx
  obtain ⟨cs, qs, vs, -, -, rfl, -⟩ := ((spells_append_of_gaps hgaps).1 h₂).of_isWordChar hy
  exact ⟨us, v, y :: cs, vs, by rw [List.append_assoc]; rfl⟩

end Neighbours

end ScriptToLua.Options
