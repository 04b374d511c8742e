import Mathlib
import ScriptToLua.Proofs.Options.Pieces

/-!
What stays when comments and trailing commas are taken out of an options text. Every line of the text
is left with some of its characters, so that all that is kept stays on its line; the string literals
stay as they are; and a text with neither slashes nor trailing commas outside its literals stays as a
whole: `normalize_keeps`.
-/

namespace ScriptToLua.Options

section Lines

/-- Two texts have the same lines, up to characters that are missing in the first. -/
def WithinLines (out cs : List Char) : Prop :=
  List.Forall₂ List.Sublist (out.splitOn '\n') (cs.splitOn '\n')

variable {c : Char} {out mid cs : List Char}

theorem splitOn_cons (c : Char) (cs : List Char) :
    (c :: cs).splitOn '\n' =
      if c = '\n' then [] :: cs.splitOn '\n' else (cs.splitOn '\n').modifyHead (List.cons c) := by
  rw [List.splitOn, List.splitOnP_cons_eq_if_modifyHead, ← List.splitOn]
  simp only [beq_iff_eq]

namespace WithinLines

theorem nil : WithinLines [] [] := .cons .slnil .nil

theorem keep (h : WithinLines out cs) (c : Char) : WithinLines (c :: out) (c :: cs) := by
  unfold WithinLines at h ⊢
  rw [splitOn_cons, splitOn_cons]
  generalize out.splitOn '\n' = ls, cs.splitOn '\n' = ms at h
  split_ifs
  · exact .cons .slnil h
  · cases h with
    | nil => exact .nil
    | cons hfirst hrest => exact .cons (hfirst.cons_cons c) hrest

theorem drop (h : WithinLines out cs) (hc : c ≠ '\n') : WithinLines out (c :: cs) := by
  unfold WithinLines at h ⊢
  rw [splitOn_cons c cs, if_neg hc]
  generalize out.splitOn '\n' = ls, cs.splitOn '\n' = ms at h ⊢
  cases h with
  | nil => exact .nil
  | cons hfirst hrest => exact .cons (hfirst.cons c) hrest

theorem trans (h : WithinLines out mid) (h' : WithinLines mid cs) : WithinLines out cs := by
  unfold WithinLines at h h' ⊢
  generalize out.splitOn '\n' = ls, mid.splitOn '\n' = ms, cs.splitOn '\n' = ns at h h' ⊢
  induction h generalizing ns with
  | nil => exact h'
  | cons hfirst _ ih =>
    cases h' with
    | cons hfirst' hrest' => exact .cons (hfirst.trans hfirst') (ih _ hrest')

end WithinLines

theorem withinLines_stripFrom (region : Region) (cs : List Char) :
    WithinLines (stripFrom region cs) cs := by
  fun_induction stripFrom region cs with
  | case1 region => exact .nil
  | case2 escaped c cs ih => exact ih.keep c
  | case3 cs ih => exact ih.keep _
  | case4 c cs hc ih => exact ih.drop hc
  | case5 star c cs hclose ih =>
    rw [Bool.and_eq_true, decide_eq_true_eq] at hclose
    exact ih.drop (by rw [hclose.2]; decide)
  | case6 star cs _ ih => exact ih.keep _
  | case7 star c cs _ hc ih => exact ih.drop hc
  | case8 cs ih | case9 cs ih => exact (ih.drop (by decide)).drop (by decide)
  | case10 c cs _ _ ih => exact ih.keep c

theorem withinLines_dropCommasFrom (quoted : Option Bool) (cs : List Char) :
    WithinLines (dropCommasFrom quoted cs) cs := by
  fun_induction dropCommasFrom quoted cs with
  | case1 quoted => exact .nil
  | case2 escaped c cs _ _ ih => exact ih.keep c
  | case3 escaped c cs _ ih => exact ih.keep c
  | case4 cs ih => exact ih.keep _
  | case5 c cs _ hcomma ih =>
    rw [Bool.and_eq_true, decide_eq_true_eq] at hcomma
    exact ih.drop (by rw [hcomma.1]; decide)
  | case6 c cs _ _ ih => exact ih.keep c

theorem withinLines_normalize (cs : List Char) : WithinLines (normalize cs) cs :=
  (withinLines_dropCommasFrom none _).trans (withinLines_stripFrom .plain cs)

end Lines

section Literals

/-- The characters of a piece, if it is a string literal. -/
def Piece.literal? : Piece → Option (List Char)
  | literal cs => some cs
  | _ => none

/-- The string literals of a text that stand outside comments, in order. -/
def literals (cs : List Char) : List (List Char) := (pieces cs).filterMap Piece.literal?

theorem filterMap_uncommented (p : Piece) :
    p.uncommented.filterMap Piece.literal? = p.literal?.toList := by
  cases p with
  | char | literal => rfl
  | comment cs =>
    refine List.filterMap_eq_nil_iff.2 fun q hq => ?_
    obtain ⟨c, -, rfl⟩ := List.mem_map.1 hq
    rfl

theorem filterMap_uncomment (ps : List Piece) :
    (uncomment ps).filterMap Piece.literal? = ps.filterMap Piece.literal? := by
  induction ps with
  | nil => rfl
  | cons p ps ih =>
    rw [uncomment_cons, List.filterMap_append, ih, filterMap_uncommented, List.filterMap_cons]
    cases p.literal? with
    | none => rfl
    | some cs => rfl

theorem filterMap_withoutCommas (ps : List Piece) :
    (withoutCommas ps).filterMap Piece.literal? = ps.filterMap Piece.literal? := by
  fun_induction withoutCommas ps with
  | case1 => rfl
  | case2 p ps hcomma ih =>
    rw [Bool.and_eq_true, decide_eq_true_eq] at hcomma
    rw [ih, hcomma.1]
    rfl
  | case3 p ps _ ih => rw [List.filterMap_cons, ih, List.filterMap_cons]

theorem literals_normalize (cs : List Char) : literals (normalize cs) = literals cs := by
  rw [literals, pieces_normalize, filterMap_withoutCommas, filterMap_uncomment, ← literals]

end Literals

theorem uncomment_eq_self {ps : List Piece} (h : ∀ p ∈ ps, p.isComment = false) :
    uncomment ps = ps := by
  induction ps with
  | nil => rfl
  | cons p ps ih =>
    rw [uncomment_cons, ih fun q hq => h q (List.mem_cons_of_mem p hq)]
    cases p with
    | char | literal => rfl
    | comment cs => cases h _ List.mem_cons_self

/-- The first pass finds nothing to take out in what it has left. -/
theorem stripComments_stripComments (cs : List Char) :
    stripComments (stripComments cs) = stripComments cs := by
  have hpieces : pieces (stripComments (stripComments cs)) = pieces (stripComments cs) := by
    rw [pieces_stripComments (stripComments cs), pieces_stripComments]
    exact uncomment_eq_self fun p hp => isComment_of_mem_uncomment hp
  rw [← texts_pieces (stripComments (stripComments cs)), hpieces, texts_pieces]

section Plain

/-- The characters of a piece that stand outside string literals. -/
def Piece.outside : Piece → List Char
  | literal _ => []
  | p => p.text

/-- Outside its string literals a text has no slash, and no comma with a closing bracket as the next
character that is no white space. -/
structure IsPlain (cs : List Char) : Prop where
  no_slash : ∀ p ∈ pieces cs, '/' ∉ p.outside
  no_comma : ∀ before after, pieces cs = before ++ .char ',' :: after →
    ∀ blanks c rest, texts after = blanks ++ c :: rest → (∀ b ∈ blanks, Text.isBlank b) →
      c ≠ '}' ∧ c ≠ ']'

theorem slash_mem_of_comment {cs ds : List Char} (h : .comment ds ∈ pieces cs) : '/' ∈ ds := by
  fun_induction pieces cs with
  | case1 => cases h
  | case2 cs ih | case5 c cs _ _ _ ih =>
    rcases List.mem_cons.1 h with h | h
    · cases h
    · exact ih h
  | case3 cs ih | case4 cs ih =>
    rcases List.mem_cons.1 h with h | h
    · cases h
      exact List.mem_cons_self
    · exact ih h

theorem exists_of_closes {ps : List Piece} (h : closes ps) :
    ∃ blanks c rest, texts ps = blanks ++ c :: rest ∧ (∀ b ∈ blanks, Text.isBlank b) ∧
      (c = '}' ∨ c = ']') := by
  fun_induction closes ps with
  | case1 c ps hc ih =>
    obtain ⟨blanks, d, rest, htexts, hblanks, hd⟩ := ih h
    refine ⟨c :: blanks, d, rest, congrArg (c :: ·) htexts, ?_, hd⟩
    rintro b (_ | ⟨_, hb⟩)
    · exact hc
    · exact hblanks b hb
  | case2 c ps hc =>
    rw [Bool.or_eq_true, decide_eq_true_eq, decide_eq_true_eq] at h
    exact ⟨[], c, texts ps, rfl, nofun, h⟩
  | case3 => cases h

theorem withoutCommas_eq_self {ps : List Piece}
    (h : ∀ before after, ps = before ++ .char ',' :: after → closes after = false) :
    withoutCommas ps = ps := by
  induction ps with
  | nil => rfl
  | cons p ps ih =>
    have hrest := ih fun before after hps => h (p :: before) after (congrArg (p :: ·) hps)
    rw [withoutCommas, hrest, if_neg]
    rw [Bool.and_eq_true, decide_eq_true_eq]
    rintro ⟨rfl, hcloses⟩
    rw [h [] ps rfl] at hcloses
    cases hcloses

theorem normalize_eq_self {cs : List Char} (h : IsPlain cs) : normalize cs = cs := by
  have hcomments : uncomment (pieces cs) = pieces cs := by
    refine uncomment_eq_self fun p hp => ?_
    cases p with
    | char | literal => rfl
    | comment ds => exact absurd (slash_mem_of_comment hp) (h.no_slash _ hp)
  have hcommas : withoutCommas (pieces cs) = pieces cs := by
    refine withoutCommas_eq_self fun before after hps => ?_
    by_contra hcloses
    obtain ⟨blanks, c, rest, htexts, hblanks, hc⟩ := exists_of_closes (Bool.not_eq_false _ ▸ hcloses)
    obtain ⟨hbrace, hbracket⟩ := h.no_comma before after hps blanks c rest htexts hblanks
    exact hc.elim hbrace hbracket
  rw [← texts_pieces (normalize cs), pieces_normalize, hcomments, hcommas, texts_pieces]

end Plain

/-- Taking out comments and trailing commas leaves every line with some of its characters and all
string literals as they are. A plain text stays as it is, and the first pass does nothing the second
time. -/
theorem normalize_keeps (cs : List Char) :
    WithinLines (normalize cs) cs ∧ literals (normalize cs) = literals cs ∧
      (IsPlain cs → normalize cs = cs) ∧ stripComments (stripComments cs) = stripComments cs :=
  ⟨withinLines_normalize cs, literals_normalize cs, normalize_eq_self,
    stripComments_stripComments cs⟩

/-- A list whose second element is a string literal with a trailing comma in it. -/
theorem normalize_keeps_of_literal :
    IsPlain ['[', '1', ',', '"', ',', ']', '"', ']'] ∧
      normalize ['[', '1', ',', '"', ',', ']', '"', ']'] =
        ['[', '1', ',', '"', ',', ']', '"', ']'] := by
  have hpieces : pieces ['[', '1', ',', '"', ',', ']', '"', ']'] =
      [.char '[', .char '1', .char ',', .literal ['"', ',', ']', '"'], .char ']'] := by cbv
  have hplain : IsPlain ['[', '1', ',', '"', ',', ']', '"', ']'] := by
    refine ⟨by rw [hpieces]; decide, fun before after hps blanks c rest htexts hblanks => ?_⟩
    have hafter : after = [.literal ['"', ',', ']', '"'], .char ']'] := by
      rw [hpieces] at hps
      rcases before with _ | ⟨_, _ | ⟨_, _ | ⟨_, _ | ⟨_, _ | ⟨_, before⟩⟩⟩⟩⟩ <;> simp_all
    rw [hafter] at htexts
    cases blanks with
    | nil =>
      obtain rfl : '"' = c := (List.cons.inj htexts).1
      decide
    | cons b blanks =>
      obtain rfl : '"' = b := (List.cons.inj htexts).1
      exact absurd (hblanks '"' List.mem_cons_self) (by decide)
  exact ⟨hplain, (normalize_keeps _).2.2.1 hplain⟩

end ScriptToLua.Options
