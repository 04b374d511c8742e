import Mathlib
import ScriptToLua.Options.Comments

/-!
Options texts as string literals, comments and single characters. `pieces` cuts a text into these; the
two passes over the characters of a text, which only know what the last character has opened, take
out whole pieces: `pieces_stripComments`, `pieces_dropTrailingCommas`.
-/

namespace ScriptToLua.Options

/-- A piece of an options text. -/
inductive Piece where
  /-- A character that belongs to no string literal and no comment. -/
  | char (c : Char)
  /-- A string literal with its quotes. The last one of a text may lack the closing quote. -/
  | literal (cs : List Char)
  /-- A comment with its marks. The last one of a text may lack the closing mark. -/
  | comment (cs : List Char)
  deriving DecidableEq

namespace Piece

def text : Piece → List Char
  | char c => [c]
  | literal cs => cs
  | comment cs => cs

def isComment : Piece → Bool
  | comment _ => true
  | _ => false

/-- What is left of a piece without comments: the line breaks of a comment. -/
def uncommented : Piece → List Piece
  | comment cs => (cs.filter (· = '\n')).map char
  | p => [p]

end Piece

/-- Cuts the rest of a string literal off a text. It ends after a quote that is not escaped. -/
def cutLiteral : List Char → List Char × List Char
  | [] => ([], [])
  | '"' :: cs => (['"'], cs)
  | '\\' :: c :: cs => ('\\' :: c :: (cutLiteral cs).1, (cutLiteral cs).2)
  | c :: cs => (c :: (cutLiteral cs).1, (cutLiteral cs).2)

/-- Cuts the rest of a block comment off a text. -/
def cutComment : List Char → List Char × List Char
  | [] => ([], [])
  | '*' :: '/' :: cs => (['*', '/'], cs)
  | c :: cs => (c :: (cutComment cs).1, (cutComment cs).2)

theorem cutLiteral_append (cs : List Char) : (cutLiteral cs).1 ++ (cutLiteral cs).2 = cs := by
  fun_induction cutLiteral cs with
  | case1 | case2 => rfl
  | case3 c cs ih => simpa using ih
  | case4 c cs _ _ ih => simpa using ih

theorem cutComment_append (cs : List Char) : (cutComment cs).1 ++ (cutComment cs).2 = cs := by
  fun_induction cutComment cs with
  | case1 | case2 => rfl
  | case3 c cs _ ih => simpa using ih

theorem cutLiteral_length (cs : List Char) : (cutLiteral cs).2.length ≤ cs.length := by
  conv_rhs => rw [← cutLiteral_append cs, List.length_append]
  exact Nat.le_add_left _ _

theorem cutComment_length (cs : List Char) : (cutComment cs).2.length ≤ cs.length := by
  conv_rhs => rw [← cutComment_append cs, List.length_append]
  exact Nat.le_add_left _ _

/-- The pieces of a text. A line comment reaches up to the end of its line, and the line break after
it is no part of it. -/
def pieces : List Char → List Piece
  | [] => []
  | '"' :: cs => .literal ('"' :: (cutLiteral cs).1) :: pieces (cutLiteral cs).2
  | '/' :: '/' :: cs =>
    .comment ('/' :: '/' :: cs.takeWhile (· ≠ '\n')) :: pieces (cs.dropWhile (· ≠ '\n'))
  | '/' :: '*' :: cs => .comment ('/' :: '*' :: (cutComment cs).1) :: pieces (cutComment cs).2
  | c :: cs => .char c :: pieces cs
termination_by cs => cs.length
decreasing_by
  · exact Nat.lt_succ_of_le (cutLiteral_length cs)
  · exact Nat.lt_succ_of_le ((List.length_dropWhile_le _ cs).trans (Nat.le_succ _))
  · exact Nat.lt_succ_of_le ((cutComment_length cs).trans (Nat.le_succ _))
  · exact Nat.lt_succ_self _

/-- The text that pieces make up. -/
def texts (ps : List Piece) : List Char := ps.flatMap Piece.text

/-- Pieces without comments. -/
def uncomment (ps : List Piece) : List Piece := ps.flatMap Piece.uncommented

/-- Whether a closing bracket is the next piece that is no white space. -/
def closes : List Piece → Bool
  | .char c :: ps => if Text.isBlank c then closes ps else c = '}' || c = ']'
  | _ => false

/-- Pieces without the commas before closing brackets. -/
def withoutCommas : List Piece → List Piece
  | [] => []
  | p :: ps => if p = .char ',' && closes ps then withoutCommas ps else p :: withoutCommas ps

@[simp]
theorem pieces_nil : pieces [] = [] := by rw [pieces]

theorem texts_pieces (cs : List Char) : texts (pieces cs) = cs := by
  fun_induction pieces cs with
  | case1 => rfl
  | case2 cs ih =>
    rw [texts, List.flatMap_cons, ← texts, ih]
    exact congrArg ('"' :: ·) (cutLiteral_append cs)
  | case3 cs ih =>
    rw [texts, List.flatMap_cons, ← texts, ih]
    exact congrArg ('/' :: '/' :: ·) List.takeWhile_append_dropWhile
  | case4 cs ih =>
    rw [texts, List.flatMap_cons, ← texts, ih]
    exact congrArg ('/' :: '*' :: ·) (cutComment_append cs)
  | case5 c cs _ _ _ ih =>
    rw [texts, List.flatMap_cons, ← texts, ih]
    rfl

/-- A character that opens no literal and no comment, whatever stands before it. -/
structure IsAlone (c : Char) (cs : List Char) : Prop where
  ne_quote : c ≠ '"'
  not_line : ∀ ds, c = '/' → cs ≠ '/' :: ds
  not_block : ∀ ds, c = '/' → cs ≠ '*' :: ds

section Alone

variable {c : Char} {cs : List Char}

theorem pieces_alone (h : IsAlone c cs) : pieces (c :: cs) = .char c :: pieces cs := by
  rw [pieces]
  exacts [h.ne_quote, h.not_line, h.not_block]

theorem stripComments_alone (h : IsAlone c cs) :
    stripComments (c :: cs) = c :: stripComments cs := by
  rw [stripComments, stripFrom, if_neg h.ne_quote]
  · rfl
  exacts [h.not_line, h.not_block]

end Alone

/-- Inside a literal, a character that is no quote and no backslash opens and closes nothing. -/
theorem afterQuoted_plain {c : Char} (hq : c ≠ '"') (hc : c ≠ '\\') :
    Region.afterQuoted false c = .quoted false := by
  rw [Region.afterQuoted, if_neg Bool.false_ne_true, if_neg hc, if_neg hq]

/-- A pass `f` that keeps a literal as it is and goes on with `g` after it. -/
theorem eq_cutLiteral_append {f g : List Char → List Char} (hf : f [] = []) (hg : g [] = [])
    (hquote : ∀ cs, f ('"' :: cs) = '"' :: g cs) (hlast : f ['\\'] = ['\\'])
    (hescape : ∀ c cs, f ('\\' :: c :: cs) = '\\' :: c :: f cs)
    (hplain : ∀ c cs, c ≠ '"' → c ≠ '\\' → f (c :: cs) = c :: f cs) (cs : List Char) :
    f cs = (cutLiteral cs).1 ++ g (cutLiteral cs).2 := by
  fun_induction cutLiteral cs with
  | case1 => rw [hf, hg]; rfl
  | case2 cs => exact hquote cs
  | case3 c cs ih => rw [hescape, ih]; rfl
  | case4 c cs hq hesc ih =>
    by_cases hc : c = '\\'
    · cases cs with
      | nil => rw [hc, hlast, cutLiteral, hg]; rfl
      | cons d cs => exact (hesc d cs hc rfl).elim
    · rw [hplain c cs hq hc, ih]
      rfl

theorem stripFrom_quoted (cs : List Char) :
    stripFrom (.quoted false) cs = (cutLiteral cs).1 ++ stripComments (cutLiteral cs).2 := by
  refine eq_cutLiteral_append (f := stripFrom (.quoted false)) (g := stripComments) rfl rfl
    (fun _ => rfl) rfl (fun _ _ => rfl) (fun c cs hq hc => ?_) cs
  rw [stripFrom, afterQuoted_plain hq hc]

theorem stripFrom_lineComment (cs : List Char) :
    stripFrom .lineComment cs = stripComments (cs.dropWhile (· ≠ '\n')) := by
  induction cs with
  | nil => rfl
  | cons c cs ih =>
    rw [stripFrom]
    split_ifs with hc
    · rw [hc]
      rfl
    · rw [ih, List.dropWhile_cons_of_pos (by simpa using hc)]

/-- An asterisk closes a comment together with a slash only. -/
theorem stripFrom_afterStar {cs : List Char} (h : ∀ ds, cs ≠ '/' :: ds) (star : Bool) :
    stripFrom (.blockComment star) cs = stripFrom (.blockComment false) cs := by
  cases cs with
  | nil => rfl
  | cons c cs =>
    have hc : ¬ c = '/' := fun hc => h cs (hc ▸ rfl)
    simp [stripFrom, hc]

theorem stripFrom_blockComment (cs : List Char) :
    stripFrom (.blockComment false) cs =
      (cutComment cs).1.filter (· = '\n') ++ stripComments (cutComment cs).2 := by
  fun_induction cutComment cs with
  | case1 => rfl
  | case2 cs => rfl
  | case3 c cs hclose ih =>
    rw [stripFrom]
    by_cases hc : c = '\n'
    · simp [hc, ih]
    · have hrest : stripFrom (.blockComment (c = '*')) cs = stripFrom (.blockComment false) cs := by
        by_cases hstar : c = '*'
        · exact stripFrom_afterStar (fun ds => hclose ds hstar) _
        · rw [decide_eq_false hstar]
      simp [hc, hrest, ih]

/-- A literal that has been cut off ends where it did, whatever comes after it now. -/
theorem cutLiteral_cut {cs ds : List Char} (h : (cutLiteral cs).2 = [] → ds = []) :
    cutLiteral ((cutLiteral cs).1 ++ ds) = ((cutLiteral cs).1, ds) := by
  fun_induction cutLiteral cs with
  | case1 => rw [h rfl]; rfl
  | case2 cs => rfl
  | case3 c cs ih => simp only [List.cons_append, cutLiteral, ih h]
  | case4 c cs hq hesc ih =>
    by_cases hc : c = '\\'
    · cases cs with
      | nil => rw [h rfl, hc]; rfl
      | cons d cs => exact (hesc d cs hc rfl).elim
    · rw [List.cons_append, cutLiteral, ih h]
      exacts [hq, fun _ _ h => absurd h hc]

theorem pieces_literal {cs ds : List Char} (h : (cutLiteral cs).2 = [] → ds = []) :
    pieces ('"' :: ((cutLiteral cs).1 ++ ds)) =
      .literal ('"' :: (cutLiteral cs).1) :: pieces ds := by
  rw [pieces, cutLiteral_cut h]

theorem isAlone_newline (cs : List Char) : IsAlone '\n' cs :=
  ⟨by decide, fun _ h => absurd h (by decide), fun _ h => absurd h (by decide)⟩

theorem pieces_breaks (cs ds : List Char) :
    pieces (cs.filter (· = '\n') ++ ds) = (cs.filter (· = '\n')).map .char ++ pieces ds := by
  induction cs with
  | nil => rfl
  | cons c cs ih =>
    by_cases hc : c = '\n'
    · rw [hc, List.filter_cons_of_pos rfl, List.cons_append, pieces_alone (isAlone_newline _), ih]
      rfl
    · rw [List.filter_cons_of_neg (by simpa using hc), ih]

/-- Only the first character after a slash can make it open a comment. -/
theorem IsAlone.of_head {c : Char} {cs ds : List Char} (h : IsAlone c cs)
    (hd : c = '/' → ∀ x xs, ds = x :: xs → x = '/' ∨ x = '*' → ∃ ys, cs = x :: ys) :
    IsAlone c ds := by
  refine ⟨h.ne_quote, fun xs hc hds => ?_, fun xs hc hds => ?_⟩
  · obtain ⟨ys, hys⟩ := hd hc '/' xs hds (.inl rfl)
    exact h.not_line ys hc hys
  · obtain ⟨ys, hys⟩ := hd hc '*' xs hds (.inr rfl)
    exact h.not_block ys hc hys

theorem stripComments_cons {c : Char} (h : c ≠ '/') (cs : List Char) :
    ∃ ds, stripComments (c :: cs) = c :: ds := by
  rw [stripComments, stripFrom]
  · exact ⟨_, rfl⟩
  · exact fun _ hc => absurd hc h
  · exact fun _ hc => absurd hc h

theorem IsAlone.strip {c : Char} {cs : List Char} (h : IsAlone c cs) :
    IsAlone c (stripComments cs) := by
  refine h.of_head fun hc x xs hx _ => ?_
  cases cs with
  | nil => cases hx
  | cons d cs =>
    have hd : d ≠ '/' := fun hd => h.not_line cs hc (hd ▸ rfl)
    obtain ⟨ds, hds⟩ := stripComments_cons hd cs
    rw [hds] at hx
    cases hx
    exact ⟨cs, rfl⟩

theorem uncomment_cons (p : Piece) (ps : List Piece) :
    uncomment (p :: ps) = p.uncommented ++ uncomment ps := List.flatMap_cons

/-- The first pass takes out the comments up to their line breaks. -/
theorem pieces_stripComments (cs : List Char) :
    pieces (stripComments cs) = uncomment (pieces cs) := by
  fun_induction pieces cs with
  | case1 => exact pieces_nil
  | case2 cs ih =>
    have hstrip : stripComments ('"' :: cs) =
        '"' :: ((cutLiteral cs).1 ++ stripComments (cutLiteral cs).2) :=
      congrArg ('"' :: ·) (stripFrom_quoted cs)
    rw [hstrip, pieces_literal (fun h => congrArg stripComments h), ih]
    rfl
  | case3 cs ih =>
    have hbreaks : (cs.takeWhile (· ≠ '\n')).filter (· = '\n') = [] := by
      rw [List.filter_eq_nil_iff]
      exact fun c hc => by simpa using List.mem_takeWhile_imp hc
    have hstrip : stripComments ('/' :: '/' :: cs) = stripComments (cs.dropWhile (· ≠ '\n')) :=
      stripFrom_lineComment cs
    rw [hstrip, ih, uncomment_cons, Piece.uncommented, List.filter_cons_of_neg (by decide),
      List.filter_cons_of_neg (by decide), hbreaks]
    rfl
  | case4 cs ih =>
    have hstrip : stripComments ('/' :: '*' :: cs) =
        (cutComment cs).1.filter (· = '\n') ++ stripComments (cutComment cs).2 :=
      stripFrom_blockComment cs
    rw [hstrip, pieces_breaks, ih, uncomment_cons, Piece.uncommented,
      List.filter_cons_of_neg (by decide), List.filter_cons_of_neg (by decide)]
  | case5 c cs hq hl hb ih =>
    have halone : IsAlone c cs := ⟨hq, hl, hb⟩
    rw [stripComments_alone halone, pieces_alone halone.strip, ih]
    rfl

theorem dropCommasFrom_quoted (cs : List Char) :
    dropCommasFrom (some false) cs =
      (cutLiteral cs).1 ++ dropTrailingCommas (cutLiteral cs).2 := by
  refine eq_cutLiteral_append (f := dropCommasFrom (some false)) (g := dropTrailingCommas) rfl rfl
    (fun _ => rfl) rfl (fun _ _ => rfl) (fun c cs hq hc => ?_) cs
  simp only [dropCommasFrom, afterQuoted_plain hq hc]

theorem closesNext_cons (c : Char) (cs : List Char) :
    closesNext (c :: cs) = if Text.isBlank c then closesNext cs else c = '}' || c = ']' := by
  unfold closesNext
  by_cases hc : Text.isBlank c
  · rw [List.dropWhile_cons_of_pos hc, if_pos hc]
  · rw [List.dropWhile_cons_of_neg hc, if_neg hc]

theorem closes_pieces (cs : List Char) : closes (pieces cs) = closesNext cs := by
  fun_induction pieces cs with
  | case1 => rfl
  | case2 cs _ => exact (closesNext_cons '"' cs).symm
  | case3 cs _ => exact (closesNext_cons '/' ('/' :: cs)).symm
  | case4 cs _ => exact (closesNext_cons '/' ('*' :: cs)).symm
  | case5 c cs _ _ _ ih => rw [closes, closesNext_cons, ih]

theorem dropTrailingCommas_cons {c : Char} (hq : c ≠ '"') (cs : List Char) :
    dropTrailingCommas (c :: cs) =
      if c = ',' && closesNext cs then dropTrailingCommas cs else c :: dropTrailingCommas cs :=
  if_neg hq

/-- White space and closing brackets: what can follow a comma that is taken out. -/
def isEnd (c : Char) : Bool := Text.isBlank c || c = '}' || c = ']'

theorem dropTrailingCommas_closes {cs : List Char} (h : closesNext cs) :
    ∃ c ds, isEnd c ∧ cs = c :: ds ∧ dropTrailingCommas cs = c :: dropTrailingCommas ds := by
  cases cs with
  | nil => cases h
  | cons c cs =>
    have hend : isEnd c := by
      rw [closesNext_cons] at h
      unfold isEnd
      split_ifs at h with hc
      · rw [hc]; rfl
      · rw [Bool.or_assoc, h, Bool.or_true]
    have hq : c ≠ '"' := by rintro rfl; exact absurd hend (by decide)
    have hcomma : c ≠ ',' := by rintro rfl; exact absurd hend (by decide)
    refine ⟨c, cs, hend, rfl, ?_⟩
    rw [dropTrailingCommas_cons hq, decide_eq_false hcomma]
    rfl

theorem IsAlone.drop {c : Char} {cs : List Char} (h : IsAlone c cs) :
    IsAlone c (dropTrailingCommas cs) := by
  refine h.of_head fun _ x xs hx hslash => ?_
  cases cs with
  | nil => cases hx
  | cons d cs =>
    by_cases hq : d = '"'
    · rw [hq] at hx ⊢
      cases hx
      exact ⟨cs, rfl⟩
    · rw [dropTrailingCommas_cons hq] at hx
      split_ifs at hx with hcomma
      · obtain ⟨e, es, he, -, hes⟩ := dropTrailingCommas_closes (Bool.and_eq_true _ _ ▸ hcomma).2
        rw [hes] at hx
        cases hx
        rcases hslash with rfl | rfl
        · exact absurd he (by decide)
        · exact absurd he (by decide)
      · cases hx
        exact ⟨cs, rfl⟩

/-- The second pass takes out the commas before closing brackets, in a text without comments. -/
theorem pieces_dropTrailingCommas {cs : List Char} (h : ∀ p ∈ pieces cs, p.isComment = false) :
    pieces (dropTrailingCommas cs) = withoutCommas (pieces cs) := by
  fun_induction pieces cs with
  | case1 => exact pieces_nil
  | case2 cs ih =>
    have hdrop : dropTrailingCommas ('"' :: cs) =
        '"' :: ((cutLiteral cs).1 ++ dropTrailingCommas (cutLiteral cs).2) :=
      congrArg ('"' :: ·) (dropCommasFrom_quoted cs)
    rw [hdrop, pieces_literal (fun h => congrArg dropTrailingCommas h),
      ih fun p hp => h p (List.mem_cons_of_mem _ hp)]
    rfl
  | case3 cs _ | case4 cs _ => cases h _ List.mem_cons_self
  | case5 c cs hq hl hb ih =>
    have halone : IsAlone c cs := ⟨hq, hl, hb⟩
    have hrest := ih fun p hp => h p (List.mem_cons_of_mem _ hp)
    have hcomma : (Piece.char c = .char ',') = (c = ',') := by rw [Piece.char.injEq]
    rw [dropTrailingCommas_cons hq, withoutCommas, closes_pieces, ← hrest]
    simp only [hcomma]
    split_ifs
    · rfl
    · exact pieces_alone halone.drop

theorem isComment_of_mem_uncomment {p : Piece} {ps : List Piece} (h : p ∈ uncomment ps) :
    p.isComment = false := by
  obtain ⟨q, -, hp⟩ := List.mem_flatMap.1 h
  cases q with
  | char | literal => rw [List.mem_singleton.1 hp]; rfl
  | comment cs =>
    obtain ⟨c, -, rfl⟩ := List.mem_map.1 hp
    rfl

/-- Both passes together. -/
theorem pieces_normalize (cs : List Char) :
    pieces (normalize cs) = withoutCommas (uncomment (pieces cs)) := by
  have hstrip := pieces_stripComments cs
  rw [normalize, pieces_dropTrailingCommas, hstrip]
  intro p hp
  rw [hstrip] at hp
  exact isComment_of_mem_uncomment hp

end ScriptToLua.Options
