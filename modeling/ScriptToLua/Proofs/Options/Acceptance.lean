import Mathlib
import ScriptToLua.Proofs.Options.TrailingCommas

/-!
What taking out comments and trailing commas does to the documents a text denotes. JSON with
comments and trailing commas becomes JSON for the same document. The other way round there are two
exceptions: a comment within one line leaves nothing behind, so that the words around it become one;
and a comma before a closing bracket is taken out even if it follows nothing: `isExtendedJson_iff`.
-/

namespace ScriptToLua.Options

variable {extended : Bool} {c : Char} {cs : List Char} {p : Piece} {ps qs : List Piece}
  {ts us : List Token}

section Comments

theorem uncomment_append (ps qs : List Piece) :
    uncomment (ps ++ qs) = uncomment ps ++ uncomment qs :=
  List.flatMap_append

theorem uncomment_chars (cs : List Char) : uncomment (cs.map .char) = cs.map .char := by
  induction cs with
  | nil => rfl
  | cons c cs ih => exact congrArg (Piece.char c :: ·) ih

theorem standsFor_of_mem_breaks (h : p ∈ (cs.filter (· = '\n')).map Piece.char) :
    p.StandsFor extended [] := by
  obtain ⟨c, hc, rfl⟩ := List.mem_map.1 h
  obtain rfl : c = '\n' := of_decide_eq_true (List.mem_filter.1 hc).2
  exact .gap rfl

/-- Without its comments a text spells the same tokens. -/
theorem Spells.uncomment (h : Spells true ps ts) : Spells false (uncomment ps) ts := by
  induction h with
  | nil => exact .nil
  | @piece p ps ts us hp _ ih =>
    rw [uncomment_cons]
    cases hp with
    | gap hgap => exact .piece (.gap hgap) ih
    | comment => exact (spells_append_of_gaps fun _ => standsFor_of_mem_breaks).2 ih
    | mark hmark => exact .piece (.mark hmark) ih
    | string hstring => exact .piece (.string hstring) ih
  | word hword _ ih =>
    rw [uncomment_append, uncomment_chars]
    exact .word hword ih

theorem Piece.StandsFor.extend (h : p.StandsFor false us) : p.StandsFor true us := by
  cases h with
  | gap h => exact .gap h
  | comment => exact .comment rfl
  | mark h => exact .mark h
  | string h => exact .string h

/-- Before the first piece that is left stand only comments, without line breaks. -/
theorem eq_append_of_uncomment (h : uncomment ps = p :: qs) (hp : p ≠ .char '\n') :
    ∃ comments rest, ps = comments ++ p :: rest ∧ (∀ q ∈ comments, q.IsInline) ∧
      uncomment rest = qs := by
  induction ps with
  | nil => cases h
  | cons q ps ih =>
    rw [uncomment_cons] at h
    cases q with
    | char | literal =>
      cases h
      exact ⟨[], ps, rfl, nofun, rfl⟩
    | comment cs =>
      rw [Piece.uncommented] at h
      cases hbreaks : cs.filter (· = '\n') with
      | nil =>
        rw [hbreaks] at h
        obtain ⟨comments, rest, rfl, hcomments, hrest⟩ := ih h
        refine ⟨.comment cs :: comments, rest, rfl, ?_, hrest⟩
        rintro q (_ | ⟨_, hq⟩)
        · exact ⟨cs, rfl, fun hmem => List.filter_eq_nil_iff.1 hbreaks _ hmem (decide_eq_true rfl)⟩
        · exact hcomments q hq
      | cons d ds =>
        rw [hbreaks] at h
        cases h
        have hd : d ∈ cs.filter (· = '\n') := hbreaks ▸ List.mem_cons_self
        obtain rfl : d = '\n' := of_decide_eq_true (List.mem_filter.1 hd).2
        exact absurd rfl hp

/-- The characters of a word that is left are next to each other, if no words have been glued. -/
theorem eq_chars_of_uncomment {cs : List Char} (hglued : ¬ IsGlued (.char c :: ps))
    (hc : isWordChar c) (hcs : cs.all isWordChar) (h : uncomment ps = cs.map .char ++ qs) :
    ∃ rest, ps = cs.map .char ++ rest ∧ uncomment rest = qs := by
  induction cs generalizing c ps with
  | nil => exact ⟨ps, rfl, h⟩
  | cons d cs ih =>
    rw [List.all_cons, Bool.and_eq_true] at hcs
    have hbreak : Piece.char d ≠ .char '\n' := by
      rintro hd
      cases hd
      exact absurd hcs.1 (by decide)
    obtain ⟨comments, rest, rfl, hcomments, hrest⟩ := eq_append_of_uncomment h hbreak
    cases comments with
    | nil =>
      obtain ⟨rest, rfl, hqs⟩ := ih (fun h => hglued (h.append [_])) hcs.1 hcs.2 hrest
      exact ⟨rest, rfl, hqs⟩
    | cons q comments =>
      exact absurd ⟨[], c, _, d, rest, rfl, hc, hcs.1, List.cons_ne_nil _ _, hcomments⟩ hglued

/-- Tokens of a text without its comments are tokens of the text, if no words have been glued. -/
theorem Spells.of_uncomment (h : Spells false (Options.uncomment ps) ts) (hglued : ¬ IsGlued ps) :
    Spells true ps ts := by
  -- a word takes up several pieces at once, so the induction is on the number of pieces
  induction hn : ps.length using Nat.strong_induction_on generalizing ps ts with
  | _ n ih =>
  subst hn
  cases ps with
  | nil =>
    rw [h.eq_nil]
    exact .nil
  | cons p ps =>
    have hglued' : ¬ IsGlued ps := fun h => hglued (h.append [p])
    have hkept (h : Spells false (p :: Options.uncomment ps) ts) : Spells true (p :: ps) ts := by
      obtain ⟨us, vs, hp, rfl, hrest⟩ | ⟨c, cs, qs, us, hword, rfl, hps, rfl, hrest⟩ := h.cons_inv
      · exact .piece hp.extend (ih ps.length (Nat.lt_succ_self _) hrest hglued' rfl)
      · obtain ⟨rest, rfl, rfl⟩ :=
          eq_chars_of_uncomment hglued hword.isWordChar_head hword.isWordChar_tail hps
        refine .word hword (ih rest.length ?_ hrest (fun h => hglued (h.append (_ :: _))) rfl)
        simp only [List.length_cons, List.length_append]
        omega
    rw [uncomment_cons] at h
    cases p with
    | char | literal => exact hkept h
    | comment cs =>
      have hrest := (spells_append_of_gaps fun _ => standsFor_of_mem_breaks).1 h
      exact .piece (.comment rfl) (ih ps.length (Nat.lt_succ_self _) hrest hglued' rfl)

end Comments

section Commas

theorem isClosing_of_isWordChar (h : isWordChar c) : isClosing c = false := by
  have hmark := (apart_of_isWordChar h).2.1
  simp only [isMark, Bool.or_eq_false_iff] at hmark
  exact hmark.1.1.2

theorem Spells.closes_eq (h : Spells false ps ts) : closes ps = closesTokens ts := by
  induction h with
  | nil => rfl
  | @piece p ps ts us hp _ ih =>
    cases hp with
    | gap hgap => rw [closes, if_pos (isBlank_of_isGap hgap), ih]; rfl
    | comment h => cases h
    | mark hmark => rw [closes, (apart_of_isMark hmark).2]; rfl
    | string => rfl
  | @word cs ps ts hword _ ih =>
    cases cs with
    | nil => exact absurd rfl hword.ne_nil
    | cons c cs =>
      have hc := hword.isWordChar_head
      rw [List.map_cons, List.cons_append, closes, (apart_of_isWordChar hc).2.2]
      exact isClosing_of_isWordChar hc

theorem withoutCommas_comma (h : closes ps) :
    withoutCommas (.char ',' :: ps) = withoutCommas ps := by
  rw [withoutCommas, h]
  rfl

theorem withoutCommas_kept (h : ¬ (p = .char ',' ∧ closes ps)) :
    withoutCommas (p :: ps) = p :: withoutCommas ps := by
  rw [withoutCommas, if_neg]
  rwa [Bool.and_eq_true, decide_eq_true_eq]

theorem ne_comma_of_isWordChar (h : isWordChar c) : Piece.char c ≠ .char ',' := by
  intro hc
  cases hc
  exact absurd h (by decide)

theorem withoutCommas_word (hcs : cs.all isWordChar) :
    withoutCommas (cs.map .char ++ ps) = cs.map .char ++ withoutCommas ps := by
  induction cs with
  | nil => rfl
  | cons c cs ih =>
    rw [List.all_cons, Bool.and_eq_true] at hcs
    have hkept : ¬ (Piece.char c = .char ',' ∧ closes (cs.map .char ++ ps)) :=
      fun h => ne_comma_of_isWordChar hcs.1 h.1
    rw [List.map_cons, List.cons_append, withoutCommas_kept hkept, ih hcs.2]
    rfl

/-- A comma is taken out of the text together with its token. -/
theorem Piece.StandsFor.withoutTrailing (h : p.StandsFor false us)
    (hkept : ¬ (p = .char ',' ∧ closesTokens ts)) :
    withoutTrailing (us ++ ts) = us ++ withoutTrailing ts := by
  cases h with
  | gap => rfl
  | comment h => cases h
  | @mark c =>
    by_cases hc : c = ','
    · have hts : closesTokens ts = false := Bool.eq_false_iff.2 fun h => hkept ⟨congrArg _ hc, h⟩
      exact withoutTrailing_kept hts
    · refine withoutTrailing_cons fun h => ?_
      cases h
      exact hc rfl
  | string => exact withoutTrailing_string _ _

/-- Without the commas before closing brackets a text spells the tokens without them. -/
theorem Spells.withoutCommas (h : Spells false ps ts) :
    Spells false (withoutCommas ps) (withoutTrailing ts) := by
  induction h with
  | nil => exact .nil
  | @piece p ps ts us hp hrest ih =>
    by_cases hcomma : p = .char ',' ∧ closes ps
    · obtain ⟨rfl, hcloses⟩ := hcomma
      obtain rfl := hp.unique (.mark rfl)
      rw [withoutCommas_comma hcloses]
      rw [hrest.closes_eq] at hcloses
      rwa [List.singleton_append, withoutTrailing_comma hcloses]
    · rw [withoutCommas_kept hcomma, hp.withoutTrailing (hrest.closes_eq ▸ hcomma)]
      exact .piece hp ih
  | @word cs ps ts hword _ ih =>
    rw [withoutCommas_word hword.isWordChar, withoutTrailing_word]
    exact .word hword ih

/-- What is left first after a comma that is taken out belongs to no word. -/
theorem first_of_closes (h : closes ps) :
    ∃ c rest, isWordChar c = false ∧ withoutCommas ps = .char c :: rest := by
  match ps, h with
  | .char c :: ps, h =>
    rw [closes] at h
    have hcomma : c ≠ ',' := by
      rintro rfl
      cases h
    refine ⟨c, withoutCommas ps, Bool.eq_false_iff.2 fun hc => ?_, withoutCommas_kept ?_⟩
    · rw [(apart_of_isWordChar hc).2.2] at h
      exact Bool.false_ne_true ((isClosing_of_isWordChar hc).symm.trans h)
    · rintro ⟨hp, -⟩
      cases hp
      exact hcomma rfl

/-- No comma stands before a character of a word that was left. -/
theorem eq_chars_of_withoutCommas (hcs : cs.all isWordChar)
    (h : withoutCommas ps = cs.map .char ++ qs) :
    ∃ rest, ps = cs.map .char ++ rest ∧ withoutCommas rest = qs := by
  induction cs generalizing ps with
  | nil => exact ⟨ps, rfl, h⟩
  | cons c cs ih =>
    rw [List.all_cons, Bool.and_eq_true] at hcs
    cases ps with
    | nil => cases h
    | cons p ps =>
      by_cases hcomma : p = .char ',' ∧ closes ps
      · obtain ⟨rfl, hcloses⟩ := hcomma
        obtain ⟨d, rest, hd, hrest⟩ := first_of_closes hcloses
        rw [withoutCommas_comma hcloses, hrest] at h
        cases h
        rw [hd] at hcs
        cases hcs.1
      · rw [withoutCommas_kept hcomma] at h
        injection h with hp hps
        obtain ⟨rest, rfl, hrest⟩ := ih hcs.2 hps
        exact ⟨rest, congrArg (· :: _) hp, hrest⟩

/-- Each comma that was taken out of the text was a token before a closing bracket. -/
theorem Spells.of_withoutCommas (h : Spells false (Options.withoutCommas ps) ts) :
    ∃ us, Spells false ps us ∧ withoutTrailing us = ts := by
  induction hn : ps.length using Nat.strong_induction_on generalizing ps ts with
  | _ n ih =>
  subst hn
  cases ps with
  | nil => exact ⟨[], .nil, h.eq_nil.symm⟩
  | cons p ps =>
    by_cases hcomma : p = .char ',' ∧ closes ps
    · obtain ⟨rfl, hcloses⟩ := hcomma
      rw [withoutCommas_comma hcloses] at h
      obtain ⟨us, hus, rfl⟩ := ih ps.length (Nat.lt_succ_self _) h rfl
      rw [hus.closes_eq] at hcloses
      exact ⟨.mark ',' :: us, .piece (.mark rfl) hus, withoutTrailing_comma hcloses⟩
    · rw [withoutCommas_kept hcomma] at h
      obtain ⟨us, vs, hp, rfl, hrest⟩ | ⟨c, cs, qs, us, hword, rfl, hps, rfl, hrest⟩ := h.cons_inv
      · obtain ⟨ws, hws, rfl⟩ := ih ps.length (Nat.lt_succ_self _) hrest rfl
        exact ⟨us ++ ws, .piece hp hws, hp.withoutTrailing (hws.closes_eq ▸ hcomma)⟩
      · obtain ⟨rest, rfl, rfl⟩ := eq_chars_of_withoutCommas hword.isWordChar_tail hps
        have hlt : rest.length < (Piece.char c :: (cs.map .char ++ rest)).length := by
          simp only [List.length_cons, List.length_append]
          omega
        obtain ⟨ws, hws, rfl⟩ := ih rest.length hlt hrest rfl
        exact ⟨.word (c :: cs) :: ws, .word hword hws, withoutTrailing_word _ _⟩

end Commas

variable {d : Document}

theorem IsExtendedJson.not_isGlued (h : IsExtendedJson cs d) : ¬ IsGlued (pieces cs) := by
  intro hglued
  obtain ⟨ts, hspells, hwrites⟩ := h
  obtain ⟨before, v, w, after, rfl⟩ := hspells.words_of_isGlued hglued
  exact hwrites.words_apart

theorem IsExtendedJson.not_hasLoneComma (h : IsExtendedJson cs d) : ¬ HasLoneComma (pieces cs) := by
  intro hlone
  obtain ⟨ts, hspells, hwrites⟩ := h
  exact hwrites.not_opensWithComma (hspells.hasLoneComma_iff.1 hlone)

/-- JSON with comments and trailing commas becomes JSON for the same document. -/
theorem IsExtendedJson.normalize (h : IsExtendedJson cs d) : IsJson (normalize cs) d := by
  obtain ⟨ts, hspells, hwrites⟩ := h
  obtain ⟨us, hus, hstrict⟩ := hwrites.strict
  have hts : withoutTrailing ts = us := by simpa [withoutTrailing] using hstrict []
  refine ⟨us, ?_, hus⟩
  rw [pieces_normalize, ← hts]
  exact hspells.uncomment.withoutCommas

/-- A text is JSON with comments and trailing commas just if it is JSON once these have been taken
out, no words of it have become one by that, and no comma was taken out that follows nothing. -/
theorem isExtendedJson_iff (cs : List Char) (d : Document) :
    IsExtendedJson cs d ↔
      IsJson (normalize cs) d ∧ ¬ IsGlued (pieces cs) ∧ ¬ HasLoneComma (pieces cs) := by
  refine ⟨fun h => ⟨h.normalize, h.not_isGlued, h.not_hasLoneComma⟩, ?_⟩
  rintro ⟨⟨us, hspells, hwrites⟩, hglued, hlone⟩
  rw [pieces_normalize] at hspells
  obtain ⟨ts, hts, rfl⟩ := hspells.of_withoutCommas
  have htext := hts.of_uncomment hglued
  have hopens : ¬ OpensWithComma ts := fun h => hlone (htext.hasLoneComma_iff.2 h)
  obtain ⟨vs, rest, rfl, hvs, hrest⟩ := hwrites.restores ts [] (List.append_nil _).symm hopens
  rw [eq_nil_of_withoutTrailing hrest, List.append_nil] at htext
  exact ⟨vs, htext, hvs⟩

/-- A trailing comma with a comment after it. -/
example : IsExtendedJson ['[', 'n', 'u', 'l', 'l', ',', '/', '*', '*', '/', ']']
    (.array [.word ['n', 'u', 'l', 'l']]) := by
  have hpieces : pieces ['[', 'n', 'u', 'l', 'l', ',', '/', '*', '*', '/', ']'] =
      .char '[' :: (['n', 'u', 'l', 'l'].map .char ++
        [.char ',', .comment ['/', '*', '*', '/'], .char ']']) := by cbv
  have hitem : WritesItems true ([.word ['n', 'u', 'l', 'l']].map .element)
      [.word ['n', 'u', 'l', 'l'], .mark ','] := .trailing rfl (.element (.word _))
  refine ⟨_, ?_, .array hitem⟩
  rw [hpieces]
  exact .piece (.mark rfl) (.word (.inr (.inr (.inl rfl)))
    (.piece (.mark rfl) (.piece (.comment rfl) (.piece (.mark rfl) .nil))))

/-- Two numbers that become one, and a comma that follows nothing. -/
theorem isJson_of_no_extendedJson :
    (IsJson (normalize ['[', '1', '/', '*', '*', '/', '2', ']']) (.array [.word ['1', '2']]) ∧
      ∀ d, ¬ IsExtendedJson ['[', '1', '/', '*', '*', '/', '2', ']'] d) ∧
    (IsJson (normalize ['[', ',', ']']) (.array []) ∧ ∀ d, ¬ IsExtendedJson ['[', ',', ']'] d) := by
  have hnumber : IsNumber ['1', '2'] :=
    ⟨[], ['1', '2'], [], [], by decide, ⟨⟨List.cons_ne_nil _ _, List.all_eq_true.1 rfl⟩, by decide⟩,
      .inl rfl, .inl rfl, rfl⟩
  have hitem : WritesItems false ([.word ['1', '2']].map .element) [.word ['1', '2']] :=
    .last (.element (.word _))
  have hnone : WritesItems false (List.map .element []) [] := .nil
  have hpieces : pieces ['[', '1', '/', '*', '*', '/', '2', ']'] =
      [.char '[', .char '1', .comment ['/', '*', '*', '/'], .char '2', .char ']'] := by cbv
  have hlone : pieces ['[', ',', ']'] = [.char '[', .char ',', .char ']'] := by cbv
  refine ⟨⟨⟨[.mark '[', .word ['1', '2'], .mark ']'], ?_, ?_⟩, fun d h => h.not_isGlued ?_⟩,
    ⟨[.mark '[', .mark ']'], ?_, ?_⟩, fun d h => h.not_hasLoneComma ?_⟩
  · rw [pieces_normalize, hpieces]
    exact .piece (.mark rfl) (.word (.inr (.inr (.inr hnumber))) (.piece (.mark rfl) .nil))
  · exact .array hitem
  · rw [hpieces]
    refine ⟨[.char '['], '1', [.comment ['/', '*', '*', '/']], '2', [.char ']'], rfl, by decide,
      by decide, List.cons_ne_nil _ _, fun p hp => ⟨_, List.mem_singleton.1 hp, by decide⟩⟩
  · rw [pieces_normalize, hlone]
    exact .piece (.mark rfl) (.piece (.mark rfl) .nil)
  · exact .array hnone
  · rw [hlone]
    exact ⟨[], '[', [], [.char ']'], rfl, rfl, fun _ hp => absurd hp List.not_mem_nil⟩

end ScriptToLua.Options
