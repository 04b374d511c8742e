import Mathlib
import ScriptToLua.Proofs.Lua.Reading.Expression

/-!
The rules for functions, statements and blocks.
-/

namespace ScriptToLua.Lua

section Names

variable {x : String} {xs : List String} {rest : List Token}

theorem readName_rule (hx : isName x) (rest : List Token) :
    readName (.word x :: rest) = some (x, rest) := if_pos hx

theorem readNames_last (hx : isName x) (hrest : ∀ t ∈ rest.head?, t ≠ .symbol ",") :
    readNames (.word x :: rest) = some ([x], rest) := by
  cases rest with
  | nil =>
    rw [readNames, if_pos hx]
    nofun
  | cons t ts =>
    cases t with
    | word y =>
      rw [readNames, if_pos hx]
      nofun
    | numeral text =>
      rw [readNames, if_pos hx]
      nofun
    | quoted text =>
      rw [readNames, if_pos hx]
      nofun
    | symbol s =>
      have hs : s ≠ "," := fun hs => hrest _ rfl (by rw [hs])
      rw [readNames, if_pos hx, if_neg hs]

theorem readNames_cons (hx : isName x) {ts : List Token} (h : readNames ts = some (xs, rest)) :
    readNames (.word x :: .symbol "," :: ts) = some (x :: xs, rest) := by
  rw [readNames, if_pos hx, if_pos rfl, h]
  rfl

theorem readNames_separated (hne : xs ≠ []) (hxs : ∀ x ∈ xs, isName x)
    (hrest : ∀ t ∈ rest.head?, t ≠ .symbol ",") :
    readNames (readTokens (separated (xs.map word)) ++ rest) = some (xs, rest) := by
  induction xs with
  | nil => exact absurd rfl hne
  | cons x xs ih =>
    have hx := hxs x List.mem_cons_self
    cases xs with
    | nil => exact readNames_last hx hrest
    | cons y ys =>
      have hys := ih (List.cons_ne_nil y ys) fun z hz => hxs z (List.mem_cons_of_mem x hz)
      have hcons := readNames_cons hx hys
      simpa [separated] using hcons

theorem readParameters_pieces (hxs : ∀ x ∈ xs, isName x) (rest : List Token) :
    readParameters (readTokens (parameterPieces xs) ++ rest) = some (xs, rest) := by
  cases xs with
  | nil => rfl
  | cons x xs =>
    have hnames := readNames_separated (List.cons_ne_nil x xs) hxs
      (by rintro _ ⟨⟩; decide : ∀ t ∈ (Token.symbol ")" :: rest).head?, t ≠ .symbol ",")
    have hne : expect (.symbol ")")
        (readTokens (separated ((x :: xs).map word)) ++ Token.symbol ")" :: rest) = none := by
      cases xs with
      | nil => rfl
      | cons y ys => rfl
    have htokens : readTokens (parameterPieces (x :: xs)) ++ rest =
        .symbol "(" :: (readTokens (separated ((x :: xs).map word)) ++ .symbol ")" :: rest) := by
      simp [parameterPieces]
    rw [readParameters, htokens, expect_self]
    simp only [Option.bind_eq_bind, Option.bind_some, hne, hnames, expect_self]
    rfl

end Names

section Blocks

variable {n n' n'' : Nat} {e e' c : Code} {x : String} {xs : List String}
  {ts ts' ts'' ts''' : List Token} {es values targets body cs : List Code} {r : Code × List Token}
  {rs : List Code × List Token}

theorem readFunction_rule (h : readParameters ts = some (xs, ts'))
    (h' : Reads n (readBlock · ts') (body, .word "end" :: ts'')) :
    Reads (n + 1) (readFunction · ts) ((xs, body), ts'') := by
  apply Reads.succ
  intro room hr
  have h₁ : readBlock room ts' = some (body, .word "end" :: ts'') := h' room hr
  rw [readFunction, h]
  change ((readBlock room ts').bind _) = _
  rw [h₁]
  rfl

theorem readLocal_function (hx : isName x) (h : Reads n (readFunction · ts) ((xs, body), ts')) :
    Reads (n + 1) (readLocal · (.word "function" :: .word x :: ts))
      (.localFunction x xs body, ts') := by
  apply Reads.succ
  intro room hr
  have h₁ : readFunction room ts = some ((xs, body), ts') := h room hr
  rw [readLocal, expect_self]
  change ((readName (.word x :: ts)).bind _) = _
  rw [readName_rule hx]
  change ((readFunction room ts).bind _) = _
  rw [h₁]
  rfl

theorem not_function_of_readNames {p : List String × List Token} (h : readNames ts = some p) :
    expect (.word "function") ts = none := by
  apply expect_none
  rintro _ ht rfl
  cases ts with
  | nil => cases ht
  | cons t ts =>
    cases ht
    unfold readNames at h
    split at h
    · next heq =>
      cases heq
      cases h
    · next heq =>
      cases heq
      cases h
    · cases h

theorem readLocal_names (h : readNames ts = some (xs, ts'))
    (hend : ∀ t ∈ ts'.head?, t ≠ .symbol "=") :
    Reads 1 (readLocal · ts) (.locals xs [], ts') := by
  apply Reads.succ
  intro room _
  rw [readLocal, not_function_of_readNames h]
  simp only [h, Option.bind_eq_bind, Option.bind_some, expect_none hend]
  rfl

theorem readLocal_values (h : readNames ts = some (xs, .symbol "=" :: ts'))
    (h' : Reads n (readExprs · ts') (values, ts'')) :
    Reads (n + 1) (readLocal · ts) (.locals xs values, ts'') := by
  apply Reads.succ
  intro room hr
  have h₁ : readExprs room ts' = some (values, ts'') := h' room hr
  rw [readLocal, not_function_of_readNames h, h]
  change ((readExprs room ts').bind _) = _
  rw [h₁]
  rfl

theorem readTargets_last (he : e.isTarget) (ts : List Token) :
    Reads 1 (readTargets · e (.symbol "=" :: ts)) ([e], ts) := by
  apply Reads.succ
  intro room _
  rw [readTargets, if_pos he, expect_none (by rintro _ ⟨⟩; decide), expect_self]
  rfl

theorem readTargets_cons (he : e.isTarget) (h : Reads n (readPrefixed · ts) (e', ts'))
    (h' : Reads n' (readTargets · e' ts') (targets, ts'')) :
    Reads (n + n' + 1) (readTargets · e (.symbol "," :: ts)) (e :: targets, ts'') := by
  apply Reads.succ
  intro room hr
  have h₁ : readPrefixed room ts = some (e', ts') := h room (by omega)
  have h₂ : readTargets room e' ts' = some (targets, ts'') := h' room (by omega)
  rw [readTargets, if_pos he, expect_self]
  change ((readPrefixed room ts).bind _) = _
  rw [h₁]
  change ((readTargets room e' ts').bind _) = _
  rw [h₂]
  rfl

theorem readStatement_local (h : Reads n (readLocal · ts) r) :
    Reads (n + 1) (readStatement · (.word "local" :: ts)) r := by
  apply Reads.succ
  intro room hr
  rw [readStatement, expect_self]
  exact h room hr

theorem readStatement_block (h : Reads n (readBlock · ts) (body, .word "end" :: ts')) :
    Reads (n + 1) (readStatement · (.word "do" :: ts)) (.block body, ts') := by
  apply Reads.succ
  intro room hr
  have h₁ : readBlock room ts = some (body, .word "end" :: ts') := h room hr
  rw [readStatement, expect_none (by rintro _ ⟨⟩; decide), expect_self]
  change ((readBlock room ts).bind _) = _
  rw [h₁]
  rfl

/-- A statement that begins with a name or a parenthesis is a call or an assignment. -/
theorem readStatement_prefixed {room : Nat} {p : Code × List Token}
    (h : readPrefixed room ts = some p) :
    readStatement (room + 1) ts =
      match (expect (.symbol "=") p.2).or (expect (.symbol ",") p.2) with
      | some _ => do
        let (targets, ts) ← readTargets room p.1 p.2
        let (values, ts) ← readExprs room ts
        return (.assign targets values, ts)
      | none => if p.1.isCall then some (.perform p.1, p.2) else none := by
  obtain ⟨t, ts', rfl, ht⟩ := beginsPrefixed_of_readPrefixed h
  have hne {k : String} (hk : isKeyword k) : expect (.word k) (t :: ts') = none := by
    apply expect_none
    rintro _ ⟨⟩
    exact ne_word_of_beginsPrefixed ht hk
  rw [readStatement, hne (by decide), hne (by decide), h]
  rfl

theorem readStatement_call (hc : e.isCall) (h : Reads n (readPrefixed · ts) (e, ts'))
    (hend : ∀ t ∈ ts'.head?, t ≠ .symbol "=" ∧ t ≠ .symbol ",") :
    Reads (n + 1) (readStatement · ts) (.perform e, ts') := by
  apply Reads.succ
  intro room hr
  have h₁ : readPrefixed room ts = some (e, ts') := h room hr
  rw [readStatement_prefixed h₁, expect_none fun t ht => (hend t ht).1,
    expect_none fun t ht => (hend t ht).2]
  exact if_pos hc

theorem readStatement_assign (h : Reads n (readPrefixed · ts) (e, ts'))
    (h' : Reads n' (readTargets · e ts') (targets, ts''))
    (h'' : Reads n'' (readExprs · ts'') (values, ts''')) :
    Reads (n + n' + n'' + 1) (readStatement · ts) (.assign targets values, ts''') := by
  apply Reads.succ
  intro room hr
  have h₁ : readPrefixed room ts = some (e, ts') := h room (by omega)
  have h₂ : readTargets room e ts' = some (targets, ts'') := h' room (by omega)
  have h₃ : readExprs room ts'' = some (values, ts''') := h'' room (by omega)
  have hsign : ∃ rest, (expect (.symbol "=") ts').or (expect (.symbol ",") ts') = some rest := by
    cases heq : expect (.symbol "=") ts' with
    | some rest => exact ⟨rest, rfl⟩
    | none =>
      cases hcomma : expect (.symbol ",") ts' with
      | some rest => exact ⟨rest, rfl⟩
      | none =>
        cases room with
        | zero => cases h₂
        | succ room =>
          rw [readTargets, hcomma, heq] at h₂
          split at h₂ <;> cases h₂
  obtain ⟨rest, hsign⟩ := hsign
  rw [readStatement_prefixed h₁]
  simp only [hsign, h₂, Option.bind_eq_bind, Option.bind_some, h₃]
  rfl

theorem readBlock_end (h : blockEnds ts) : Reads 1 (readBlock · ts) ([], ts) := by
  apply Reads.succ
  intro room _
  rw [readBlock, if_pos h]

theorem readBlock_semicolon (h : Reads n (readBlock · ts) rs) :
    Reads (n + 1) (readBlock · (.symbol ";" :: ts)) rs := by
  apply Reads.succ
  intro room hr
  rw [readBlock, if_neg (by simp [blockEnds]), expect_self]
  exact h room hr

theorem readBlock_return (h : Reads n (readReturn · ts) rs) :
    Reads (n + 1) (readBlock · (.word "return" :: ts)) rs := by
  apply Reads.succ
  intro room hr
  rw [readBlock, if_neg (by simp [blockEnds]), expect_none (by rintro _ ⟨⟩; decide), expect_self]
  exact h room hr

theorem begins_of_readStatement {room : Nat} (h : readStatement room ts = some r) :
    ∃ t ts', ts = t :: ts' ∧ (t = .word "local" ∨ t = .word "do" ∨ t.beginsPrefixed) := by
  cases room with
  | zero => cases h
  | succ room =>
    rw [readStatement] at h
    cases ts with
    | nil =>
      obtain ⟨p, hp, -⟩ := Option.bind_eq_some_iff.1 h
      obtain ⟨t, ts', heq, -⟩ := beginsPrefixed_of_readPrefixed hp
      cases heq
    | cons t ts =>
      refine ⟨t, ts, rfl, ?_⟩
      by_cases hl : t = .word "local"
      · exact .inl hl
      · by_cases hd : t = .word "do"
        · exact .inr (.inl hd)
        · rw [expect_none (by rintro _ ⟨⟩; exact hl), expect_none (by rintro _ ⟨⟩; exact hd)] at h
          obtain ⟨p, hp, -⟩ := Option.bind_eq_some_iff.1 h
          obtain ⟨t', ts', heq, ht⟩ := beginsPrefixed_of_readPrefixed hp
          cases heq
          exact .inr (.inr ht)

theorem readBlock_cons (h : Reads n (readStatement · ts) (c, ts'))
    (h' : Reads n (readBlock · ts') (cs, ts'')) :
    Reads (n + 1) (readBlock · ts) (c :: cs, ts'') := by
  apply Reads.succ
  intro room hr
  have h₁ : readStatement room ts = some (c, ts') := h room hr
  have h₂ : readBlock room ts' = some (cs, ts'') := h' room hr
  obtain ⟨t, ts₁, rfl, ht⟩ := begins_of_readStatement h₁
  have hend : blockEnds (t :: ts₁) = false ∧ t ≠ .symbol ";" ∧ t ≠ .word "return" := by
    rcases ht with rfl | rfl | ht
    · simp [blockEnds]
    · simp [blockEnds]
    · refine ⟨decide_eq_false (ne_word_of_beginsPrefixed ht (by decide)), ?_,
        ne_word_of_beginsPrefixed ht (by decide)⟩
      rintro rfl
      cases ht
  obtain ⟨hend, hs, hret⟩ := hend
  rw [readBlock, if_neg (by simp [hend]), expect_none (by rintro _ ⟨⟩; exact hs),
    expect_none (by rintro _ ⟨⟩; exact hret)]
  change ((readStatement room (t :: ts₁)).bind _) = _
  rw [h₁]
  change ((readBlock room ts').bind _) = _
  rw [h₂]
  rfl

theorem readReturn_nil (h : blockEnds ts) : Reads 1 (readReturn · ts) ([.returns []], ts) := by
  apply Reads.succ
  intro room _
  rw [readReturn, if_pos h]

theorem readReturn_exprs (h : Reads n (readExprs · ts) (values, ts')) (hend : blockEnds ts') :
    Reads (n + 1) (readReturn · ts) ([.returns values], ts') := by
  apply Reads.succ
  intro room hr
  have h₁ : readExprs room ts = some (values, ts') := h room hr
  obtain ⟨t, ts₁, rfl, ht⟩ := beginsExpr_of_readExprs h₁
  have hno : blockEnds (t :: ts₁) = false := by
    apply decide_eq_false
    rintro rfl
    cases ht
  have hstop : expect (.symbol ";") ts' = none := by
    apply expect_none
    rintro _ ht rfl
    cases ts' with
    | nil => cases ht
    | cons t' ts' =>
      cases ht
      exact absurd hend nofun
  rw [readReturn, if_neg (by simp [hno]), expect_none_of_begins ⟨t, ts₁, rfl, ht⟩ rfl]
  change ((readExprs room (t :: ts₁)).bind _) = _
  rw [h₁]
  change some ([Code.returns values], (expect (.symbol ";") ts').getD ts') = _
  rw [hstop]
  rfl

end Blocks

end ScriptToLua.Lua
