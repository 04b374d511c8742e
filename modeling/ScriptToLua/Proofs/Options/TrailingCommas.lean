import Mathlib
import ScriptToLua.Proofs.Options.Spelling

/-!
Commas before closing brackets, in the tokens that write a document. Without them the tokens write
the same document (`Writes.strict`); and where the tokens that are left write a document, those with
the commas do so as well, if no comma comes first after an opening bracket (`Writes.restores`).
-/

namespace ScriptToLua.Options

def closesTokens : List Token → Bool
  | .mark c :: _ => isClosing c
  | _ => false

/-- Tokens without the commas before closing brackets. -/
def withoutTrailing : List Token → List Token
  | [] => []
  | t :: ts =>
    if t = .mark ',' && closesTokens ts then withoutTrailing ts else t :: withoutTrailing ts

variable {extended : Bool} {c : Char} {d : Document} {i : Item} {is : List Item} {t : Token}
  {ts us rest : List Token}

theorem withoutTrailing_cons (h : t ≠ .mark ',') :
    withoutTrailing (t :: ts) = t :: withoutTrailing ts := by
  rw [withoutTrailing, decide_eq_false h]
  rfl

@[simp]
theorem withoutTrailing_word (cs : List Char) (ts : List Token) :
    withoutTrailing (.word cs :: ts) = .word cs :: withoutTrailing ts := rfl

@[simp]
theorem withoutTrailing_string (cs : List Char) (ts : List Token) :
    withoutTrailing (.string cs :: ts) = .string cs :: withoutTrailing ts := rfl

theorem withoutTrailing_comma (h : closesTokens ts) :
    withoutTrailing (.mark ',' :: ts) = withoutTrailing ts := by
  rw [withoutTrailing, h]
  rfl

theorem withoutTrailing_kept (h : closesTokens ts = false) :
    withoutTrailing (t :: ts) = t :: withoutTrailing ts := by
  rw [withoutTrailing, h, Bool.and_false]
  rfl

theorem exists_of_closesTokens (h : closesTokens ts) :
    ∃ c us, ts = .mark c :: us ∧ isClosing c := by
  match ts, h with
  | .mark c :: us, h => exact ⟨c, us, rfl, h⟩

theorem withoutTrailing_closing (h : isClosing c) :
    withoutTrailing (.mark c :: ts) = .mark c :: withoutTrailing ts := by
  refine withoutTrailing_cons fun hc => ?_
  cases hc
  cases h

theorem eq_nil_of_withoutTrailing (h : withoutTrailing ts = []) : ts = [] := by
  cases ts with
  | nil => rfl
  | cons t ts =>
    rw [withoutTrailing] at h
    split_ifs at h with hcomma
    obtain ⟨-, hcloses⟩ := Bool.and_eq_true _ _ ▸ hcomma
    obtain ⟨c, us, rfl, hc⟩ := exists_of_closesTokens hcloses
    rw [withoutTrailing_closing hc] at h
    cases h

theorem Writes.closesTokens_append (h : Writes extended d ts) (rest : List Token) :
    closesTokens (ts ++ rest) = false := by
  cases h <;> rfl

theorem Writes.ne_nil (h : Writes extended d ts) : ts ≠ [] := by
  cases h <;> exact List.cons_ne_nil _ _

theorem WritesItems.ne_nil (h : WritesItems extended (i :: is) ts) : ts ≠ [] := by
  cases h with
  | last h | trailing _ h | cons h => cases h with
    | element h => simp [h.ne_nil]
    | member => simp

theorem WritesItem.closesTokens_append (h : WritesItem extended i ts) (rest : List Token) :
    closesTokens (ts ++ rest) = false := by
  cases h with
  | element h => exact h.closesTokens_append rest
  | member => rfl

theorem WritesItems.closesTokens_append (h : WritesItems extended (i :: is) ts)
    (rest : List Token) : closesTokens (ts ++ rest) = false := by
  cases h with
  | last h => exact h.closesTokens_append rest
  | trailing _ h => rw [List.append_assoc]; exact h.closesTokens_append _
  | cons h _ => rw [List.append_assoc]; exact h.closesTokens_append _

/-- Brackets around what a closing bracket may follow. -/
theorem withoutTrailing_brackets {o c : Char} (ho : o ≠ ',') (hc : isClosing c)
    (h : ∀ rest, closesTokens rest → withoutTrailing (ts ++ rest) = us ++ withoutTrailing rest)
    (rest : List Token) :
    withoutTrailing (.mark o :: (ts ++ [.mark c]) ++ rest) =
      .mark o :: (us ++ [.mark c]) ++ withoutTrailing rest := by
  rw [List.cons_append, withoutTrailing_cons (by simpa using ho), List.append_assoc,
    List.singleton_append, h (.mark c :: rest) hc, withoutTrailing_closing hc, List.append_cons]
  rfl

mutual

theorem Writes.strict {d : Document} {ts : List Token} : Writes true d ts →
    ∃ us, Writes false d us ∧ ∀ rest, withoutTrailing (ts ++ rest) = us ++ withoutTrailing rest
  | .word cs => ⟨_, .word cs, fun rest => withoutTrailing_word cs rest⟩
  | .string cs => ⟨_, .string cs, fun rest => withoutTrailing_string cs rest⟩
  | .array h => by
    obtain ⟨us, hus, heq⟩ := WritesItems.strict h
    exact ⟨_, .array hus, withoutTrailing_brackets (by decide) rfl heq⟩
  | .object h => by
    obtain ⟨us, hus, heq⟩ := WritesItems.strict h
    exact ⟨_, .object hus, withoutTrailing_brackets (by decide) rfl heq⟩

theorem WritesItem.strict {i : Item} {ts : List Token} : WritesItem true i ts →
    ∃ us, WritesItem false i us ∧
      ∀ rest, withoutTrailing (ts ++ rest) = us ++ withoutTrailing rest
  | .element h => by
    obtain ⟨us, hus, heq⟩ := Writes.strict h
    exact ⟨us, .element hus, heq⟩
  | .member h => by
    obtain ⟨us, hus, heq⟩ := Writes.strict h
    refine ⟨_, .member hus, fun rest => ?_⟩
    rw [List.cons_append, List.cons_append, withoutTrailing_string, withoutTrailing_cons (by decide),
      heq]
    rfl

theorem WritesItems.strict {is : List Item} {ts : List Token} : WritesItems true is ts →
    ∃ us, WritesItems false is us ∧
      ∀ rest, closesTokens rest → withoutTrailing (ts ++ rest) = us ++ withoutTrailing rest
  | .nil => ⟨[], .nil, fun _ _ => rfl⟩
  | .last h => by
    obtain ⟨us, hus, heq⟩ := WritesItem.strict h
    exact ⟨us, .last hus, fun rest _ => heq rest⟩
  | .trailing _ h => by
    obtain ⟨us, hus, heq⟩ := WritesItem.strict h
    refine ⟨us, .last hus, fun rest hrest => ?_⟩
    rw [List.append_assoc, heq, List.singleton_append, withoutTrailing_comma hrest]
  | .cons h hs => by
    obtain ⟨us, hus, heq⟩ := WritesItem.strict h
    obtain ⟨vs, hvs, heqs⟩ := WritesItems.strict hs
    refine ⟨_, .cons hus hvs, fun rest hrest => ?_⟩
    rw [List.append_assoc, heq, List.cons_append, withoutTrailing_kept (hs.closesTokens_append _),
      heqs _ hrest, List.append_assoc]
    rfl

end

theorem first_of_withoutTrailing (h : withoutTrailing ts = t :: us) :
    ∃ ts', withoutTrailing ts' = us ∧
      (ts = t :: ts' ∨ ts = .mark ',' :: t :: ts' ∧ closesTokens [t]) := by
  cases ts with
  | nil => cases h
  | cons s ts =>
    rw [withoutTrailing] at h
    split_ifs at h with hcomma
    · obtain ⟨hs, hcloses⟩ := Bool.and_eq_true _ _ ▸ hcomma
      obtain rfl : s = .mark ',' := of_decide_eq_true hs
      obtain ⟨c, ts', rfl, hc⟩ := exists_of_closesTokens hcloses
      rw [withoutTrailing_closing hc] at h
      cases h
      exact ⟨ts', rfl, .inr ⟨rfl, hc⟩⟩
    · cases h
      exact ⟨ts, rfl, .inl rfl⟩

/-- Comma and word follow no token that they cannot follow in a document. -/
def Fits : Token → Token → Prop
  | .mark o, .mark c => ¬ (isOpening o ∧ c = ',')
  | .word _, .word _ => False
  | _, _ => True

theorem fits_mark {o c : Char} (h : isOpening o = false ∨ c ≠ ',') : Fits (.mark o) (.mark c) := by
  rintro ⟨ho, rfl⟩
  rcases h with h | h
  · rw [ho] at h
    cases h
  · exact h rfl

mutual

theorem Writes.fits {d : Document} {ts : List Token} : Writes true d ts → ∀ o c rest,
    (.mark c :: rest).IsChain Fits → (.mark o :: (ts ++ .mark c :: rest)).IsChain Fits
  | .word _, _, _, _, hrest => .cons_cons trivial (.cons_cons trivial hrest)
  | .string _, _, _, _, hrest => .cons_cons trivial (.cons_cons trivial hrest)
  | .array h, _, _, _, hrest => by
    have hitems := WritesItems.fits h '[' ']' _ rfl (.cons_cons (fits_mark (.inl rfl)) hrest)
    rw [List.cons_append, List.append_assoc]
    exact .cons_cons (fits_mark (.inr (by decide))) hitems
  | .object h, _, _, _, hrest => by
    have hitems := WritesItems.fits h '{' '}' _ rfl (.cons_cons (fits_mark (.inl rfl)) hrest)
    rw [List.cons_append, List.append_assoc]
    exact .cons_cons (fits_mark (.inr (by decide))) hitems

theorem WritesItem.fits {i : Item} {ts : List Token} : WritesItem true i ts → ∀ o c rest,
    (.mark c :: rest).IsChain Fits → (.mark o :: (ts ++ .mark c :: rest)).IsChain Fits
  | .element h, o, c, rest, hrest => Writes.fits h o c rest hrest
  | .member h, _, c, rest, hrest =>
    .cons_cons trivial (.cons_cons trivial (Writes.fits h ':' c rest hrest))

theorem WritesItems.fits {is : List Item} {ts : List Token} : WritesItems true is ts → ∀ o c rest,
    isClosing c → (.mark c :: rest).IsChain Fits → (.mark o :: (ts ++ .mark c :: rest)).IsChain Fits
  | .nil, _, _, _, hc, hrest => .cons_cons (fits_mark (.inr (by rintro rfl; cases hc))) hrest
  | .last h, o, c, rest, _, hrest => WritesItem.fits h o c rest hrest
  | .trailing _ h, o, _, _, _, hrest => by
    rw [List.append_assoc]
    exact WritesItem.fits h o ',' _ (.cons_cons (fits_mark (.inl rfl)) hrest)
  | .cons h hs, o, c, rest, hc, hrest => by
    rw [List.append_assoc]
    exact WritesItem.fits h o ',' _ (WritesItems.fits hs ',' c rest hc hrest)

end

theorem Writes.isChain (h : Writes true d ts) : ts.IsChain Fits :=
  (h.fits ':' ':' [] (.singleton _)).tail.left_of_append

theorem Writes.not_opensWithComma (h : Writes true d ts) : ¬ OpensWithComma ts := by
  rintro ⟨before, o, after, rfl, ho⟩
  exact (List.isChain_append_cons_cons.1 h.isChain).2.1 ⟨ho, rfl⟩

theorem Writes.words_apart (h : Writes true d (ts ++ .word cs :: .word ds :: us)) : False :=
  (List.isChain_append_cons_cons.1 h.isChain).2.1

/-- Wherever `us` stands after the commas have been taken out, tokens with the property `P` stood
before. -/
def Restores (us : List Token) (P : List Token → Prop) : Prop :=
  ∀ ts rest, withoutTrailing ts = us ++ rest → ¬ OpensWithComma ts →
    ∃ vs ts', ts = vs ++ ts' ∧ P vs ∧ withoutTrailing ts' = rest

/-- The same of what stands between brackets. It may be empty only if no comma comes first. -/
def RestoresInner (us : List Token) (P : List Token → Prop) : Prop :=
  ∀ ts c rest, isClosing c → withoutTrailing ts = us ++ .mark c :: rest → ¬ OpensWithComma ts →
    (∀ ts', us = [] → ts ≠ .mark ',' :: ts') →
      ∃ vs ts', ts = vs ++ .mark c :: ts' ∧ P vs ∧ withoutTrailing ts' = rest

theorem first_kept (h : withoutTrailing ts = t :: us) (ht : closesTokens [t] = false) :
    ∃ ts', ts = t :: ts' ∧ withoutTrailing ts' = us := by
  obtain ⟨ts', hus, rfl | ⟨-, hcloses⟩⟩ := first_of_withoutTrailing h
  · exact ⟨ts', rfl, hus⟩
  · rw [ht] at hcloses
    cases hcloses

section Restores

variable {P Q : List Token → Prop}

theorem Restores.imp (h : Restores us P) (hPQ : ∀ vs, P vs → Q vs) : Restores us Q := by
  intro ts rest heq hopens
  obtain ⟨vs, ts', rfl, hvs, hrest⟩ := h ts rest heq hopens
  exact ⟨vs, ts', rfl, hPQ vs hvs, hrest⟩

theorem restores_token (ht : closesTokens [t] = false) (hP : P [t]) : Restores [t] P := by
  intro ts rest heq _
  obtain ⟨ts', rfl, hrest⟩ := first_kept heq ht
  exact ⟨[t], ts', rfl, hP, hrest⟩

theorem RestoresInner.brackets {o c : Char} (h : RestoresInner us P) (ho : isOpening o)
    (hkept : closesTokens [.mark o] = false) (hc : isClosing c)
    (hPQ : ∀ vs, P vs → Q (.mark o :: (vs ++ [.mark c]))) :
    Restores (.mark o :: (us ++ [.mark c])) Q := by
  intro ts rest heq hopens
  obtain ⟨inner, rfl, hinner⟩ := first_kept heq hkept
  rw [List.append_eq, List.append_assoc] at hinner
  have hopens' : ¬ OpensWithComma inner := fun h => hopens (h.append [_])
  have hfirst : ∀ ts', us = [] → inner ≠ .mark ',' :: ts' :=
    fun ts' _ hts => hopens ⟨[], o, ts', congrArg (_ :: ·) hts, ho⟩
  obtain ⟨vs, ts', rfl, hvs, hrest⟩ := h inner c rest hc hinner hopens' hfirst
  exact ⟨.mark o :: (vs ++ [.mark c]), ts', by rw [List.cons_append, ← List.append_cons],
    hPQ vs hvs, hrest⟩

end Restores

mutual

theorem Writes.restores {d : Document} {us : List Token} :
    Writes false d us → Restores us (Writes true d)
  | .word cs => restores_token rfl (.word cs)
  | .string cs => restores_token rfl (.string cs)
  | .array h => (WritesItems.restores h).brackets rfl rfl rfl fun _ => .array
  | .object h => (WritesItems.restores h).brackets rfl rfl rfl fun _ => .object

theorem WritesItem.restores {i : Item} {us : List Token} :
    WritesItem false i us → Restores us (WritesItem true i)
  | .element h => (Writes.restores h).imp fun _ => .element
  | .member h => by
    intro ts rest heq hopens
    obtain ⟨afterKey, rfl, hkey⟩ := first_kept heq rfl
    obtain ⟨afterColon, rfl, hcolon⟩ := first_kept hkey rfl
    obtain ⟨vs, ts', rfl, hvs, hrest⟩ :=
      Writes.restores h afterColon rest hcolon fun h => hopens (h.append [_, _])
    exact ⟨_, ts', rfl, .member hvs, hrest⟩

theorem WritesItems.restores {is : List Item} {us : List Token} :
    WritesItems false is us → RestoresInner us (WritesItems true is)
  | .nil => by
    intro ts c rest _ heq _ hfirst
    obtain ⟨ts', hrest, rfl | ⟨rfl, -⟩⟩ := first_of_withoutTrailing heq
    · exact ⟨[], ts', rfl, .nil, hrest⟩
    · exact absurd rfl (hfirst _ rfl)
  | .last h => by
    intro ts c rest _ heq hopens _
    obtain ⟨vs, afterItem, rfl, hvs, hitem⟩ := WritesItem.restores h ts _ heq hopens
    obtain ⟨ts', hrest, rfl | ⟨rfl, -⟩⟩ := first_of_withoutTrailing hitem
    · exact ⟨vs, ts', rfl, .last hvs, hrest⟩
    · exact ⟨vs ++ [.mark ','], ts', List.append_cons _ _ _, .trailing rfl hvs, hrest⟩
  | .cons h hs => by
    intro ts c rest hc heq hopens _
    rw [List.append_assoc] at heq
    obtain ⟨vs, afterItem, rfl, hvs, hitem⟩ := WritesItem.restores h ts _ heq hopens
    obtain ⟨items, rfl, hitems⟩ := first_kept hitem rfl
    have hopens' : ¬ OpensWithComma items :=
      fun h => hopens ((h.append [_]).append vs)
    obtain ⟨ws, ts', rfl, hws, hrest⟩ :=
      WritesItems.restores hs items c rest hc hitems hopens' fun _ hus => absurd hus hs.ne_nil
    exact ⟨vs ++ .mark ',' :: ws, ts', by simp, .cons hvs hws, hrest⟩

end

end ScriptToLua.Options
