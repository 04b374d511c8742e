import Mathlib
import ScriptToLua.Lowering.Statement
import ScriptToLua.Proofs.Lua.Name

/-!
When renaming keeps names apart. `recover` reads a Lua name back to a source name: it takes off the
mark of a keyword and decodes hexadecimal digits, as many as there are. Names that are read back to
themselves are kept apart, every other name shares its Lua name with the one that is read back
(`rename_hygienic`).
-/

namespace ScriptToLua.Lua

/-- A character that source names may hold and Lua names may not. -/
def isForeign (c : Char) : Bool := c = '$' || 128 ≤ c.toNat

def isSourceChar (c : Char) : Bool := isNameChar c || isForeign c

/-- Source characters of which the first is no digit. -/
def IsSourceName (x : String) : Prop :=
  (x.toList.head?.any fun c => !c.isDigit) ∧ x.toList.all isSourceChar

instance (x : String) : Decidable (IsSourceName x) := inferInstanceAs (Decidable (_ ∧ _))

/-- A digit that codes of characters are written with. -/
def isUpperHexDigit (c : Char) : Bool := c.isDigit || ('A' ≤ c && c ≤ 'F')

def hexDigitValue (c : Char) : Nat :=
  if c.isDigit then c.toNat - '0'.toNat else c.toNat - 'A'.toNat + 10

def hexValue (ds : List Char) : Nat := ds.foldl (fun n d => 16 * n + hexDigitValue d) 0

/-- The character that is written as an underscore and the given digits. -/
def encoded? (ds : List Char) : Option Char :=
  Option.guard (fun c => isForeign c && encodeChar c = '_' :: ds) (Char.ofNat (hexValue ds))

/-- Reads encoded characters back, after leaving out `skip` characters. -/
def decode : (skip : Nat) → List Char → List Char
  | _, [] => []
  | skip + 1, _ :: cs => decode skip cs
  | 0, c :: cs =>
    match if c = '_' then encoded? (cs.takeWhile isUpperHexDigit) else none with
    | some d => d :: decode (cs.takeWhile isUpperHexDigit).length cs
    | none => c :: decode 0 cs

/-- The source name that a Lua name is read back to. -/
def recover (y : String) : String :=
  match keywords.find? fun k => "____" ++ k = y with
  | some k => k
  | none => String.ofList (decode 0 y.toList)

theorem encoded?_eq_some {ds : List Char} {c : Char} (h : encoded? ds = some c) :
    isForeign c ∧ encodeChar c = '_' :: ds := by
  obtain ⟨rfl, hc⟩ := Option.guard_eq_some_iff.1 h
  simpa using hc

theorem isNameChar_of_isForeign {c : Char} (h : isForeign c) : isNameChar c = false := by
  rcases (by simpa [isForeign] using h : c = '$' ∨ 128 ≤ c.toNat) with rfl | h
  · decide
  · have hne : c ≠ '_' := by
      rintro rfl
      exact absurd h (by decide)
    have hlarge (n : UInt32) (hn : n.toNat < 128) : n < c.val := by
      rw [UInt32.lt_iff_toNat_lt]
      exact Nat.lt_of_lt_of_le hn h
    simp [isNameChar, Char.isAlphanum, Char.isAlpha, Char.isUpper, Char.isLower, Char.isDigit, hne,
      hlarge 90 (by decide), hlarge 122 (by decide), hlarge 57 (by decide)]

theorem drop_takeWhile_length (p : Char → Bool) (cs : List Char) :
    cs.drop (cs.takeWhile p).length = cs.dropWhile p := by
  induction cs with
  | nil => rfl
  | cons c cs ih =>
    by_cases hc : p c
    · simpa [hc] using ih
    · simp [hc]

theorem decode_skip (n : Nat) (cs : List Char) : decode n cs = decode 0 (cs.drop n) := by
  induction cs generalizing n with
  | nil => cases n <;> rfl
  | cons c cs ih =>
    cases n with
    | zero => rfl
    | succ n => exact ih n

/-- An underscore and a code are read as one character. -/
theorem decode_code {cs : List Char} {d : Char}
    (h : encoded? (cs.takeWhile isUpperHexDigit) = some d) :
    decode 0 ('_' :: cs) = d :: decode (cs.takeWhile isUpperHexDigit).length cs := by
  simp only [decode, if_true, h]

/-- Anything else is read as itself. -/
theorem decode_literal {c : Char} {cs : List Char}
    (h : c = '_' → encoded? (cs.takeWhile isUpperHexDigit) = none) :
    decode 0 (c :: cs) = c :: decode 0 cs := by
  by_cases hc : c = '_'
  · simp only [decode, if_pos hc, h hc]
  · simp only [decode, if_neg hc]

theorem decode_cons (c : Char) (cs : List Char) :
    (∃ d, c = '_' ∧ encoded? (cs.takeWhile isUpperHexDigit) = some d ∧
      decode 0 (c :: cs) = d :: decode (cs.takeWhile isUpperHexDigit).length cs) ∨
    decode 0 (c :: cs) = c :: decode 0 cs := by
  by_cases hc : c = '_'
  · subst hc
    cases hd : encoded? (cs.takeWhile isUpperHexDigit) with
    | some d => exact .inl ⟨d, rfl, rfl, decode_code hd⟩
    | none => exact .inr (decode_literal fun _ => hd)
  · exact .inr (decode_literal fun h => absurd h hc)

/-- What has been decoded is encoded to what was there. -/
theorem encode_decode {cs : List Char} (h : ∀ c ∈ cs, isNameChar c) (n : Nat) :
    (decode n cs).flatMap encodeChar = cs.drop n := by
  induction cs generalizing n with
  | nil => cases n <;> rfl
  | cons c cs ih =>
    have htail := ih fun d hd => h d (List.mem_cons_of_mem c hd)
    cases n with
    | succ n => exact htail n
    | zero =>
      obtain ⟨d, rfl, hd, he⟩ | he := decode_cons c cs
      · rw [he, List.flatMap_cons, (encoded?_eq_some hd).2, htail, drop_takeWhile_length,
          List.cons_append, List.takeWhile_append_dropWhile, List.drop_zero]
      · rw [he, List.flatMap_cons, htail, encodeChar, if_pos (h c List.mem_cons_self)]
        rfl

theorem mem_decode {cs : List Char} {n : Nat} {c : Char} (h : c ∈ decode n cs) :
    c ∈ cs ∨ isForeign c := by
  induction cs generalizing n with
  | nil => cases n <;> cases h
  | cons d cs ih =>
    cases n with
    | succ n => exact (ih h).imp_left (List.mem_cons_of_mem d)
    | zero =>
      obtain ⟨e, -, he, hdec⟩ | hdec := decode_cons d cs
      · rw [hdec] at h
        rcases List.mem_cons.1 h with rfl | h
        · exact .inr (encoded?_eq_some he).1
        · exact (ih h).imp_left (List.mem_cons_of_mem d)
      · rw [hdec] at h
        rcases List.mem_cons.1 h with rfl | h
        · exact .inl List.mem_cons_self
        · exact (ih h).imp_left (List.mem_cons_of_mem d)

theorem keyword_chars {k : String} (h : k ∈ keywords) :
    ∀ c ∈ k.toList, isNameChar c ∧ ¬(c.isDigit || c.isUpper) := by
  have hall : keywords.all fun k => k.toList.all fun c =>
      isNameChar c && !(c.isDigit || c.isUpper) := by decide
  intro c hc
  simpa using List.all_eq_true.1 (List.all_eq_true.1 hall k h) c hc

/-- No keyword begins with the mark of keywords. -/
theorem marked_ne_keyword {k : String} (h : k ∈ keywords) (x : String) : "____" ++ x ≠ k := by
  have hall : keywords.all fun k => k.toList.head? ≠ some '_' := by decide
  rintro rfl
  have hhead := List.all_eq_true.1 hall _ h
  rw [String.toList_append] at hhead
  exact absurd hhead (by simp)

theorem rename_keyword {k : String} (h : k ∈ keywords) : rename k = "____" ++ k :=
  if_pos (List.contains_iff_mem.2 h)

theorem rename_of_not_keyword {x : String} (h : x ∉ keywords) :
    rename x = String.ofList (x.toList.flatMap encodeChar) :=
  if_neg fun hx => h (List.contains_iff_mem.1 hx)

/-- Renamed names are written in characters of Lua names. -/
theorem isNameChar_rename {x : String} {c : Char} (h : c ∈ (rename x).toList) : isNameChar c := by
  by_cases hx : x ∈ keywords
  · rw [rename_keyword hx, String.toList_append] at h
    rcases List.mem_append.1 h with h | h
    · have hmark : "____".toList.all isNameChar := by decide
      exact List.all_eq_true.1 hmark c h
    · exact (keyword_chars hx c h).1
  · rw [rename_of_not_keyword hx, String.toList_ofList] at h
    obtain ⟨d, -, hd⟩ := List.mem_flatMap.1 h
    exact isNameChar_encodeChar hd

/-- No name becomes a keyword. -/
theorem rename_ne_keyword (x : String) {k : String} (h : k ∈ keywords) : rename x ≠ k := by
  intro hx
  have hxk : x = k :=
    eq_of_rename (fun c hc => (keyword_chars h c hc).2) (fun k' _ => marked_ne_keyword h k') hx
  rw [hxk, rename_keyword h] at hx
  exact marked_ne_keyword h k hx

theorem recover_cases (y : String) :
    (∃ k ∈ keywords, "____" ++ k = y ∧ recover y = k) ∨
      (∀ k ∈ keywords, "____" ++ k ≠ y) ∧ recover y = String.ofList (decode 0 y.toList) := by
  unfold recover
  cases hk : keywords.find? fun k => "____" ++ k = y with
  | some k =>
    exact .inl ⟨k, List.mem_of_find?_eq_some hk, by simpa using List.find?_some hk, rfl⟩
  | none => exact .inr ⟨fun k hmem => by simpa using List.find?_eq_none.1 hk k hmem, rfl⟩

/-- The name that is read back has the same Lua name. -/
theorem rename_recover (x : String) : rename (recover (rename x)) = rename x := by
  obtain ⟨k, hk, hx, he⟩ | ⟨-, he⟩ := recover_cases (rename x)
  · rw [he, rename_keyword hk, hx]
  · have henc : (decode 0 (rename x).toList).flatMap encodeChar = (rename x).toList :=
      encode_decode (fun c hc => isNameChar_rename hc) 0
    have hkey : String.ofList (decode 0 (rename x).toList) ∉ keywords := by
      intro hk
      -- A keyword is not encoded, so the Lua name would be the keyword itself.
      have hchars := keyword_chars hk
      rw [String.toList_ofList] at hchars
      rw [flatMap_encodeChar fun c hc => (hchars c hc).1] at henc
      rw [henc, String.ofList_toList] at hk
      exact rename_ne_keyword x hk rfl
    rw [he, rename_of_not_keyword hkey, String.toList_ofList, henc, String.ofList_toList]

/-- A source name that is read back from its Lua name. -/
def IsRecoverable (x : String) : Prop := recover (rename x) = x

instance (x : String) : Decidable (IsRecoverable x) := inferInstanceAs (Decidable (_ = _))

/-- A Lua name begins with no digit if the source name does not. -/
theorem head_rename {x : String} (hx : x ∉ keywords) (h : IsSourceName x) :
    ∃ c cs, (rename x).toList = c :: cs ∧ c.isDigit = false := by
  obtain ⟨c, hc, hdigit⟩ := (Option.any_eq_true _ _).1 h.1
  obtain ⟨cs, hcs⟩ := List.head?_eq_some_iff.1 hc
  rw [rename_of_not_keyword hx, String.toList_ofList, hcs, List.flatMap_cons, encodeChar]
  split
  · exact ⟨c, _, rfl, by simpa using hdigit⟩
  · exact ⟨'_', _, rfl, by decide⟩

theorem isDigit_of_isForeign {c : Char} (h : isForeign c) : c.isDigit = false := by
  have hname := isNameChar_of_isForeign h
  simp only [isNameChar, Char.isAlphanum, Bool.or_eq_false_iff] at hname
  exact hname.1.2

theorem IsSourceName.recover {x : String} (h : IsSourceName x) :
    IsSourceName (recover (rename x)) := by
  obtain ⟨k, hk, -, he⟩ | ⟨hno, he⟩ := recover_cases (rename x)
  · have hall : keywords.all fun k => IsSourceName k := by decide
    rw [he]
    simpa using List.all_eq_true.1 hall k hk
  · obtain ⟨c, cs, hcs, hdigit⟩ := head_rename (fun hx => hno x hx (rename_keyword hx).symm) h
    rw [he, IsSourceName, String.toList_ofList]
    refine ⟨?_, List.all_eq_true.2 fun d hd => ?_⟩
    · rw [hcs]
      obtain ⟨d, -, hd, hdec⟩ | hdec := decode_cons c cs
      · rw [hdec, List.head?_cons, Option.any_some, isDigit_of_isForeign (encoded?_eq_some hd).1]
        rfl
      · rw [hdec, List.head?_cons, Option.any_some, hdigit]
        rfl
    · rcases mem_decode hd with hd | hd
      · rw [isSourceChar, isNameChar_rename hd, Bool.true_or]
      · rw [isSourceChar, hd, Bool.or_true]

/-- A name without what could be read as the beginning of a code: after an underscore or an encoded
character there is no digit that codes are written with, and no keyword is marked by four
underscores. -/
structure IsPlain (x : String) : Prop where
  chars : x.toList.all isSourceChar
  apart : x.toList.IsChain fun c d => c = '_' ∨ isForeign c → isUpperHexDigit d = false
  unmarked : ∀ k ∈ keywords, "____" ++ k ≠ x

theorem hexValue_toDigits (n : Nat) : hexValue ((Nat.toDigits 16 n).map Char.toUpper) = n := by
  have hdigit : ∀ d < 16, hexDigitValue (Nat.digitChar d).toUpper = d := by decide
  induction n using Nat.strong_induction_on with
  | _ n ih =>
    rcases Nat.lt_or_ge n 16 with hlt | hge
    · rw [Nat.toDigits_of_lt_base hlt]
      simpa [hexValue] using hdigit n hlt
    · have hhigh := ih (n / 16) (Nat.div_lt_self (by omega) (by decide))
      unfold hexValue at hhigh ⊢
      rw [Nat.toDigits_of_base_le (by decide) hge, List.map_append, List.foldl_append, hhigh,
        List.map_singleton, List.foldl_cons, List.foldl_nil, hdigit _ (Nat.mod_lt n (by decide))]
      exact Nat.div_add_mod n 16

theorem encodeChar_foreign {c : Char} (h : isForeign c) :
    encodeChar c = '_' :: (Nat.toDigits 16 c.toNat).map Char.toUpper :=
  if_neg (ne_true_of_eq_false (isNameChar_of_isForeign h))

theorem encoded?_code {c : Char} (h : isForeign c) :
    encoded? ((Nat.toDigits 16 c.toNat).map Char.toUpper) = some c := by
  rw [encoded?, hexValue_toDigits, Char.ofNat_toNat, Option.guard_eq_some_iff]
  refine ⟨rfl, ?_⟩
  rw [h, Bool.true_and, decide_eq_true_eq]
  exact encodeChar_foreign h

theorem isHexDigit_of_mem_code {n : Nat} {d : Char}
    (h : d ∈ (Nat.toDigits 16 n).map Char.toUpper) : isUpperHexDigit d := by
  have hall : ∀ d < 16, isUpperHexDigit (Nat.digitChar d).toUpper := by decide
  obtain ⟨e, he, rfl⟩ := List.mem_map.1 h
  exact of_mem_toDigits (P := fun c => isUpperHexDigit c.toUpper) hall he

/-- Where no digit follows a code, its digits are all that is read. -/
theorem takeWhile_encoded {cs : List Char} (h : ∀ d ∈ cs.head?, isUpperHexDigit d = false) :
    (cs.flatMap encodeChar).takeWhile isUpperHexDigit = [] := by
  cases cs with
  | nil => rfl
  | cons d cs =>
    rw [List.flatMap_cons, encodeChar]
    split
    · exact List.takeWhile_cons_of_neg (ne_true_of_eq_false (h d rfl))
    · exact List.takeWhile_cons_of_neg (by decide)

theorem decode_encoded {cs : List Char} (hchars : ∀ c ∈ cs, isSourceChar c)
    (hapart : cs.IsChain fun c d => c = '_' ∨ isForeign c → isUpperHexDigit d = false) :
    decode 0 (cs.flatMap encodeChar) = cs := by
  induction cs with
  | nil => rfl
  | cons c cs ih =>
    have hrest := ih (fun d hd => hchars d (List.mem_cons_of_mem c hd)) hapart.tail
    have hnext (hc : c = '_' ∨ isForeign c) :
        (cs.flatMap encodeChar).takeWhile isUpperHexDigit = [] := by
      refine takeWhile_encoded fun d hd => ?_
      exact hapart.rel_head? hd hc
    rw [List.flatMap_cons]
    rcases Bool.or_eq_true_iff.1 (hchars c List.mem_cons_self) with hc | hc
    · rw [encodeChar, if_pos hc, List.singleton_append, decode_literal, hrest]
      intro hunder
      rw [hnext (.inl hunder)]
      decide
    · -- All digits of the code are read, and no more of them follow.
      have htake : ((Nat.toDigits 16 c.toNat).map Char.toUpper ++ cs.flatMap encodeChar).takeWhile
          isUpperHexDigit = (Nat.toDigits 16 c.toNat).map Char.toUpper := by
        rw [List.takeWhile_append_of_pos fun d hd => isHexDigit_of_mem_code hd, hnext (.inr hc),
          List.append_nil]
      rw [encodeChar_foreign hc, List.cons_append, decode_code (d := c), htake, decode_skip,
        List.drop_left, hrest]
      rw [htake]
      exact encoded?_code hc

/-- A Lua name without digits and capitals has no encoded characters. -/
theorem rename_eq_self {x : String} (hx : x ∉ keywords)
    (h : ∀ c ∈ (rename x).toList, ¬(c.isDigit || c.isUpper)) : rename x = x := by
  rw [rename_of_not_keyword hx, String.toList_ofList] at h
  have hchars : ∀ c ∈ x.toList, isNameChar c := by
    intro c hc
    by_contra hno
    obtain ⟨d, hd, hdigit⟩ := exists_encoded (Bool.eq_false_iff.2 hno)
    exact h d (List.mem_flatMap.2 ⟨c, hc, hd⟩) hdigit
  rw [rename_of_not_keyword hx, flatMap_encodeChar hchars, String.ofList_toList]

theorem IsPlain.isRecoverable {x : String} (h : IsPlain x) : IsRecoverable x := by
  obtain ⟨k, hk, hname, he⟩ | ⟨hno, he⟩ := recover_cases (rename x)
  · by_cases hx : x ∈ keywords
    · rw [rename_keyword hx] at hname
      exact he.trans ((String.append_right_inj _).1 hname)
    · refine absurd (hname.trans (rename_eq_self hx fun c hc => ?_)) (h.unmarked k hk)
      rw [← hname, String.toList_append] at hc
      rcases List.mem_append.1 hc with hc | hc
      · have hmark : "____".toList.all fun c => !(c.isDigit || c.isUpper) := by decide
        simpa using List.all_eq_true.1 hmark c hc
      · exact (keyword_chars hk c hc).2
  · have hx : x ∉ keywords := fun hx => hno x hx (rename_keyword hx).symm
    rw [IsRecoverable, he, rename_of_not_keyword hx, String.toList_ofList,
      decode_encoded (List.all_eq_true.1 h.chars) h.apart, String.ofList_toList]

end ScriptToLua.Lua

namespace ScriptToLua.Lowering

open Lua

/-- The names that lowered code binds or calls by itself. -/
def reservedNames : List String := [discardName, objectTemp, indexTemp, valueTemp, "tostring"]

/-- No other name becomes a reserved one. -/
theorem rename_eq_reserved_iff {r : String} (hr : r ∈ reservedNames) (x : String) :
    rename x = r ↔ x = r := by
  have hchars : reservedNames.all fun r => r.toList.all fun c => !(c.isDigit || c.isUpper) := by
    decide
  have hmarked : reservedNames.all fun r => keywords.all fun k => "____" ++ k ≠ r := by decide
  have hself : reservedNames.all fun r => rename r = r := by decide
  constructor
  · refine eq_of_rename (fun c hc => ?_) fun k hk => ?_
    · simpa using List.all_eq_true.1 (List.all_eq_true.1 hchars r hr) c hc
    · simpa using List.all_eq_true.1 (List.all_eq_true.1 hmarked r hr) k hk
  · rintro rfl
    simpa using List.all_eq_true.1 hself x hr

/-- Names that can be read back from their Lua names are kept apart. A name that cannot shares its Lua
name with another source name. Plain names can be read back. Only a reserved name becomes one. -/
theorem rename_hygienic {x : String} (hx : IsSourceName x) :
    (IsRecoverable x → ∀ y, IsRecoverable y → rename x = rename y → x = y) ∧
      (¬ IsRecoverable x → ∃ y, IsSourceName y ∧ y ≠ x ∧ rename y = rename x) ∧
      (IsPlain x → IsRecoverable x) ∧ (rename x ∈ reservedNames ↔ x ∈ reservedNames) := by
  refine ⟨fun hback y hy h => ?_, fun hno => ?_, fun hplain => hplain.isRecoverable, fun h => ?_,
    fun h => ?_⟩
  · exact hback.symm.trans ((congrArg recover h).trans hy)
  · exact ⟨recover (rename x), hx.recover, hno, rename_recover x⟩
  · exact (rename_eq_reserved_iff h x).1 rfl ▸ h
  · exact ((rename_eq_reserved_iff h x).2 rfl).symm ▸ h

theorem rename_hygienic_of_dollar :
    (IsSourceName "a$" ∧ IsRecoverable "a$" ∧ IsRecoverable "MAX_2" ∧
        (rename "a$" = rename "MAX_2" → "a$" = "MAX_2")) ∧
      (IsSourceName "a_24" ∧ ¬ IsRecoverable "a_24" ∧
        ∃ y, IsSourceName y ∧ y ≠ "a_24" ∧ rename y = rename "a_24") ∧
      (IsSourceName "été" ∧ IsPlain "été" ∧ IsRecoverable "été") ∧
      IsSourceName "tostring2" ∧ "tostring2" ∉ reservedNames ∧ rename "tostring2" ∉ reservedNames := by
  have ha : IsSourceName "a$" := by decide
  have hs : IsSourceName "a_24" := by decide
  have he : IsSourceName "été" := by decide
  have ht : IsSourceName "tostring2" := by decide
  have hback : IsRecoverable "a$" := by decide
  have hm : IsRecoverable "MAX_2" := by decide
  have hn : ¬ IsRecoverable "a_24" := by decide
  have hp : IsPlain "été" := ⟨by decide, by decide, by decide⟩
  have hr : "tostring2" ∉ reservedNames := by decide
  exact ⟨⟨ha, hback, hm, (rename_hygienic ha).1 hback _ hm⟩, ⟨hs, hn, (rename_hygienic hs).2.1 hn⟩,
    ⟨he, hp, (rename_hygienic he).2.2.1 hp⟩, ht, hr, mt (rename_hygienic ht).2.2.2.1 hr⟩

/-- Two pairs of source names with one Lua name each, and source names that become reserved ones. -/
theorem not_rename_hygienic :
    (IsSourceName "a$" ∧ IsSourceName "a_24" ∧ "a$" ≠ "a_24" ∧ rename "a$" = rename "a_24") ∧
      (IsSourceName "end" ∧ IsSourceName "____end" ∧ "end" ≠ "____end" ∧
        rename "end" = rename "____end") ∧
      (IsSourceName "tostring" ∧ rename "tostring" ∈ reservedNames) ∧
      IsSourceName "____value" ∧ rename "____value" ∈ reservedNames := by
  decide

end ScriptToLua.Lowering
