import Mathlib
import ScriptToLua.Proofs.Lowering.WellFormed
import ScriptToLua.Proofs.Lua.IntegerNumeral
import ScriptToLua.Proofs.Lua.Name
import ScriptToLua.Proofs.Lua.Roundtrip

/-!
The text of a lowered chunk is read back as the statements of the chunk,
`parseChunk_printChunk_lowerFile`, unless a write whose target begins with a parenthesis follows a
statement that ends in something that could be called.
-/

namespace ScriptToLua

open Lua (Code Field Words isName isNameChar isNumeral)
open Source (Arena Node NodeId)

/-- A name of the source begins with a character, which is no digit. -/
def Source.isIdentifier (x : String) : Bool :=
  match x.toList with
  | [] => false
  | c :: _ => !c.isDigit

/-- What the nodes name are identifiers, and their numerals are such that Lua can write them. -/
def Source.Arena.Spelled (a : Arena) : Prop :=
  ∀ e ∈ a.entries.toList, (∀ x ∈ e.1.names, Source.isIdentifier x) ∧
    ∀ text ∈ e.1.numerals, isNumeral (Lowering.luaNumeral text).toList

instance (a : Arena) : Decidable a.Spelled := by unfold Source.Arena.Spelled; infer_instance

namespace Lua

section Names

theorem isName_of_chars {c : Char} {cs : List Char} (hd : c.isDigit = false)
    (h : ∀ d ∈ c :: cs, isNameChar d) (hk : isKeyword (String.ofList (c :: cs)) = false) :
    isName (String.ofList (c :: cs)) := by
  have hall : cs.all isNameChar := List.all_eq_true.2 fun d hd => h d (List.mem_cons_of_mem c hd)
  simp only [isName, String.toList_ofList, hd, hk, h c List.mem_cons_self, hall, Bool.not_false,
    Bool.and_self]

/-- No keyword has an underscore. -/
theorem isKeyword_of_underscore {cs : List Char} (h : '_' ∈ cs) :
    isKeyword (String.ofList cs) = false := by
  have hall : keywords.all fun k => !k.toList.contains '_' := by decide
  rw [Bool.eq_false_iff]
  intro hk
  have hno := List.all_eq_true.1 hall _ (List.contains_iff_mem.1 hk)
  rw [String.toList_ofList, Bool.not_eq_true', ← Bool.not_eq_true, List.contains_iff_mem] at hno
  exact hno h

theorem isKeyword_encoded {cs : List Char} (h : isKeyword (String.ofList cs) = false) :
    isKeyword (String.ofList (cs.flatMap encodeChar)) = false := by
  by_cases hall : ∀ c ∈ cs, isNameChar c
  · rwa [flatMap_encodeChar hall]
  · obtain ⟨c, hc⟩ := not_forall.1 hall
    obtain ⟨hmem, hno⟩ := Classical.not_imp.1 hc
    apply isKeyword_of_underscore
    refine List.mem_flatMap.2 ⟨c, hmem, ?_⟩
    rw [encodeChar, if_neg hno]
    exact List.mem_cons_self

/-- An identifier of the source becomes a name of Lua. -/
theorem isName_rename {x : String} (h : Source.isIdentifier x) : isName (rename x) := by
  unfold rename
  split
  · next hk =>
    have hall : keywords.all fun k => isName ("____" ++ k) := by decide
    exact List.all_eq_true.1 hall x (List.contains_iff_mem.1 hk)
  · next hk =>
    have hkey : isKeyword (String.ofList x.toList) = false := by
      rw [String.ofList_toList]
      exact Bool.eq_false_iff.2 hk
    unfold Source.isIdentifier at h
    split at h
    · cases h
    · next c cs hx =>
      rw [hx] at hkey ⊢
      have hchars : ∀ d ∈ (c :: cs).flatMap encodeChar, isNameChar d := fun d hd => by
        obtain ⟨e, -, he⟩ := List.mem_flatMap.1 hd
        exact isNameChar_encodeChar he
      have hcoded := isKeyword_encoded hkey
      obtain ⟨d, ds, hds, hdigit⟩ : ∃ d ds, encodeChar c = d :: ds ∧ d.isDigit = false := by
        unfold encodeChar
        split
        · exact ⟨c, [], rfl, by simpa using h⟩
        · exact ⟨'_', _, rfl, by decide⟩
      rw [List.flatMap_cons, hds, List.cons_append] at hchars hcoded ⊢
      exact isName_of_chars hdigit hchars hcoded

end Names

section Numerals

theorem isNumeral_of_digits {cs : List Char} (h : ∀ c ∈ cs, c.isDigit) (hne : cs ≠ []) :
    isNumeral cs := by
  have hhex : Numeral.hexDigits? cs = none := by
    unfold Numeral.hexDigits?
    split
    · exact absurd (h 'x' (by simp)) (by decide)
    · exact absurd (h 'X' (by simp)) (by decide)
    · rfl
  have htake : cs.takeWhile Char.isDigit = cs := List.takeWhile_eq_self_iff.2 h
  have hdrop : cs.dropWhile Char.isDigit = [] := List.dropWhile_eq_nil_iff.2 h
  simp [isNumeral, hhex, isMagnitude, htake, hdrop, hne, isExponent]

theorem isNumeral_toString (n : Nat) : isNumeral (toString n).toList :=
  isNumeral_of_digits (isDecimalOf_toString n).digits (isDecimalOf_toString n).ne_nil

/-- Lua has no numerals with a sign. -/
theorem IsSigned.not_isNumeral {text : String} {k : Int} (h : IsSigned text k) :
    ¬isNumeral text.toList := by
  cases h with
  | @hexadecimal mark ds _ hm h =>
    have hhex : Numeral.hexDigits? (mark ++ ds) = some ds := hexDigits?_eq_some_iff.2 ⟨mark, hm, rfl⟩
    have hsign : isHexDigit '-' = false ∧ isHexDigit '+' = false := by decide
    rw [String.toList_ofList, isNumeral, hhex]
    cases h with
    | plus => simp [isMagnitude, hsign]
    | minus => simp [isMagnitude, hsign]

theorem integerOf?_nonneg {text : String} {n : Int} (ht : isNumeral text.toList)
    (h : integerOf? text = some n) : 0 ≤ n := by
  rcases integerOf?_eq_some_iff.1 h with ⟨m, -, -, rfl⟩ | hs
  · exact Int.natCast_nonneg m
  · exact absurd ht hs.not_isNumeral

end Numerals

end Lua

namespace Lowering

theorem serves_lua : Serves .lua where
  added x hx := by
    have hall : addedNames.all isName := by decide
    exact List.all_eq_true.1 hall x hx
  method _ h := h
  one := Lua.isNumeral_toString 1
  index s h := by
    obtain ⟨n, -, rfl⟩ := isIndexText_iff.1 h
    exact Lua.isNumeral_toString n
  successor text n ht h := by
    obtain ⟨m, rfl⟩ := Int.eq_ofNat_of_zero_le (Lua.integerOf?_nonneg ht h)
    exact Lua.isNumeral_toString (m + 1)

theorem mem_of_get? {a : Arena} {id : NodeId} {n : Node} (hn : a.get? id = some n) :
    ∃ s, (n, s) ∈ a.entries.toList := by
  obtain ⟨⟨n', s⟩, he, rfl⟩ := Option.map_eq_some_iff.1 hn
  exact ⟨s, Array.mem_def.1 (Array.mem_of_getElem? he)⟩

theorem Covers.lua {a : Arena} (h : a.Spelled) : Covers .lua a :=
  { serves_lua with
    names := fun _ _ hn x hx => by
      obtain ⟨s, hs⟩ := mem_of_get? hn
      exact Lua.isName_rename ((h _ hs).1 x hx)
    numerals := fun _ _ hn text ht => by
      obtain ⟨s, hs⟩ := mem_of_get? hn
      exact (h _ hs).2 text ht }

end Lowering

/-- Where no write whose target begins with a parenthesis follows a statement that ends in something
that could be called, the text of a lowered chunk is read as its statements, those of all bodies
included, whatever the layout. -/
theorem parseChunk_printChunk_lowerFile (l : Lua.Layout) {arena : Arena} (hs : arena.Spelled)
    (root : NodeId) (store : TypeStore) (facts : TypeFacts) (fold : Bool)
    (ha : Code.BlockKeepsApart (lowerFile arena root store facts fold).1) :
    Lua.parseChunk (Lua.printChunk l (lowerFile arena root store facts fold).1) =
      some (Code.printedAll (lowerFile arena root store facts fold).1) :=
  Lua.parseChunk_printChunk_eq_printed l
    (lowerFile_isBlock (Lowering.Covers.lua hs) root store facts fold) ha

section CallThenWrite

/-- `f(); ({}).x = 1;`, with the call in a block if `apart` is set. -/
def callThenWrite (apart : Bool) : Arena :=
  ⟨#[(.identifier "f", ⟨0, 1⟩), (.call ⟨0⟩ [], ⟨0, 3⟩), (.expressionStatement ⟨1⟩, ⟨0, 4⟩),
    (.object [], ⟨6, 8⟩), (.parenthesized ⟨3⟩, ⟨5, 9⟩), (.property ⟨4⟩ "x", ⟨5, 11⟩),
    (.number "1", ⟨14, 15⟩), (.assign ⟨5⟩ .plain ⟨6⟩, ⟨5, 15⟩),
    (.expressionStatement ⟨7⟩, ⟨5, 16⟩), (.block [⟨2⟩], ⟨0, 4⟩),
    (.file "main.ts" [if apart then ⟨9⟩ else ⟨2⟩, ⟨8⟩], ⟨0, 16⟩)]⟩

def callThenWriteChunk (apart : Bool) : List Code :=
  (lowerFile (callThenWrite apart) ⟨10⟩ .initial .empty true).1

/-- The call. -/
def callF : Code := .perform (.call (.name "f") [])

/-- The write. -/
def writeX : Code := .store (.member (.table []) "x") (.number "1")

theorem parseChunk_printChunk_of_apart :
    (callThenWrite true).Spelled ∧ Code.BlockKeepsApart (callThenWriteChunk true) ∧
      Lua.parseChunk (Lua.printChunk {} (callThenWriteChunk true)) =
        some (Code.printedAll (callThenWriteChunk true)) := by
  have hs : (callThenWrite true).Spelled := by decide
  have hchunk : callThenWriteChunk true = [.block [callF], writeX] := by cbv
  have ha : Code.BlockKeepsApart (callThenWriteChunk true) := by
    rw [hchunk]
    simp [Code.BlockKeepsApart, Code.KeepsApart, Code.AllKeepApart, Field.AllKeepApart, callF, writeX,
      Code.store, Code.endsOpen]
  exact ⟨hs, ha, parseChunk_printChunk_lowerFile {} hs _ _ _ _ ha⟩

/-- The call and the write are read as one statement. -/
theorem parseChunk_printChunk_fuses :
    (callThenWrite false).Spelled ∧
      Lua.parseChunk (Lua.printChunk {} (callThenWriteChunk false)) ≠
        some (Code.printedAll (callThenWriteChunk false)) := by
  refine ⟨by decide, fun h => ?_⟩
  have hchunk : callThenWriteChunk false = [callF, writeX] := by cbv
  have htext : Lua.printChunk {} [callF, writeX] = "f()\n(\x7b\x7d).x = 1\n" := by cbv
  have hone : (Lua.parseChunk "f()\n(\x7b\x7d).x = 1\n").map List.length = some 1 := by cbv
  rw [hchunk, htext] at h
  rw [h] at hone
  cases hone

end CallThenWrite

end ScriptToLua
