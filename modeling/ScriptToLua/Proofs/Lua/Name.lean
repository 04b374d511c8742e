import Mathlib
import ScriptToLua.Lua.Name

/-!
The characters of encoded names. Only characters that are no part of a Lua name bring digits and
capitals into a name, so a name without either is its own source name, `eq_of_rename`.
-/

namespace ScriptToLua.Lua

theorem of_mem_toDigits {P : Char → Prop} (h : ∀ d < 16, P (Nat.digitChar d)) {n : Nat} {c : Char}
    (hc : c ∈ Nat.toDigits 16 n) : P c := by
  have hcore (room n : Nat) (acc : List Char) (hacc : ∀ c ∈ acc, P c) :
      ∀ c ∈ Nat.toDigitsCore 16 room n acc, P c := by
    induction room generalizing n acc with
    | zero => exact hacc
    | succ room ih =>
      have hcons : ∀ c ∈ Nat.digitChar (n % 16) :: acc, P c :=
        List.forall_mem_cons.2 ⟨h _ (Nat.mod_lt n (by decide)), hacc⟩
      rw [Nat.toDigitsCore]
      split
      · exact hcons
      · exact ih _ _ hcons
  exact hcore _ _ _ (fun c hc => absurd hc List.not_mem_nil) c hc

theorem isNameChar_encodeChar {c d : Char} (h : d ∈ encodeChar c) : isNameChar d := by
  have hall : (List.range 16).all fun d => isNameChar (Nat.digitChar d).toUpper := by decide
  unfold encodeChar at h
  split at h
  · next hc => rwa [List.mem_singleton.1 h]
  · rcases List.mem_cons.1 h with rfl | h
    · decide
    · obtain ⟨e, he, rfl⟩ := List.mem_map.1 h
      exact of_mem_toDigits (P := fun c => isNameChar c.toUpper)
        (fun d hd => List.all_eq_true.1 hall d (List.mem_range.2 hd)) he

/-- Names of Lua are not encoded. -/
theorem flatMap_encodeChar {cs : List Char} (h : ∀ c ∈ cs, isNameChar c) :
    cs.flatMap encodeChar = cs := by
  induction cs with
  | nil => rfl
  | cons c cs ih =>
    rw [List.flatMap_cons, ih fun d hd => h d (List.mem_cons_of_mem c hd), encodeChar,
      if_pos (h c List.mem_cons_self), List.singleton_append]

/-- An encoded character shows by a digit or a capital. -/
theorem exists_encoded {c : Char} (h : isNameChar c = false) :
    ∃ d ∈ encodeChar c, d.isDigit || d.isUpper := by
  have hall : (List.range 16).all fun d =>
      (Nat.digitChar d).toUpper.isDigit || (Nat.digitChar d).toUpper.isUpper := by decide
  obtain ⟨e, he⟩ := List.exists_mem_of_ne_nil (Nat.toDigits 16 c.toNat) Nat.toDigits_ne_nil
  refine ⟨e.toUpper, ?_, ?_⟩
  · rw [encodeChar, if_neg (Bool.eq_false_iff.1 h)]
    exact List.mem_cons_of_mem _ (List.mem_map_of_mem he)
  · exact of_mem_toDigits (P := fun c => c.toUpper.isDigit || c.toUpper.isUpper)
      (fun d hd => List.all_eq_true.1 hall d (List.mem_range.2 hd)) he

/-- A Lua name without digits and capitals, and without a keyword behind four underscores, is the name
of itself only. -/
theorem eq_of_rename {x y : String} (hy : ∀ c ∈ y.toList, ¬(c.isDigit || c.isUpper))
    (hk : ∀ k ∈ keywords, "____" ++ k ≠ y) (h : rename x = y) : x = y := by
  unfold rename at h
  split at h
  · next hx => exact absurd h (hk x (List.contains_iff_mem.1 hx))
  · have hl : x.toList.flatMap encodeChar = y.toList := by rw [← h, String.toList_ofList]
    have hchars : ∀ c ∈ x.toList, isNameChar c := by
      intro c hc
      by_contra hno
      obtain ⟨d, hd, hdigit⟩ := exists_encoded (Bool.eq_false_iff.2 hno)
      exact hy d (hl ▸ List.mem_flatMap.2 ⟨c, hc, hd⟩) hdigit
    rw [flatMap_encodeChar hchars] at hl
    exact String.toList_injective hl

end ScriptToLua.Lua
