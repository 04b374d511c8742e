/-!
Sets of characters as ranges of code points. One list of ranges lies within another if each of its
ranges does: `inRanges_of_covers`.
-/

namespace ScriptToLua.Text

/-- Whether the code point `n` lies in one of the ranges, which include both ends. -/
def inRanges (ranges : List (Nat × Nat)) (n : Nat) : Bool :=
  ranges.any fun r => r.1 ≤ n && n ≤ r.2

/-- Whether no range is empty and every range begins after the end of the one before it. -/
def isAscending : List (Nat × Nat) → Bool
  | [] => true
  | [r] => r.1 ≤ r.2
  | r :: s :: rest => r.1 ≤ r.2 && r.2 < s.1 && isAscending (s :: rest)

/-- Whether every range of `inner` lies within a range of `outer`. -/
def covers (outer inner : List (Nat × Nat)) : Bool :=
  inner.all fun r => outer.any fun s => s.1 ≤ r.1 && r.2 ≤ s.2

theorem inRanges_of_covers {outer inner : List (Nat × Nat)} {n : Nat} (h : covers outer inner)
    (hn : inRanges inner n) : inRanges outer n := by
  simp only [covers, inRanges, List.all_eq_true, List.any_eq_true, Bool.and_eq_true,
    decide_eq_true_eq] at h hn ⊢
  obtain ⟨r, hr, hlow, hhigh⟩ := hn
  obtain ⟨s, hs, hsl, hsh⟩ := h r hr
  exact ⟨s, hs, Nat.le_trans hsl hlow, Nat.le_trans hhigh hsh⟩

end ScriptToLua.Text
