import Mathlib
import ScriptToLua.Proofs.Types.Stability

/-!
Whether all values of a type are strings, or all are numbers, is settled within as many levels as
there are types. So it stays as it is while the store grows, `madeOf_extends`, and no type is both,
`isStringLike_of_isNumberLike`.
-/

namespace ScriptToLua

section AllM

variable {α : Type} {f g : α → Option Bool} {b : Bool} {l : List α}

/-- What is known of all elements stays known when more becomes known of each. -/
theorem allM_mono (h : ∀ a ∈ l, ∀ c, f a = some c → g a = some c) (hf : l.allM f = some b) :
    l.allM g = some b := by
  induction l with
  | nil => exact hf
  | cons a l ih =>
    rw [List.allM] at hf ⊢
    obtain ⟨c, hc, hrest⟩ := Option.bind_eq_some_iff.1 hf
    refine Option.bind_eq_some_iff.2 ⟨c, h a List.mem_cons_self c hc, ?_⟩
    cases c with
    | false => exact hrest
    | true => exact ih (fun d hd => h d (List.mem_cons_of_mem a hd)) hrest

theorem allM_congr (h : ∀ a ∈ l, f a = g a) : l.allM f = l.allM g := by
  induction l with
  | nil => rfl
  | cons a l ih =>
    rw [List.allM, List.allM, h a List.mem_cons_self,
      ih fun d hd => h d (List.mem_cons_of_mem a hd)]

theorem allM_head {a : α} (h : (a :: l).allM f = some true) : f a = some true := by
  rw [List.allM] at h
  obtain ⟨c, hc, hrest⟩ := Option.bind_eq_some_iff.1 h
  cases c with
  | false => cases hrest
  | true => exact hc

end AllM

variable {p q : TypeData → Bool} {s base : TypeStore} {t : TypeId} {room : Nat} {b : Bool}

/-- One level more gives the same answer. -/
theorem madeOfAt_succ (h : madeOfAt p s room t = some b) : madeOfAt p s (room + 1) t = some b := by
  induction room generalizing t b with
  | zero => cases h
  | succ room ih =>
    rw [madeOfAt] at h ⊢
    cases hd : s.get? t with
    | none => rwa [hd] at h
    | some d =>
      rw [hd] at h
      cases d with
      | union members =>
        cases members with
        | nil => exact h
        | cons u members => exact allM_mono (fun _ _ _ hc => ih hc) h
      | parameter name constraint =>
        cases constraint with
        | none => exact h
        | some u => exact ih h
      | _ => exact h

/-- The stored types about which there is an answer. -/
def settled (p : TypeData → Bool) (s : TypeStore) (room : Nat) : Finset Nat :=
  (Finset.range s.size).filter fun i => (madeOfAt p s room ⟨i⟩).isSome

theorem settled_subset (room : Nat) : settled p s room ⊆ settled p s (room + 1) := by
  intro i hi
  obtain ⟨hi, hsome⟩ := Finset.mem_filter.1 hi
  obtain ⟨b, hb⟩ := Option.isSome_iff_exists.1 hsome
  exact Finset.mem_filter.2 ⟨hi, Option.isSome_iff_exists.2 ⟨b, madeOfAt_succ hb⟩⟩

theorem settled_card_le (room : Nat) : (settled p s room).card ≤ s.size :=
  (Finset.card_filter_le _ _).trans (Finset.card_range s.size).le

/-- Where one level more settles no further type, it changes nothing. -/
theorem madeOfAt_of_settled (h : settled p s (room + 1) = settled p s (room + 2)) :
    madeOfAt p s (room + 1) = madeOfAt p s (room + 2) := by
  funext t
  cases hd : madeOfAt p s (room + 1) t with
  | some b => exact (madeOfAt_succ hd).symm
  | none =>
    by_contra hne
    obtain ⟨b, hb⟩ := Option.ne_none_iff_exists'.1 (Ne.symm hne)
    have hstored : t.index < s.size := by
      by_contra hout
      have hget : s.get? t = none := Array.getElem?_eq_none (Nat.not_lt.1 hout)
      rw [madeOfAt, hget] at hd
      cases hd
    have hmem : t.index ∈ settled p s (room + 1) := by
      rw [h]
      exact Finset.mem_filter.2
        ⟨Finset.mem_range.2 hstored, Option.isSome_iff_exists.2 ⟨b, hb⟩⟩
    have hsome : (madeOfAt p s (room + 1) t).isSome := (Finset.mem_filter.1 hmem).2
    rw [hd] at hsome
    cases hsome

theorem madeOfAt_step (h : madeOfAt p s room = madeOfAt p s (room + 1)) :
    madeOfAt p s (room + 1) = madeOfAt p s (room + 2) := by
  funext t
  rw [madeOfAt, madeOfAt, ← h]

/-- As many levels as there are types settle all that can be settled. -/
theorem madeOfAt_eq_of_size_lt (h : s.size < room) :
    madeOfAt p s room = madeOfAt p s (s.size + 1) := by
  have hmono : Monotone fun n => (settled p s (n + 1)).card :=
    monotone_nat_of_le_succ fun n => Finset.card_le_card (settled_subset (n + 1))
  have heq (n : Nat) (hc : (settled p s (n + 1)).card = (settled p s (n + 2)).card) :
      settled p s (n + 1) = settled p s (n + 2) :=
    Finset.eq_of_subset_of_card_le (settled_subset (n + 1)) hc.ge
  have hstable (n : Nat) (hn : s.size ≤ n) :
      (settled p s (n + 1)).card = (settled p s (s.size + 1)).card := by
    apply Nat.stabilises_of_monotone hmono (fun n => settled_card_le (n + 1)) ?_ hn
    intro m hm
    have hstep := madeOfAt_step (madeOfAt_of_settled (heq m hm))
    change (settled p s (m + 2)).card = (settled p s (m + 3)).card
    simp only [settled, hstep]
  obtain ⟨n, rfl⟩ : ∃ n, room = n + 1 := ⟨room - 1, by omega⟩
  have hn : s.size ≤ n := Nat.lt_succ_iff.1 h
  clear h
  induction n, hn using Nat.le_induction with
  | base => rfl
  | succ n hn ih =>
    have hcard := (hstable n hn).trans (hstable (n + 1) (Nat.le_succ_of_le hn)).symm
    rw [← madeOfAt_of_settled (heq n hcard), ih]

/-- With the same levels a store says the same of a type as any later one. -/
theorem madeOfAt_extends (hw : base.WellFormed) (he : base.Extends s) (ht : base.Has t)
    (room : Nat) : madeOfAt p s room t = madeOfAt p base room t := by
  induction room generalizing t with
  | zero => rfl
  | succ room ih =>
    rw [madeOfAt, madeOfAt, he.get? ht]
    cases hd : base.get? t with
    | none => rfl
    | some d =>
      have hm := hw.closed t d hd
      cases d with
      | union members =>
        cases members with
        | nil => rfl
        | cons u members => exact allM_congr fun u hu => ih (hm u hu)
      | parameter name constraint =>
        cases constraint with
        | none => rfl
        | some u => exact ih (hm u List.mem_cons_self)
      | _ => rfl

theorem madeOf_extends (hw : base.WellFormed) (he : base.Extends s) (ht : base.Has t) :
    madeOf p s t = madeOf p base t := by
  have hsize : base.size < s.size + 1 := by
    obtain ⟨added, hadded⟩ := he
    rw [TypeStore.size, TypeStore.size, hadded, Array.size_append]
    omega
  rw [madeOf, madeOf, madeOfAt_extends hw he ht, madeOfAt_eq_of_size_lt hsize]

theorem TypeStore.Extends.isStringLike (he : base.Extends s) (hw : base.WellFormed)
    (ht : base.Has t) : s.isStringLike t = base.isStringLike t := madeOf_extends hw he ht

theorem TypeStore.Extends.isNumberLike (he : base.Extends s) (hw : base.WellFormed)
    (ht : base.Has t) : s.isNumberLike t = base.isNumberLike t := madeOf_extends hw he ht

/-- A type that is made of two kinds of types has a part of both kinds. -/
theorem exists_of_madeOfAt (hp : madeOfAt p s room t = some true)
    (hq : madeOfAt q s room t = some true) : ∃ d, p d ∧ q d := by
  induction room generalizing t with
  | zero => cases hp
  | succ room ih =>
    rw [madeOfAt] at hp hq
    cases hd : s.get? t with
    | none =>
      rw [hd] at hp
      cases hp
    | some d =>
      rw [hd] at hp hq
      have hleaf (hp : some (p d) = some true) (hq : some (q d) = some true) : ∃ d, p d ∧ q d :=
        ⟨d, Option.some.inj hp, Option.some.inj hq⟩
      cases d with
      | union members =>
        cases members with
        | nil => cases hp
        | cons u members => exact ih (allM_head hp) (allM_head hq)
      | parameter name constraint =>
        cases constraint with
        | none => exact hleaf hp hq
        | some u => exact ih hp hq
      | _ => exact hleaf hp hq

theorem madeOfAt_of_madeOf (h : madeOf p s t) : madeOfAt p s (s.size + 1) t = some true := by
  unfold madeOf at h
  cases hb : madeOfAt p s (s.size + 1) t with
  | none =>
    rw [hb] at h
    cases h
  | some b =>
    rw [hb] at h
    exact congrArg some h

theorem isStringLike_of_isNumberLike (h : s.isNumberLike t) : s.isStringLike t = false := by
  rw [Bool.eq_false_iff]
  intro hs
  obtain ⟨d, hstring, hnumber⟩ := exists_of_madeOfAt (madeOfAt_of_madeOf hs) (madeOfAt_of_madeOf h)
  cases d with
  | intrinsic kind =>
    obtain rfl : kind = .string := by cases kind <;> first | rfl | cases hstring
    cases hnumber
  | stringLiteral value => cases hnumber
  | _ => cases hstring

end ScriptToLua
