import Mathlib
import ScriptToLua.Proofs.Types.Groups
import ScriptToLua.Proofs.Types.Primitive

/-!
Whether the search for what a type is made of ever ends. It goes on to members and constraints,
`Asks`, and nothing keeps it from coming back to a type that it is already about, so it has an answer
just where no type that it meets is met again below itself, `isUnending_iff`. Types that mention only
ids handed out before them never do that, `Constructed.not_isUnending`.
-/

namespace ScriptToLua

open Relation (ReflTransGen TransGen)
open TypeStore

/-- The search about the first type goes on to the second: to a member of a union once the members
before it have turned out to be made of leaves with `p`, or to the constraint of a parameter. -/
inductive Asks (p : TypeData → Bool) (s : TypeStore) : TypeId → TypeId → Prop
  | member {t u : TypeId} {before after : List TypeId}
    (h : s.get? t = some (.union (before ++ u :: after)))
    (hb : ∀ m ∈ before, ∃ room, madeOfAt p s room m = some true) : Asks p s t u
  | constraint {t u : TypeId} {name : String} (h : s.get? t = some (.parameter name (some u))) :
    Asks p s t u

/-- Each search in the chain calls the next one, without end. -/
def IsUnending (p : TypeData → Bool) (s : TypeStore) (t : TypeId) : Prop :=
  ∃ chain : Nat → TypeId, chain 0 = t ∧ ∀ n, Asks p s (chain n) (chain (n + 1))

variable {p : TypeData → Bool} {s : TypeStore} {t u : TypeId} {room : Nat} {b : Bool}

section Answers

theorem madeOfAt_mono {more : Nat} (hle : room ≤ more) (h : madeOfAt p s room t = some b) :
    madeOfAt p s more t = some b := by
  induction more, hle using Nat.le_induction with
  | base => exact h
  | succ more _ ih => exact madeOfAt_succ ih

/-- Whatever the room, there is one answer. -/
theorem madeOfAt_unique {room' : Nat} {b' : Bool} (h : madeOfAt p s room t = some b)
    (h' : madeOfAt p s room' t = some b') : b = b' := by
  have hmax := madeOfAt_mono (Nat.le_max_left room room') h
  exact Option.some.inj (hmax.symm.trans (madeOfAt_mono (Nat.le_max_right room room') h'))

theorem madeOfAt_union {members : List TypeId} (h : s.get? t = some (.union members))
    (hne : members ≠ []) :
    madeOfAt p s (room + 1) t = members.allM (madeOfAt p s room) := by
  rw [madeOfAt, h]
  cases members with
  | nil => exact absurd rfl hne
  | cons m members => rfl

theorem madeOfAt_constraint {name : String} (h : s.get? t = some (.parameter name (some u))) :
    madeOfAt p s (room + 1) t = madeOfAt p s room u := by
  rw [madeOfAt, h]

/-- A list is settled when every element that is come to is. -/
theorem exists_allM {l : List TypeId}
    (h : ∀ before u after, l = before ++ u :: after →
      (∀ m ∈ before, ∃ room, madeOfAt p s room m = some true) →
        ∃ room b, madeOfAt p s room u = some b) :
    ∃ room b, l.allM (madeOfAt p s room) = some b := by
  induction l with
  | nil => exact ⟨0, true, rfl⟩
  | cons u l ih =>
    obtain ⟨room, b, hu⟩ := h [] u l rfl nofun
    cases b with
    | false => exact ⟨room, false, by rw [List.allM, hu]; rfl⟩
    | true =>
      obtain ⟨room', b, hl⟩ := ih fun before v after hl hb =>
        h (u :: before) v after (congrArg (u :: ·) hl) (List.forall_mem_cons.2 ⟨⟨room, hu⟩, hb⟩)
      refine ⟨max room room', b, ?_⟩
      rw [List.allM, madeOfAt_mono (Nat.le_max_left room room') hu]
      exact allM_mono (fun _ _ _ hc => madeOfAt_mono (Nat.le_max_right room room') hc) hl

/-- The elements that are come to in a settled list are settled. -/
theorem allM_reaches {f : TypeId → Option Bool} {before after : List TypeId}
    (h : (before ++ u :: after).allM f = some b) (hb : ∀ m ∈ before, f m ≠ some false) :
    ∃ b, f u = some b := by
  induction before with
  | nil =>
    rw [List.nil_append, List.allM] at h
    obtain ⟨c, hc, -⟩ := Option.bind_eq_some_iff.1 h
    exact ⟨c, hc⟩
  | cons m before ih =>
    rw [List.cons_append, List.allM] at h
    obtain ⟨c, hc, hrest⟩ := Option.bind_eq_some_iff.1 h
    cases c with
    | false => exact absurd hc (hb m List.mem_cons_self)
    | true => exact ih hrest fun n hn => hb n (List.mem_cons_of_mem m hn)

/-- A search has an answer when all that it calls have one. -/
theorem answers_of_asks (h : ∀ u, Asks p s t u → ∃ room b, madeOfAt p s room u = some b) :
    ∃ room b, madeOfAt p s room t = some b := by
  have hleaf (hd : ∀ room, (madeOfAt p s (room + 1) t).isSome) :
      ∃ room b, madeOfAt p s room t = some b := ⟨1, Option.isSome_iff_exists.1 (hd 0)⟩
  cases hd : s.get? t with
  | none => exact hleaf fun room => by rw [madeOfAt, hd]; rfl
  | some d =>
    cases d with
    | union members =>
      by_cases hne : members = []
      · exact hleaf fun room => by rw [madeOfAt, hd, hne]; rfl
      · obtain ⟨room, b, hall⟩ : ∃ room b, members.allM (madeOfAt p s room) = some b := by
          refine exists_allM fun before u after hl hb => ?_
          rw [hl] at hd
          exact h u (.member hd hb)
        exact ⟨room + 1, b, (madeOfAt_union hd hne).trans hall⟩
    | parameter name constraint =>
      cases constraint with
      | none => exact hleaf fun room => by rw [madeOfAt, hd]; rfl
      | some u =>
        obtain ⟨room, b, hu⟩ := h u (.constraint hd)
        exact ⟨room + 1, b, (madeOfAt_constraint hd).trans hu⟩
    | _ => exact hleaf fun room => by rw [madeOfAt, hd]; rfl

/-- What a search with an answer calls has one with less room. -/
theorem Asks.answers (ha : Asks p s t u) (h : madeOfAt p s (room + 1) t = some b) :
    ∃ b, madeOfAt p s room u = some b := by
  cases ha with
  | member hd hb =>
    rw [madeOfAt_union hd (by simp)] at h
    refine allM_reaches h fun m hm hfalse => ?_
    obtain ⟨_, htrue⟩ := hb m hm
    cases madeOfAt_unique htrue hfalse
  | constraint hd => exact ⟨b, (madeOfAt_constraint hd).symm.trans h⟩

end Answers

/-- A search has an answer just where it is well-founded. -/
theorem answers_iff_acc :
    (∃ room b, madeOfAt p s room t = some b) ↔ Acc (flip (Asks p s)) t := by
  constructor
  · rintro ⟨room, b, h⟩
    induction room generalizing t b with
    | zero => cases h
    | succ room ih =>
      refine ⟨t, fun u hu => ?_⟩
      obtain ⟨b, hb⟩ := Asks.answers hu h
      exact ih b hb
  · intro h
    induction h with
    | intro t _ ih => exact answers_of_asks ih

theorem answers_iff_not_isUnending :
    (∃ room b, madeOfAt p s room t = some b) ↔ ¬ IsUnending p s t := by
  rw [answers_iff_acc, acc_iff_isEmpty_descending_chain, isEmpty_subtype, IsUnending, not_exists]
  rfl

/-- As many levels as there are types are enough for every answer. -/
theorem isSome_madeOfAt_iff :
    (madeOfAt p s (s.size + 1) t).isSome ↔ ∃ room b, madeOfAt p s room t = some b := by
  rw [Option.isSome_iff_exists]
  refine ⟨fun ⟨b, h⟩ => ⟨_, b, h⟩, fun ⟨room, b, h⟩ => ⟨b, ?_⟩⟩
  have hmax := madeOfAt_mono (Nat.le_max_left room (s.size + 1)) h
  rwa [madeOfAt_eq_of_size_lt (by omega)] at hmax

theorem Asks.has (h : Asks p s t u) : s.Has t := by
  cases h with
  | member hd _ => exact has_of_get? hd
  | constraint hd => exact has_of_get? hd

/-- Only finitely many types are stored, so a chain without end comes back. -/
theorem exists_cycle_of_isUnending (h : IsUnending p s t) :
    ∃ u, ReflTransGen (Asks p s) t u ∧ TransGen (Asks p s) u u := by
  obtain ⟨chain, rfl, hchain⟩ := h
  have hstep (i k : Nat) : TransGen (Asks p s) (chain i) (chain (i + k + 1)) := by
    induction k with
    | zero => exact .single (hchain i)
    | succ k ih => exact ih.tail (hchain (i + k + 1))
  obtain ⟨i, j, hne, heq⟩ := Finite.exists_ne_map_eq_of_infinite
    fun n => (⟨(chain n).index, (hchain n).has⟩ : Fin s.size)
  have hloop : chain i = chain j := congrArg TypeId.mk (congrArg Fin.val heq)
  have hreach (n : Nat) : ReflTransGen (Asks p s) (chain 0) (chain n) := by
    cases n with
    | zero => exact .refl
    | succ n => simpa using (hstep 0 n).to_reflTransGen
  rcases Nat.lt_or_gt_of_ne hne with hlt | hlt
  · obtain ⟨k, rfl⟩ := Nat.exists_eq_add_of_lt hlt
    exact ⟨chain i, hreach i, hloop ▸ hstep i k⟩
  · obtain ⟨k, rfl⟩ := Nat.exists_eq_add_of_lt hlt
    exact ⟨chain j, hreach j, hloop ▸ hstep j k⟩

/-- Below a search with an answer nothing calls itself. -/
theorem not_transGen_of_answers (h : ∃ room b, madeOfAt p s room t = some b)
    (hr : ReflTransGen (Asks p s) t u) : ¬ TransGen (Asks p s) u u := by
  have hacc : Acc (flip (Asks p s)) u := by
    induction hr with
    | refl => exact answers_iff_acc.1 h
    | tail _ ha ih => exact ih.inv ha
  intro hloop
  have hflip : TransGen (flip (Asks p s)) u u := Relation.transGen_swap.1 hloop
  replace hacc := hacc.transGen
  clear hr hloop
  induction hacc with
  | intro u _ ih => exact ih u hflip hflip

/-- The search about a type goes on for ever just where it comes to a type that is below itself, and
has an answer everywhere else, within as many levels as there are types. -/
theorem isUnending_iff (p : TypeData → Bool) (s : TypeStore) (t : TypeId) :
    (IsUnending p s t ↔ ∃ u, ReflTransGen (Asks p s) t u ∧ TransGen (Asks p s) u u) ∧
      ((madeOfAt p s (s.size + 1) t).isSome ↔ ¬ IsUnending p s t) := by
  refine ⟨⟨exists_cycle_of_isUnending, ?_⟩, isSome_madeOfAt_iff.trans answers_iff_not_isUnending⟩
  rintro ⟨u, hr, hloop⟩
  by_contra hend
  exact not_transGen_of_answers (answers_iff_not_isUnending.2 hend) hr hloop

section Parameters

/-- The type parameter `T extends T`. -/
def selfStore : TypeStore := (intern (.parameter "T" (some ⟨7⟩)) .initial).2

/-- A union whose only member is the union itself. -/
def knotStore : TypeStore := (intern (.union [⟨7⟩]) .initial).2

theorem isUnending_selfStore (p : TypeData → Bool) : IsUnending p selfStore ⟨7⟩ := by
  have hself : selfStore.get? ⟨7⟩ = some (.parameter "T" (some ⟨7⟩)) := by decide +kernel
  exact ⟨fun _ => ⟨7⟩, rfl, fun _ => .constraint hself⟩

theorem isUnending_knotStore (p : TypeData → Bool) : IsUnending p knotStore ⟨7⟩ := by
  have hself : knotStore.get? ⟨7⟩ = some (.union ([] ++ [⟨7⟩])) := by decide +kernel
  exact ⟨fun _ => ⟨7⟩, rfl, fun _ => .member hself nofun⟩

/-- Both searches go round in the parameter and in the union, whose shapes are found at once. -/
theorem isUnending_of_self :
    IsUnending TypeData.isString selfStore ⟨7⟩ ∧ IsUnending TypeData.isNumber selfStore ⟨7⟩ ∧
      (shapeOf ⟨7⟩ selfStore).1.isArrayLike = false ∧
      IsUnending TypeData.isString knotStore ⟨7⟩ ∧ IsUnending TypeData.isNumber knotStore ⟨7⟩ ∧
      (shapeOf ⟨7⟩ knotStore).1.isArrayLike = false :=
  ⟨isUnending_selfStore _, isUnending_selfStore _, by decide +kernel, isUnending_knotStore _,
    isUnending_knotStore _, by decide +kernel⟩

end Parameters

section Constructors

/-- Every type mentions types that were stored before it only. -/
def TypeStore.LooksBack (s : TypeStore) : Prop :=
  ∀ t d, s.get? t = some d → ∀ u ∈ d.mentions, u.index < t.index

theorem TypeStore.LooksBack.wellFormed (h : s.LooksBack) (hi : initial.Extends s) : s.WellFormed where
  intrinsics := hi
  closed t d hd u hu := (h t d hd u hu).trans (has_of_get? hd)

theorem TypeStore.looksBack_of_mentions
    (h : ∀ e ∈ s.types.toList.zipIdx, ∀ u ∈ e.1.mentions, u.index < e.2) : s.LooksBack := by
  intro t d hd
  apply h (d, t.index)
  rw [List.mk_mem_zipIdx_iff_getElem?, Array.getElem?_toList]
  exact hd

theorem TypeStore.LooksBack.intern {d : TypeData} (h : s.LooksBack)
    (hd : ∀ u ∈ d.mentions, s.Has u) : (ScriptToLua.intern d s).2.LooksBack := by
  rcases intern_cases d s with ⟨t, -, hrun⟩ | ⟨-, hrun⟩
  · rw [hrun]
    exact h
  · rw [hrun]
    intro t d' ht u hu
    rw [get?_push] at ht
    split at ht
    · next heq =>
      obtain rfl := Option.some.inj ht
      exact heq ▸ hd u hu
    · exact h t d' ht u hu

theorem Constructed.looksBack (hs : Constructed s) : s.LooksBack := by
  induction hs with
  | initial =>
    intro t d h u hu
    have hm : d ∈ Intrinsic.all.map TypeData.intrinsic := by
      simpa only [TypeStore.initial, List.mem_toArray] using Array.mem_of_getElem? h
    obtain ⟨kind, -, rfl⟩ := List.mem_map.1 hm
    cases hu
  | stored _ hd _ ih => exact ih.intern hd
  | @union s ts hs ht ih =>
    have hhas := joined_has hs.normal.wellFormed ht
    rw [unionOf_eq_joinName]
    generalize s.joined ts = members at hhas
    rcases members with _ | ⟨t, _ | ⟨u, rest⟩⟩
    · exact ih
    · exact ih
    · exact ih.intern (d := .union (t :: u :: rest)) hhas
  | @intersection s ts hs ht ih =>
    have hhas := hs.canonical.met_has ht
    rw [intersectionOf_eq_meetName]
    generalize s.met ts = members at hhas
    rcases members with _ | ⟨t, _ | ⟨u, rest⟩⟩
    · exact ih
    · exact ih
    · exact ih.intern (d := .intersection (t :: u :: rest)) hhas

/-- Where types mention only types that were stored before them, each search ends. -/
theorem TypeStore.LooksBack.not_isUnending (hs : s.LooksBack) (p : TypeData → Bool) (t : TypeId) :
    ¬ IsUnending p s t := by
  have hdown {t u : TypeId} (ha : Asks p s t u) : u.index < t.index := by
    cases ha with
    | member hd _ => exact hs _ _ hd _ (List.mem_append_right _ List.mem_cons_self)
    | constraint hd => exact hs _ _ hd _ (List.mem_singleton_self _)
  rw [← answers_iff_not_isUnending, answers_iff_acc]
  exact Subrelation.accessible (fun ha => hdown ha) (InvImage.accessible _ (Nat.lt_wfRel.wf.apply _))

/-- Where every constructor is applied to ids that were handed out before, each search ends. -/
theorem Constructed.not_isUnending (hs : Constructed s) (p : TypeData → Bool) (t : TypeId) :
    ¬ IsUnending p s t := hs.looksBack.not_isUnending p t

end Constructors

end ScriptToLua
