import Mathlib
import ScriptToLua.Proofs.Types.Stability

/-!
Unions in their normal form. A list of types joins to a strictly increasing list of types that are no
unions, `TypeStore.joined`, and a union is the name of such a list: `joined_unionOf`. So joins of joins
are joins of all the parts.
-/

namespace ScriptToLua

open TypeStore

/-- The first id was handed out before the second. -/
def TypeId.Before (t u : TypeId) : Prop := t.index < u.index

instance : Std.Antisymm TypeId.Before := ⟨fun _ _ h h' => absurd h (Nat.lt_asymm h')⟩

instance : Std.Irrefl TypeId.Before := ⟨fun _ => Nat.lt_irrefl _⟩

theorem TypeId.before_or_eq {t u : TypeId} (h : ¬ t.index < u.index) : u.Before t ∨ t = u := by
  obtain ⟨i⟩ := t
  obtain ⟨j⟩ := u
  rcases Nat.lt_or_eq_of_le (Nat.not_lt.1 h) with hlt | rfl
  · exact .inl hlt
  · exact .inr rfl

section Sorting

variable {t u : TypeId} {ts : List TypeId}

theorem mem_insertId_iff : u ∈ insertId t ts ↔ u = t ∨ u ∈ ts := by
  induction ts with
  | nil => exact List.mem_singleton.trans (by simp)
  | cons v ts ih =>
    unfold insertId
    split
    · exact List.mem_cons
    · split
      · next h => simp [h]
      · rw [List.mem_cons, ih, List.mem_cons]
        exact or_left_comm

theorem insertId_increasing (h : ts.Pairwise TypeId.Before) :
    (insertId t ts).Pairwise TypeId.Before := by
  induction ts with
  | nil => exact List.pairwise_singleton _ t
  | cons v ts ih =>
    obtain ⟨hv, hts⟩ := List.pairwise_cons.1 h
    unfold insertId
    split
    · next hlt =>
      refine List.pairwise_cons.2 ⟨fun w hw => ?_, h⟩
      rcases List.mem_cons.1 hw with rfl | hw
      · exact hlt
      · exact Nat.lt_trans hlt (hv w hw)
    · next hlt =>
      split
      · exact h
      · next hne =>
        refine List.pairwise_cons.2 ⟨fun w hw => ?_, ih hts⟩
        rcases mem_insertId_iff.1 hw with rfl | hw
        · exact (TypeId.before_or_eq hlt).resolve_right hne
        · exact hv w hw

theorem mem_sortIds_iff : u ∈ sortIds ts ↔ u ∈ ts := by
  induction ts with
  | nil => exact Iff.rfl
  | cons t ts ih => exact mem_insertId_iff.trans ((or_congr_right ih).trans List.mem_cons.symm)

theorem sortIds_increasing (ts : List TypeId) : (sortIds ts).Pairwise TypeId.Before := by
  induction ts with
  | nil => exact .nil
  | cons t ts ih => exact insertId_increasing ih

end Sorting

namespace TypeStore

/-- What a list of types joins to: `any` or `unknown` if one of them absorbs the others, otherwise the
types in increasing order, with the members of unions in place of the unions and without `never`. -/
def joined (s : TypeStore) (ts : List TypeId) : List TypeId :=
  let flat := s.unionMembers ts
  if TypeId.any ∈ flat then [.any]
  else if TypeId.unknown ∈ flat then [.unknown]
  else sortIds (flat.filter (· ≠ .never))

variable {s s' : TypeStore} {t u : TypeId} {ts us ts' us' : List TypeId}

theorem unionMembers_append (s : TypeStore) (ts us : List TypeId) :
    s.unionMembers (ts ++ us) = s.unionMembers ts ++ s.unionMembers us := List.flatMap_append

theorem joined_increasing (s : TypeStore) (ts : List TypeId) :
    (s.joined ts).Pairwise TypeId.Before := by
  unfold joined
  dsimp only
  split
  · exact List.pairwise_singleton _ _
  · split
    · exact List.pairwise_singleton _ _
    · exact sortIds_increasing _

theorem mem_joined : u ∈ s.joined ts ↔
    if TypeId.any ∈ s.unionMembers ts then u = .any
    else if TypeId.unknown ∈ s.unionMembers ts then u = .unknown
    else u ∈ s.unionMembers ts ∧ u ≠ .never := by
  unfold joined
  dsimp only
  split
  · exact List.mem_singleton
  · split
    · exact List.mem_singleton
    · simp only [mem_sortIds_iff, List.mem_filter, decide_eq_true_eq]

theorem any_mem_joined : TypeId.any ∈ s.joined ts ↔ TypeId.any ∈ s.unionMembers ts := by
  rw [mem_joined]
  split
  · next h => exact iff_of_true rfl h
  · next h =>
    refine iff_of_false ?_ h
    split
    · nofun
    · exact fun hm => h hm.1

theorem unknown_mem_joined : TypeId.unknown ∈ s.joined ts ↔
    TypeId.unknown ∈ s.unionMembers ts ∧ TypeId.any ∉ s.unionMembers ts := by
  rw [mem_joined]
  split
  · next h => exact iff_of_false nofun fun hm => hm.2 h
  · next hany =>
    split
    · next h => exact iff_of_true rfl ⟨h, hany⟩
    · next h => exact iff_of_false (fun hm => h hm.1) fun hm => h hm.1

theorem never_not_mem_joined : TypeId.never ∉ s.joined ts := by
  rw [mem_joined]
  split
  · nofun
  · split
    · nofun
    · exact fun h => h.2 rfl

theorem joined_has (hs : s.WellFormed) (h : ∀ t ∈ ts, s.Has t) : ∀ u ∈ s.joined ts, s.Has u := by
  intro u hu
  rw [mem_joined] at hu
  split at hu
  · exact hs.has_intrinsic (hu ▸ rfl)
  · split at hu
    · exact hs.has_intrinsic (hu ▸ rfl)
    · exact unionMembers_has hs h u hu.1

theorem joined_ext (h : ∀ u, u ∈ s.joined ts ↔ u ∈ s'.joined us) : s.joined ts = s'.joined us :=
  (joined_increasing s ts).eq_of_mem_iff (joined_increasing s' us) h

/-- A join is decided by the joins of its parts. -/
theorem joined_append (ht : s.joined ts = s.joined ts') (hu : s.joined us = s.joined us') :
    s.joined (ts ++ us) = s.joined (ts' ++ us') := by
  apply joined_ext
  intro u
  have ht₁ : TypeId.any ∈ s.unionMembers ts ↔ TypeId.any ∈ s.unionMembers ts' := by
    rw [← any_mem_joined, ht, any_mem_joined]
  have hu₁ : TypeId.any ∈ s.unionMembers us ↔ TypeId.any ∈ s.unionMembers us' := by
    rw [← any_mem_joined, hu, any_mem_joined]
  have ht₂ : TypeId.unknown ∈ s.joined ts ↔ _ := unknown_mem_joined
  have hu₂ : TypeId.unknown ∈ s.joined us ↔ _ := unknown_mem_joined
  rw [ht, unknown_mem_joined] at ht₂
  rw [hu, unknown_mem_joined] at hu₂
  have ht₃ : u ∈ s.joined ts ↔ _ := mem_joined
  have hu₃ : u ∈ s.joined us ↔ _ := mem_joined
  rw [ht, mem_joined] at ht₃
  rw [hu, mem_joined] at hu₃
  rw [mem_joined, mem_joined, unionMembers_append, unionMembers_append]
  simp only [List.mem_append]
  grind

/-- The order of the types and repetitions do not matter. -/
theorem joined_congr (h : ∀ u, u ∈ ts ↔ u ∈ us) : s.joined ts = s.joined us := by
  have hflat : ∀ u, u ∈ s.unionMembers ts ↔ u ∈ s.unionMembers us := by
    intro u
    simp only [unionMembers, List.mem_flatMap, h]
  apply joined_ext
  intro u
  rw [mem_joined, mem_joined]
  simp only [hflat]

/-- The list is one that a union of the store may have. -/
structure NormalUnion (s : TypeStore) (members : List TypeId) : Prop where
  increasing : members.Pairwise TypeId.Before
  several : 2 ≤ members.length
  any : TypeId.any ∉ members
  unknown : TypeId.unknown ∉ members
  never : TypeId.never ∉ members
  flat : ∀ m ∈ members, ∀ ms, s.get? m ≠ some (.union ms)

/-- Equal types have one id, and unions are in their normal form. -/
structure Normal (s : TypeStore) : Prop where
  wellFormed : s.WellFormed
  distinct : ∀ t u d, s.get? t = some d → s.get? u = some d → t = u
  union : ∀ t members, s.get? t = some (.union members) → s.NormalUnion members

theorem unionMembers_singleton_of_union {members : List TypeId}
    (h : s.get? t = some (.union members)) : s.unionMembers [t] = members := by
  simp only [unionMembers, List.flatMap_cons, List.flatMap_nil, h, List.append_nil]

theorem unionMembers_singleton (h : ∀ members, s.get? t ≠ some (.union members)) :
    s.unionMembers [t] = [t] := by
  simp only [unionMembers, List.flatMap_cons, List.flatMap_nil, List.append_nil]

theorem Normal.joined_union (hs : s.Normal) {members : List TypeId}
    (h : s.get? t = some (.union members)) : s.joined [t] = members := by
  have hn := hs.union t members h
  refine (joined_increasing s [t]).eq_of_mem_iff hn.increasing fun u => ?_
  rw [mem_joined, unionMembers_singleton_of_union h, if_neg hn.any, if_neg hn.unknown]
  exact and_iff_left_of_imp fun hu hnever => hn.never (hnever ▸ hu)

theorem joined_other (h : ∀ members, s.get? t ≠ some (.union members)) (hn : t ≠ .never) :
    s.joined [t] = [t] := by
  refine (joined_increasing s [t]).eq_of_mem_iff (List.pairwise_singleton _ t) fun u => ?_
  rw [mem_joined, unionMembers_singleton h]
  simp only [List.mem_singleton]
  grind

theorem joined_never (h : ∀ members, s.get? .never ≠ some (.union members)) :
    s.joined [.never] = [] := by
  refine (joined_increasing s [.never]).eq_of_mem_iff .nil fun u => ?_
  rw [mem_joined, unionMembers_singleton h]
  simp [TypeId.any, TypeId.unknown, TypeId.never]

/-- Joins look at stored types only. -/
theorem Extends.joined (he : s.Extends s') (h : ∀ t ∈ ts, s.Has t) : s'.joined ts = s.joined ts := by
  have hflat : s'.unionMembers ts = s.unionMembers ts := by
    unfold unionMembers
    rw [List.flatMap_def, List.flatMap_def]
    congr 1
    exact List.map_congr_left fun t ht => by rw [he.get? (h t ht)]
  unfold TypeStore.joined
  rw [hflat]

theorem NormalUnion.extends_ (hn : s.NormalUnion ts) (he : s.Extends s') (h : ∀ t ∈ ts, s.Has t) :
    s'.NormalUnion ts :=
  { hn with flat := fun m hm ms => he.get? (h m hm) ▸ hn.flat m hm ms }

theorem Normal.get?_intrinsic (hs : s.Normal) {kind : Intrinsic}
    (h : initial.get? t = some (.intrinsic kind)) : s.get? t = some (.intrinsic kind) :=
  (hs.wellFormed.intrinsics.get? (has_of_get? h)).trans h

/-- What a join mentions is no union. -/
theorem Normal.flat_joined (hs : s.Normal) :
    ∀ m ∈ s.joined ts, ∀ ms, s.get? m ≠ some (.union ms) := by
  intro m hm ms h
  rw [mem_joined] at hm
  split at hm
  · cases (hs.get?_intrinsic rfl).symm.trans (hm ▸ h)
  · split at hm
    · cases (hs.get?_intrinsic rfl).symm.trans (hm ▸ h)
    · obtain ⟨t, -, ht⟩ := List.mem_flatMap.1 hm.1
      split at ht
      · next members hd => exact (hs.union t members hd).flat m ht ms h
      · next hne =>
        obtain rfl := List.mem_singleton.1 ht
        exact hne ms h

theorem Normal.normalUnion_joined (hs : s.Normal) (h : 2 ≤ (s.joined ts).length) :
    s.NormalUnion (s.joined ts) := by
  have hany : TypeId.any ∉ s.unionMembers ts := by
    intro hm
    simp only [TypeStore.joined, if_pos hm, List.length_singleton] at h
    omega
  have hunknown : TypeId.unknown ∉ s.unionMembers ts := by
    intro hm
    simp only [TypeStore.joined, if_neg hany, if_pos hm, List.length_singleton] at h
    omega
  refine ⟨joined_increasing s ts, h, ?_, ?_, ?_, hs.flat_joined⟩
  · exact fun hm => hany (any_mem_joined.1 hm)
  · exact fun hm => hunknown (unknown_mem_joined.1 hm).1
  · exact never_not_mem_joined

end TypeStore

section Naming

variable {s : TypeStore} {t e : TypeId} {ts : List TypeId} {d : TypeData}

/-- Data that is stored is found under its id. -/
theorem TypeStore.Normal.intern_eq (hs : s.Normal) (h : s.get? t = some d) : intern d s = (t, s) := by
  rcases intern_cases d s with ⟨u, hu, hrun⟩ | ⟨hnew, -⟩
  · rw [hrun, hs.distinct u t d hu h]
  · exact absurd h (hnew t)

/-- Storing a type that is no union, or a union in its normal form, keeps the store normal. -/
theorem TypeStore.Normal.normal_intern (hs : s.Normal) (hd : ∀ u ∈ d.mentions, s.Has u)
    (hu : ∀ members, d = .union members → s.NormalUnion members) : (intern d s).2.Normal := by
  obtain ⟨hw, he, -⟩ := intern_grows hs.wellFormed hd
  rcases intern_cases d s with ⟨t, -, hrun⟩ | ⟨hnew, hrun⟩
  · rw [hrun]
    exact hs
  · rw [hrun] at hw he ⊢
    refine ⟨hw, ?_, ?_⟩
    · intro t u d' ht hu
      rw [get?_push] at ht hu
      split at ht <;> split at hu
      · next ht' hu' => exact ht'.trans hu'.symm
      · exact absurd (Option.some.inj ht ▸ hu) (hnew u)
      · exact absurd (Option.some.inj hu ▸ ht) (hnew t)
      · exact hs.distinct t u d' ht hu
    · intro t members ht
      rw [get?_push] at ht
      split at ht
      · obtain rfl := Option.some.inj ht
        exact (hu members rfl).extends_ he hd
      · exact (hs.union t members ht).extends_ he (hs.wellFormed.closed t _ ht)

/-- The type that stands for a join. -/
def joinName : List TypeId → TypeM TypeId
  | [] => pure .never
  | [t] => pure t
  | members => intern (.union members)

theorem unionOf_eq_joinName (ts : List TypeId) (s : TypeStore) :
    unionOf ts s = joinName (s.joined ts) s := by
  unfold unionOf TypeStore.joined
  simp only [bind, StateT.bind, get, getThe, MonadStateOf.get, StateT.get, pure]
  split
  · rfl
  · split
    · rfl
    · generalize sortIds _ = members
      cases members with
      | nil => rfl
      | cons t rest => cases rest <;> rfl

variable (hs : s.Normal)

include hs

/-- A union is stored, and it joins to what its parts join to. -/
theorem TypeStore.Normal.joined_unionOf (ht : ∀ t ∈ ts, s.Has t) :
    (unionOf ts s).2.Normal ∧ (unionOf ts s).2.joined [(unionOf ts s).1] = s.joined ts := by
  have hnever : ∀ members, s.get? .never ≠ some (.union members) :=
    fun _ h => by cases (hs.get?_intrinsic rfl).symm.trans h
  rw [unionOf_eq_joinName]
  match hj : s.joined ts with
  | [] => exact ⟨hs, joined_never hnever⟩
  | [t] =>
    have hm : t ∈ s.joined ts := hj ▸ List.mem_cons_self
    have hne : t ≠ .never := fun h => never_not_mem_joined (h ▸ hm)
    exact ⟨hs, joined_other (hs.flat_joined t hm) hne⟩
  | t :: u :: rest =>
    have hn : s.NormalUnion (t :: u :: rest) := hj ▸ hs.normalUnion_joined (by simp [hj])
    have hhas : ∀ m ∈ t :: u :: rest, s.Has m := hj ▸ joined_has hs.wellFormed ht
    have hnormal := hs.normal_intern (d := .union (t :: u :: rest)) hhas (by rintro _ ⟨⟩; exact hn)
    exact ⟨hnormal, hnormal.joined_union (get?_intern _ s)⟩

/-- The type whose join is that of a list is the union of the list. -/
theorem TypeStore.Normal.unionOf_eq (he : s.joined [e] = s.joined ts) :
    unionOf ts s = (e, s) := by
  rw [unionOf_eq_joinName, ← he]
  by_cases hunion : ∃ members, s.get? e = some (.union members)
  · obtain ⟨members, hd⟩ := hunion
    rw [hs.joined_union hd]
    match members, (hs.union e members hd).several with
    | t :: u :: rest, _ => exact hs.intern_eq hd
  · have hne : ∀ members, s.get? e ≠ some (.union members) := fun members h => hunion ⟨members, h⟩
    by_cases hnever : e = .never
    · subst hnever
      rw [joined_never hne]
      rfl
    · rw [joined_other hne hnever]
      rfl

end Naming

end ScriptToLua
