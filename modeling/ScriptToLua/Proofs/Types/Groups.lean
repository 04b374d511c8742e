import Mathlib
import ScriptToLua.Proofs.Types.Elements

/-!
Intersections in their normal form, and the algebra of groups. As a list of types joins to the members
of a union, it meets to those of an intersection, `TypeStore.met`. Flattening goes one level deep; that
is enough because every stored group is flat already: `Constructed.groups_canonical`.
-/

namespace ScriptToLua

open TypeStore

namespace TypeStore

/-- What a list of types meets to: `never` if it absorbs the others, otherwise the types in increasing
order, with the members of intersections in place of the intersections. -/
def met (s : TypeStore) (ts : List TypeId) : List TypeId :=
  let flat := s.intersectionMembers ts
  if TypeId.never ∈ flat then [.never] else sortIds flat

variable {s s' : TypeStore} {t u : TypeId} {d : TypeData} {ts us ts' us' members : List TypeId}

theorem intersectionMembers_append (s : TypeStore) (ts us : List TypeId) :
    s.intersectionMembers (ts ++ us) = s.intersectionMembers ts ++ s.intersectionMembers us :=
  List.flatMap_append

theorem met_increasing (s : TypeStore) (ts : List TypeId) : (s.met ts).Pairwise TypeId.Before := by
  unfold met
  dsimp only
  split
  · exact List.pairwise_singleton _ _
  · exact sortIds_increasing _

theorem mem_met : u ∈ s.met ts ↔
    if TypeId.never ∈ s.intersectionMembers ts then u = .never
    else u ∈ s.intersectionMembers ts := by
  unfold met
  dsimp only
  split
  · exact List.mem_singleton
  · exact mem_sortIds_iff

theorem never_mem_met : TypeId.never ∈ s.met ts ↔ TypeId.never ∈ s.intersectionMembers ts := by
  rw [mem_met]
  split
  · next h => exact iff_of_true rfl h
  · exact Iff.rfl

theorem met_ext (h : ∀ u, u ∈ s.met ts ↔ u ∈ s'.met us) : s.met ts = s'.met us :=
  (met_increasing s ts).eq_of_mem_iff (met_increasing s' us) h

/-- A meet is decided by the meets of its parts. -/
theorem met_append (ht : s.met ts = s.met ts') (hu : s.met us = s.met us') :
    s.met (ts ++ us) = s.met (ts' ++ us') := by
  apply met_ext
  intro u
  have ht₁ : TypeId.never ∈ s.intersectionMembers ts ↔ _ := never_mem_met.symm
  have hu₁ : TypeId.never ∈ s.intersectionMembers us ↔ _ := never_mem_met.symm
  rw [ht, never_mem_met] at ht₁
  rw [hu, never_mem_met] at hu₁
  have ht₂ : u ∈ s.met ts ↔ _ := mem_met
  have hu₂ : u ∈ s.met us ↔ _ := mem_met
  rw [ht, mem_met] at ht₂
  rw [hu, mem_met] at hu₂
  rw [mem_met, mem_met, intersectionMembers_append, intersectionMembers_append]
  simp only [List.mem_append]
  grind

/-- The order of the types and repetitions do not matter. -/
theorem met_congr (h : ∀ u, u ∈ ts ↔ u ∈ us) : s.met ts = s.met us := by
  have hflat : ∀ u, u ∈ s.intersectionMembers ts ↔ u ∈ s.intersectionMembers us := by
    intro u
    simp only [intersectionMembers, List.mem_flatMap, h]
  apply met_ext
  intro u
  rw [mem_met, mem_met]
  simp only [hflat]

/-- The list is one that an intersection of the store may have. -/
structure NormalIntersection (s : TypeStore) (members : List TypeId) : Prop where
  increasing : members.Pairwise TypeId.Before
  several : 2 ≤ members.length
  never : TypeId.never ∉ members
  flat : ∀ m ∈ members, ∀ ms, s.get? m ≠ some (.intersection ms)

/-- Unions and intersections are in their normal form. -/
structure Canonical (s : TypeStore) : Prop extends s.Normal where
  intersection : ∀ t members, s.get? t = some (.intersection members) → s.NormalIntersection members

/-- Meets look at stored types only. -/
theorem Extends.met (he : s.Extends s') (h : ∀ t ∈ ts, s.Has t) : s'.met ts = s.met ts := by
  have hflat : s'.intersectionMembers ts = s.intersectionMembers ts := by
    unfold intersectionMembers
    rw [List.flatMap_def, List.flatMap_def]
    congr 1
    exact List.map_congr_left fun t ht => by rw [he.get? (h t ht)]
  unfold TypeStore.met
  rw [hflat]

theorem NormalIntersection.extends_ (hn : s.NormalIntersection ts) (he : s.Extends s')
    (h : ∀ t ∈ ts, s.Has t) : s'.NormalIntersection ts :=
  { hn with flat := fun m hm ms => he.get? (h m hm) ▸ hn.flat m hm ms }

theorem intersectionMembers_singleton_of_intersection (h : s.get? t = some (.intersection members)) :
    s.intersectionMembers [t] = members := by
  simp only [intersectionMembers, List.flatMap_cons, List.flatMap_nil, h, List.append_nil]

theorem intersectionMembers_singleton (h : ∀ members, s.get? t ≠ some (.intersection members)) :
    s.intersectionMembers [t] = [t] := by
  simp only [intersectionMembers, List.flatMap_cons, List.flatMap_nil, List.append_nil]

theorem met_other (h : ∀ members, s.get? t ≠ some (.intersection members)) : s.met [t] = [t] := by
  refine (met_increasing s [t]).eq_of_mem_iff (List.pairwise_singleton _ t) fun u => ?_
  rw [mem_met, intersectionMembers_singleton h]
  simp only [List.mem_singleton]
  split
  · next hn => rw [hn]
  · rfl

section Flat

variable (hs : s.Canonical)

include hs

theorem Canonical.met_intersection (h : s.get? t = some (.intersection members)) :
    s.met [t] = members := by
  have hn := hs.intersection t members h
  refine (met_increasing s [t]).eq_of_mem_iff hn.increasing fun u => ?_
  rw [mem_met, intersectionMembers_singleton_of_intersection h, if_neg hn.never]

/-- What a meet mentions is no intersection. -/
theorem Canonical.flat_met : ∀ m ∈ s.met ts, ∀ ms, s.get? m ≠ some (.intersection ms) := by
  intro m hm ms h
  rw [mem_met] at hm
  split at hm
  · cases (hs.get?_intrinsic rfl).symm.trans (hm ▸ h)
  · obtain ⟨t, -, ht⟩ := List.mem_flatMap.1 hm
    split at ht
    · next members hd => exact (hs.intersection t members hd).flat m ht ms h
    · next hne =>
      obtain rfl := List.mem_singleton.1 ht
      exact hne ms h

/-- Types meet to types: intersections have members, so they leave some. -/
theorem Canonical.met_ne_nil (hts : ts ≠ []) : s.met ts ≠ [] := by
  obtain ⟨t, ht⟩ := List.exists_mem_of_ne_nil ts hts
  obtain ⟨m, hm⟩ : ∃ m, m ∈ s.intersectionMembers ts := by
    by_cases hd : ∃ members, s.get? t = some (.intersection members)
    · obtain ⟨members, hd⟩ := hd
      have hne := List.ne_nil_of_length_pos
        (Nat.lt_of_lt_of_le Nat.zero_lt_two (hs.intersection t members hd).several)
      obtain ⟨m, hm⟩ := List.exists_mem_of_ne_nil members hne
      exact ⟨m, List.mem_flatMap.2 ⟨t, ht, by rw [hd]; exact hm⟩⟩
    · refine ⟨t, List.mem_flatMap.2 ⟨t, ht, ?_⟩⟩
      split
      · next members h => exact absurd ⟨members, h⟩ hd
      · exact List.mem_singleton_self t
  by_cases hnever : TypeId.never ∈ s.intersectionMembers ts
  · exact List.ne_nil_of_mem (mem_met.2 (by rw [if_pos hnever]))
  · exact List.ne_nil_of_mem (mem_met.2 (by rw [if_neg hnever]; exact hm))

theorem Canonical.met_has (h : ∀ t ∈ ts, s.Has t) : ∀ u ∈ s.met ts, s.Has u := by
  intro u hu
  rw [mem_met] at hu
  split at hu
  · exact hs.wellFormed.has_intrinsic (hu ▸ rfl)
  · obtain ⟨t, htm, hu⟩ := List.mem_flatMap.1 hu
    split at hu
    · next members hd => exact hs.wellFormed.closed t _ hd u hu
    · exact List.mem_singleton.1 hu ▸ h t htm

theorem Canonical.normalIntersection_met (h : 2 ≤ (s.met ts).length) :
    s.NormalIntersection (s.met ts) := by
  refine ⟨met_increasing s ts, h, fun hm => ?_, hs.flat_met⟩
  simp only [TypeStore.met, if_pos (never_mem_met.1 hm), List.length_singleton] at h
  omega

/-- Storing a group in its normal form, or a type that is no group, keeps the store canonical. -/
theorem Canonical.canonical_intern (hd : ∀ u ∈ d.mentions, s.Has u)
    (hu : ∀ members, d = .union members → s.NormalUnion members)
    (hi : ∀ members, d = .intersection members → s.NormalIntersection members) :
    (intern d s).2.Canonical := by
  refine ⟨hs.normal_intern hd hu, fun t members ht => ?_⟩
  obtain ⟨-, he, -⟩ := intern_grows hs.wellFormed hd
  rcases intern_cases d s with ⟨v, -, hrun⟩ | ⟨-, hrun⟩
  · rw [hrun] at ht ⊢
    exact hs.intersection t members ht
  -- A member that is no intersection now does not become one.
  · rw [hrun] at ht he ⊢
    rw [get?_push] at ht
    split at ht
    · obtain rfl := Option.some.inj ht
      exact (hi members rfl).extends_ he hd
    · exact (hs.intersection t members ht).extends_ he (hs.wellFormed.closed t _ ht)

theorem Canonical.canonical_unionOf (ht : ∀ t ∈ ts, s.Has t) : (unionOf ts s).2.Canonical := by
  rw [unionOf_eq_joinName]
  match hj : s.joined ts with
  | [] => exact hs
  | [t] => exact hs
  | t :: u :: rest =>
    have hn : s.NormalUnion (t :: u :: rest) := hj ▸ hs.normalUnion_joined (by simp [hj])
    have hhas : ∀ m ∈ t :: u :: rest, s.Has m := hj ▸ joined_has hs.wellFormed ht
    exact hs.canonical_intern (d := .union (t :: u :: rest)) hhas (by rintro _ ⟨⟩; exact hn) nofun

end Flat

end TypeStore

section Naming

variable {s : TypeStore} {t e : TypeId} {ts : List TypeId}

/-- The type that stands for a meet. -/
def meetName : List TypeId → TypeM TypeId
  | [] => pure .unknown
  | [t] => pure t
  | members => intern (.intersection members)

theorem intersectionOf_eq_meetName (ts : List TypeId) (s : TypeStore) :
    intersectionOf ts s = meetName (s.met ts) s := by
  unfold intersectionOf TypeStore.met
  simp only [bind, StateT.bind, get, getThe, MonadStateOf.get, StateT.get, pure]
  split
  · rfl
  · generalize sortIds _ = members
    cases members with
    | nil => rfl
    | cons t rest => cases rest <;> rfl

variable (hs : s.Canonical)

include hs

/-- An intersection is stored in its normal form. -/
theorem TypeStore.Canonical.canonical_intersectionOf (ht : ∀ t ∈ ts, s.Has t) :
    (intersectionOf ts s).2.Canonical := by
  rw [intersectionOf_eq_meetName]
  match hm : s.met ts with
  | [] => exact hs
  | [t] => exact hs
  | t :: u :: rest =>
    have hn : s.NormalIntersection (t :: u :: rest) := hm ▸ hs.normalIntersection_met (by simp [hm])
    have hhas : ∀ m ∈ t :: u :: rest, s.Has m := hm ▸ hs.met_has ht
    exact hs.canonical_intern (d := .intersection (t :: u :: rest)) hhas nofun
      (by rintro _ ⟨⟩; exact hn)

theorem TypeStore.Canonical.intersectionOf_grows (ht : ∀ t ∈ ts, s.Has t) :
    Grows s Has (intersectionOf ts) := by
  unfold Grows
  rw [intersectionOf_eq_meetName]
  match hm : s.met ts with
  | [] => exact ⟨hs.wellFormed, .refl s, hs.wellFormed.has_intrinsic rfl⟩
  | [t] => exact ⟨hs.wellFormed, .refl s, hs.met_has ht t (hm ▸ List.mem_cons_self)⟩
  | t :: u :: rest =>
    exact intern_grows (d := .intersection (t :: u :: rest)) hs.wellFormed (hm ▸ hs.met_has ht)

/-- An intersection of some types meets to what its parts meet to. -/
theorem TypeStore.Canonical.met_intersectionOf (ht : ∀ t ∈ ts, s.Has t) (hts : ts ≠ []) :
    (intersectionOf ts s).2.met [(intersectionOf ts s).1] = s.met ts := by
  have hafter := hs.canonical_intersectionOf ht
  rw [intersectionOf_eq_meetName] at hafter ⊢
  match hm : s.met ts with
  | [] => exact absurd hm (hs.met_ne_nil hts)
  | [t] => exact met_other (hs.flat_met t (hm ▸ List.mem_cons_self))
  | t :: u :: rest =>
    rw [hm] at hafter
    exact hafter.met_intersection (get?_intern _ s)

/-- The type whose meet is that of a list is the intersection of the list. -/
theorem TypeStore.Canonical.intersectionOf_eq (he : s.met [e] = s.met ts) :
    intersectionOf ts s = (e, s) := by
  rw [intersectionOf_eq_meetName, ← he]
  by_cases hd : ∃ members, s.get? e = some (.intersection members)
  · obtain ⟨members, hd⟩ := hd
    rw [hs.met_intersection hd]
    match members, (hs.intersection e members hd).several with
    | t :: u :: rest, _ => exact hs.intern_eq hd
  · rw [met_other fun members h => hd ⟨members, h⟩]
    rfl

end Naming

theorem initial_canonical : TypeStore.initial.Canonical where
  toNormal := initial_normal
  intersection := by
    intro t members h
    have hall : ∀ d ∈ initial.types.toList, d.isGroup = false := by decide
    cases hall _ (Array.mem_toList_iff.2 (Array.mem_of_getElem? h))

/-- The constructors keep every group in its normal form. -/
theorem Constructed.canonical {s : TypeStore} (h : Constructed s) : s.Canonical := by
  induction h with
  | initial => exact initial_canonical
  | stored _ hd hg ih =>
    refine ih.canonical_intern hd ?_ ?_
    · rintro members rfl
      cases hg
    · rintro members rfl
      cases hg
  | union _ ht ih => exact ih.canonical_unionOf ht
  | intersection _ ht ih => exact ih.canonical_intersectionOf ht

/-- The laws of unions of types that the store has. They equate computations: both yield one id and
leave one store, so that by `lasting` each yields that id after the other, and adds nothing. -/
structure UnionLaws (s : TypeStore) : Prop where
  /-- At any later time the union is the same. -/
  lasting : ∀ ts, (∀ t ∈ ts, s.Has t) → ∀ s', Constructed s' → (unionOf ts s).2.Extends s' →
    unionOf ts s' = ((unionOf ts s).1, s')
  members : ∀ ts us, (∀ t ∈ ts, s.Has t) → (∀ t, t ∈ us ↔ t ∈ ts) → unionOf us s = unionOf ts s
  nested : ∀ ts us, (∀ t ∈ ts ++ us, s.Has t) →
    unionOf ((unionOf ts s).1 :: us) (unionOf ts s).2 = unionOf (ts ++ us) (unionOf ts s).2
  never : ∀ ts, (∀ t ∈ ts, s.Has t) → unionOf (.never :: ts) s = unionOf ts s
  any : ∀ ts, .any ∈ ts → unionOf ts s = (.any, s)
  unknown : ∀ ts, .any ∉ ts → .unknown ∈ ts → unionOf ts s = (.unknown, s)

/-- The laws of intersections of types that the store has. -/
structure IntersectionLaws (s : TypeStore) : Prop where
  /-- At any later time the intersection is the same. -/
  lasting : ∀ ts, (∀ t ∈ ts, s.Has t) → ∀ s', Constructed s' → (intersectionOf ts s).2.Extends s' →
    intersectionOf ts s' = ((intersectionOf ts s).1, s')
  members : ∀ ts us, (∀ t ∈ ts, s.Has t) → (∀ t, t ∈ us ↔ t ∈ ts) →
    intersectionOf us s = intersectionOf ts s
  nested : ∀ ts us, ts ≠ [] → (∀ t ∈ ts ++ us, s.Has t) →
    intersectionOf ((intersectionOf ts s).1 :: us) (intersectionOf ts s).2 =
      intersectionOf (ts ++ us) (intersectionOf ts s).2
  never : ∀ ts, .never ∈ ts → intersectionOf ts s = (.never, s)

section Laws

variable {s s' : TypeStore} {t : TypeId} {ts us : List TypeId}

theorem mem_unionMembers (ht : t ∈ ts) (h : ∀ members, s.get? t ≠ some (.union members)) :
    t ∈ s.unionMembers ts := by
  refine List.mem_flatMap.2 ⟨t, ht, ?_⟩
  split
  · next members hd => exact absurd hd (h members)
  · exact List.mem_singleton_self t

theorem mem_intersectionMembers (ht : t ∈ ts) (h : ∀ members, s.get? t ≠ some (.intersection members)) :
    t ∈ s.intersectionMembers ts := by
  refine List.mem_flatMap.2 ⟨t, ht, ?_⟩
  split
  · next members hd => exact absurd hd (h members)
  · exact List.mem_singleton_self t

theorem unionOf_congr (h : s.joined us = s.joined ts) : unionOf us s = unionOf ts s := by
  rw [unionOf_eq_joinName, unionOf_eq_joinName, h]

theorem intersectionOf_congr (h : s.met us = s.met ts) : intersectionOf us s = intersectionOf ts s := by
  rw [intersectionOf_eq_meetName, intersectionOf_eq_meetName, h]

/-- What absorbs a union is one of the types listed: no stored union has it as a member. -/
theorem mem_of_any_mem_unionMembers (hs : s.Normal) (h : TypeId.any ∈ s.unionMembers ts) :
    TypeId.any ∈ ts := by
  obtain ⟨t, ht, hm⟩ := List.mem_flatMap.1 h
  split at hm
  · next members hd => exact absurd hm (hs.union t members hd).any
  · exact List.mem_singleton.1 hm ▸ ht

/-- The union of types stays the one that was handed out, as long as the store grows. -/
theorem TypeStore.Normal.unionOf_later (hs : s.Normal) (ht : ∀ t ∈ ts, s.Has t) (hs' : s'.Normal)
    (he : (unionOf ts s).2.Extends s') : unionOf ts s' = ((unionOf ts s).1, s') := by
  obtain ⟨-, hextends, hhas⟩ := unionOf_grows hs.wellFormed ht
  apply hs'.unionOf_eq
  calc s'.joined [(unionOf ts s).1]
      = (unionOf ts s).2.joined [(unionOf ts s).1] := he.joined (by simpa using hhas)
    _ = s.joined ts := (hs.joined_unionOf ht).2
    _ = s'.joined ts := ((hextends.trans he).joined ht).symm

/-- The intersection of types stays the one that was handed out, as long as the store grows. -/
theorem TypeStore.Canonical.intersectionOf_later (hs : s.Canonical) (ht : ∀ t ∈ ts, s.Has t)
    (hs' : s'.Canonical) (he : (intersectionOf ts s).2.Extends s') :
    intersectionOf ts s' = ((intersectionOf ts s).1, s') := by
  obtain ⟨-, hextends, hhas⟩ := hs.intersectionOf_grows ht
  by_cases hts : ts = []
  · subst hts
    rfl
  · apply hs'.intersectionOf_eq
    calc s'.met [(intersectionOf ts s).1]
        = (intersectionOf ts s).2.met [(intersectionOf ts s).1] := he.met (by simpa using hhas)
      _ = s.met ts := hs.met_intersectionOf ht hts
      _ = s'.met ts := ((hextends.trans he).met ht).symm

theorem Constructed.unionLaws (hs : Constructed s) : UnionLaws s where
  lasting ts ht s' hs' he := hs.normal.unionOf_later ht hs'.normal he
  members ts us _ hm := unionOf_congr (joined_congr hm)
  nested ts us h := by
    obtain ⟨hts, hus⟩ := List.forall_mem_append.1 h
    obtain ⟨-, hextends, -⟩ := unionOf_grows hs.normal.wellFormed hts
    have hunion := (hs.normal.joined_unionOf hts).2.trans (hextends.joined hts).symm
    exact unionOf_congr (joined_append hunion rfl)
  never ts _ := by
    have hnever := joined_never fun _ h => by cases (hs.normal.get?_intrinsic rfl).symm.trans h
    have happend : s.joined ([.never] ++ ts) = s.joined ([] ++ ts) := joined_append hnever rfl
    exact unionOf_congr happend
  any ts hm := by
    have hflat := mem_unionMembers hm fun _ h => by cases (hs.normal.get?_intrinsic rfl).symm.trans h
    rw [unionOf_eq_joinName, joined, if_pos hflat]
    rfl
  unknown ts hany hm := by
    have hflat := mem_unionMembers hm fun _ h => by cases (hs.normal.get?_intrinsic rfl).symm.trans h
    rw [unionOf_eq_joinName, joined, if_neg (mt (mem_of_any_mem_unionMembers hs.normal) hany),
      if_pos hflat]
    rfl

theorem Constructed.intersectionLaws (hs : Constructed s) : IntersectionLaws s where
  lasting ts ht s' hs' he := hs.canonical.intersectionOf_later ht hs'.canonical he
  members ts us _ hm := intersectionOf_congr (met_congr hm)
  nested ts us hne h := by
    obtain ⟨hts, hus⟩ := List.forall_mem_append.1 h
    obtain ⟨-, hextends, -⟩ := hs.canonical.intersectionOf_grows hts
    have hmet := (hs.canonical.met_intersectionOf hts hne).trans (hextends.met hts).symm
    exact intersectionOf_congr (met_append hmet rfl)
  never ts hm := by
    have hflat := mem_intersectionMembers hm fun _ h => by
      cases (hs.normal.get?_intrinsic rfl).symm.trans h
    rw [intersectionOf_eq_meetName, met, if_pos hflat]
    rfl

end Laws

/-- In a store made by the constructors every group is in its normal form, unions are those of sets of
types with `never` as the empty one and `any`, then `unknown`, above all, and intersections are those
of nonempty sets of types with `never` below all. -/
theorem Constructed.groups_canonical {s : TypeStore} (hs : Constructed s) :
    (∀ t members, s.get? t = some (.union members) → s.NormalUnion members) ∧
      (∀ t members, s.get? t = some (.intersection members) → s.NormalIntersection members) ∧
      UnionLaws s ∧ IntersectionLaws s :=
  ⟨hs.normal.union, hs.canonical.intersection, hs.unionLaws, hs.intersectionLaws⟩

/-- A store with a union inside an intersection. -/
theorem groups_canonical_of_nested :
    Constructed nestedStore ∧
      (∀ t members, nestedStore.get? t = some (.union members) → nestedStore.NormalUnion members) ∧
      (∀ t members, nestedStore.get? t = some (.intersection members) →
        nestedStore.NormalIntersection members) ∧
      UnionLaws nestedStore ∧ IntersectionLaws nestedStore :=
  ⟨nestedStore_constructed, nestedStore_constructed.groups_canonical⟩

end ScriptToLua
