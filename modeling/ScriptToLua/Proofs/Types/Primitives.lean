import Mathlib
import ScriptToLua.Proofs.Types.Join
import ScriptToLua.Proofs.Types.Primitive

/-!
Lists of primitive types and the types that stand for them: a primitive type for itself, and a stored
union for several, `unionOf_stands`. Which list a type stands for does not depend on the store.
-/

namespace ScriptToLua

open TypeStore

/-- The types of numbers, strings, booleans and absent values. -/
def TypeId.isPrimitive (t : TypeId) : Bool :=
  t = .number || t = .string || t = .boolean || t = .nil

/-- Different primitive types in increasing order, at least one. -/
structure Primitives (ts : List TypeId) : Prop where
  nonempty : ts ≠ []
  increasing : ts.Pairwise TypeId.Before
  primitive : ∀ t ∈ ts, t.isPrimitive

/-- The type is the one in the list, or the stored union of those in the list. -/
def StandsFor (s : TypeStore) (t : TypeId) (ts : List TypeId) : Prop :=
  ts = [t] ∨ 2 ≤ ts.length ∧ s.get? t = some (.union ts)

section Primitives

variable {s s' : TypeStore} {t u : TypeId} {ts us : List TypeId}

theorem TypeId.primitive_cases (h : t.isPrimitive) :
    t = .number ∨ t = .string ∨ t = .boolean ∨ t = .nil := by
  simpa [TypeId.isPrimitive, or_assoc] using h

theorem TypeId.intrinsic_of_primitive (h : t.isPrimitive) : t.isIntrinsic := by
  rcases t.primitive_cases h with rfl | rfl | rfl | rfl <;> rfl

theorem Primitives.single (h : t.isPrimitive) : Primitives [t] where
  nonempty := by simp
  increasing := List.pairwise_singleton _ t
  primitive := by simpa using h

theorem Primitives.sorted (ht : Primitives ts) (hu : Primitives us) :
    Primitives (sortIds (ts ++ us)) where
  nonempty h := by
    obtain ⟨t, hm⟩ := List.exists_mem_of_ne_nil ts ht.nonempty
    have hm' : t ∈ sortIds (ts ++ us) := mem_sortIds_iff.2 (List.mem_append_left us hm)
    rw [h] at hm'
    cases hm'
  increasing := sortIds_increasing _
  primitive t hm := by
    rcases List.mem_append.1 (mem_sortIds_iff.1 hm) with hm | hm
    · exact ht.primitive t hm
    · exact hu.primitive t hm

theorem Primitives.eq_single (ht : Primitives ts) (hall : ∀ u ∈ ts, u = t) : ts = [t] := by
  cases ts with
  | nil => exact absurd rfl ht.nonempty
  | cons u rest =>
    obtain rfl := hall u List.mem_cons_self
    cases rest with
    | nil => rfl
    | cons v rest =>
      have hbefore := (List.pairwise_cons.1 ht.increasing).1 v List.mem_cons_self
      rw [hall v (List.mem_cons_of_mem u List.mem_cons_self)] at hbefore
      exact absurd hbefore (Nat.lt_irrefl _)

/-- A list that is merged into a single type is that type. -/
theorem Primitives.of_sorted_single (ht : Primitives ts) (hsub : ∀ u ∈ ts, u ∈ us)
    (h : sortIds us = [t]) : ts = [t] := by
  refine ht.eq_single fun u hu => ?_
  have hm : u ∈ sortIds us := mem_sortIds_iff.2 (hsub u hu)
  rw [h] at hm
  exact List.mem_singleton.1 hm

theorem get?_primitive (hs : s.WellFormed) (h : t.isPrimitive) :
    ∃ kind, s.get? t = some (.intrinsic kind) ∧
      (TypeData.isString (.intrinsic kind) = decide (t = .string)) ∧
      TypeData.isNumber (.intrinsic kind) = decide (t = .number) := by
  rw [hs.intrinsics.get? (initial_wellFormed.has_intrinsic (t.intrinsic_of_primitive h))]
  rcases t.primitive_cases h with rfl | rfl | rfl | rfl <;> exact ⟨_, rfl, rfl, rfl⟩

theorem StandsFor.single (s : TypeStore) (t : TypeId) : StandsFor s t [t] := .inl rfl

theorem StandsFor.has (hs : s.WellFormed) (hp : Primitives ts) (h : StandsFor s t ts) : s.Has t := by
  rcases h with rfl | ⟨-, h⟩
  · exact hs.has_intrinsic (t.intrinsic_of_primitive (hp.primitive t List.mem_cons_self))
  · exact has_of_get? h

theorem StandsFor.extends_ (he : s.Extends s') (h : StandsFor s t ts) : StandsFor s' t ts := by
  rcases h with h | ⟨hl, h⟩
  · exact .inl h
  · exact .inr ⟨hl, (he.get? (has_of_get? h)).trans h⟩

/-- A primitive type stands for itself only. -/
theorem StandsFor.of_primitive (hs : s.WellFormed) (ht : t.isPrimitive) (h : StandsFor s t ts) :
    ts = [t] := by
  rcases h with h | ⟨-, h⟩
  · exact h
  · obtain ⟨kind, hget, -⟩ := get?_primitive hs ht
    cases hget.symm.trans h

theorem StandsFor.eq_of_single (h : StandsFor s t [u]) : t = u := by
  rcases h with h | ⟨hl, -⟩
  · exact (List.singleton_inj.1 h).symm
  · simp at hl

theorem StandsFor.ne_unknown (hs : s.WellFormed) (hp : Primitives ts) (h : StandsFor s t ts) :
    t ≠ .unknown := by
  rintro rfl
  rcases h with rfl | ⟨-, h⟩
  · cases hp.primitive .unknown List.mem_cons_self
  · rw [hs.intrinsics.get? (by decide)] at h
    cases h

theorem StandsFor.unionMembers (hs : s.WellFormed) (hp : Primitives ts) (h : StandsFor s t ts) :
    s.unionMembers [t] = ts := by
  rcases h with rfl | ⟨-, h⟩
  · obtain ⟨kind, hget, -⟩ := get?_primitive hs (hp.primitive t List.mem_cons_self)
    exact unionMembers_singleton fun members hu => by cases hget.symm.trans hu
  · exact unionMembers_singleton_of_union h

theorem StandsFor.joined (hs : s.WellFormed) (ht : Primitives ts) (hu : Primitives us)
    (h : StandsFor s t ts) (h' : StandsFor s u us) : s.joined [t, u] = sortIds (ts ++ us) := by
  have hflat : s.unionMembers [t, u] = ts ++ us := by
    rw [← List.singleton_append, unionMembers_append, h.unionMembers hs ht, h'.unionMembers hs hu]
  have hall (v : TypeId) (hv : v ∈ ts ++ us) : v.isPrimitive :=
    (List.mem_append.1 hv).elim (ht.primitive v) (hu.primitive v)
  have hout {v : TypeId} (hv : v.isPrimitive = false) : v ∉ ts ++ us := fun hm => by
    cases hv.symm.trans (hall v hm)
  have hnever : (ts ++ us).filter (· ≠ .never) = ts ++ us :=
    List.filter_eq_self.2 fun v hv => decide_eq_true fun he => hout rfl (he ▸ hv)
  unfold TypeStore.joined
  dsimp only
  rw [hflat, if_neg (hout rfl), if_neg (hout rfl), hnever]

/-- The union of two types stands for what the two stand for. -/
theorem unionOf_stands (hs : s.WellFormed) (ht : Primitives ts) (hu : Primitives us)
    (h : StandsFor s t ts) (h' : StandsFor s u us) :
    Grows s (fun s' v => StandsFor s' v (sortIds (ts ++ us))) (unionOf [t, u]) := by
  have hhas : ∀ v ∈ [t, u], s.Has v := by
    intro v hv
    rcases List.mem_pair.1 hv with rfl | rfl
    · exact h.has hs ht
    · exact h'.has hs hu
  obtain ⟨hw, he, -⟩ := unionOf_grows hs hhas
  refine ⟨hw, he, ?_⟩
  rw [unionOf_eq_joinName, h.joined hs ht hu h']
  have hne := (ht.sorted hu).nonempty
  generalize sortIds (ts ++ us) = members at hne
  cases members with
  | nil => exact absurd rfl hne
  | cons v rest =>
    cases rest with
    | nil => exact .single s v
    | cons w rest => exact .inr ⟨by simp, get?_intern _ s⟩

theorem allM_some (q : TypeId → Bool) (l : List TypeId) :
    l.allM (fun u => some (q u)) = some (l.all q) := by
  induction l with
  | nil => rfl
  | cons u l ih =>
    rw [List.allM, List.all_cons]
    cases hq : q u with
    | true => simpa [hq] using ih
    | false => simp

/-- A union of different primitive types is made of none of them alone. -/
theorem madeOf_stands {p : TypeData → Bool} {v : TypeId} (hs : s.WellFormed) (hp : Primitives ts)
    (h : StandsFor s t ts)
    (hv : ∀ u ∈ ts, ∃ d, s.get? u = some (.intrinsic d) ∧ p (.intrinsic d) = decide (u = v)) :
    madeOf p s t ↔ ts = [v] := by
  have hleaf (room : Nat) (u : TypeId) (hu : u ∈ ts) :
      madeOfAt p s (room + 1) u = some (decide (u = v)) := by
    obtain ⟨d, hget, hd⟩ := hv u hu
    rw [madeOfAt, hget]
    exact congrArg some hd
  unfold madeOf
  rcases h with rfl | ⟨hl, hget⟩
  · rw [hleaf s.size t List.mem_cons_self]
    simp
  · obtain ⟨u, hu⟩ := List.exists_mem_of_ne_nil ts hp.nonempty
    have hhas : s.Has u := hs.closed t _ hget u hu
    obtain ⟨room, hroom⟩ : ∃ room, s.size = room + 1 :=
      ⟨s.size - 1, by unfold TypeStore.Has at hhas; omega⟩
    have hmade : madeOfAt p s (s.size + 1) t = some (ts.all fun u => u = v) := by
      rw [madeOfAt, hget, ← allM_some]
      cases ts with
      | nil => exact absurd rfl hp.nonempty
      | cons u us => exact allM_congr fun w hw => hroom ▸ hleaf room w hw
    rw [hmade, Option.getD_some, List.all_eq_true]
    refine ⟨fun hall => hp.eq_single fun u hu => of_decide_eq_true (hall u hu), ?_⟩
    rintro rfl
    simp at hl

theorem StandsFor.isStringLike (hs : s.WellFormed) (hp : Primitives ts) (h : StandsFor s t ts) :
    s.isStringLike t ↔ ts = [.string] := by
  refine madeOf_stands hs hp h fun u hu => ?_
  obtain ⟨kind, hget, hstring, -⟩ := get?_primitive hs (hp.primitive u hu)
  exact ⟨kind, hget, hstring⟩

theorem StandsFor.isNumberLike (hs : s.WellFormed) (hp : Primitives ts) (h : StandsFor s t ts) :
    s.isNumberLike t ↔ ts = [.number] := by
  refine madeOf_stands hs hp h fun u hu => ?_
  obtain ⟨kind, hget, -, hnumber⟩ := get?_primitive hs (hp.primitive u hu)
  exact ⟨kind, hget, hnumber⟩

end Primitives

end ScriptToLua
