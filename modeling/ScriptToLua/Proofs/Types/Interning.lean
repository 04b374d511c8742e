import Mathlib
import ScriptToLua.Proofs.Types.Additions

/-!
What holds of a store after any operations on it. Each type is stored once, an id keeps its data, and
searching a type is the same as looking it up in a map from data to ids in which each type is entered
as it is stored: `TypeStore.initial_run_oneId`.
-/

namespace ScriptToLua

namespace TypeStore

/-- What can be done with a store: to store data as it is given or in its normal form, and to work out
the shape of a type. -/
inductive Operation where
  | store (d : TypeData)
  | union (members : List TypeId)
  | intersection (members : List TypeId)
  | classify (t : TypeId)

/-- The store after an operation. -/
def Operation.perform (s : TypeStore) : Operation → TypeStore
  | store d => (intern d s).2
  | union members => (unionOf members s).2
  | intersection members => (intersectionOf members s).2
  | classify t => (shapeOf t s).2

/-- The store after operations from left to right. -/
def run (s : TypeStore) (operations : List Operation) : TypeStore :=
  operations.foldl Operation.perform s

/-- The map from data to ids in which each type is entered as it is stored. -/
def index (s : TypeStore) : OrderedMap TypeData TypeId :=
  .ofList (s.types.toList.zipIdx.map fun e => (e.1, ⟨e.2⟩))

variable {s s' : TypeStore} {t u : TypeId} {d d' : TypeData}

theorem index_push (s : TypeStore) (d : TypeData) :
    (s.push d).index = s.index.insert d ⟨s.size⟩ := by
  simp [index, push, size, OrderedMap.ofList, OrderedMap.insertAll, List.zipIdx_append]

/-- The index has just the stored data, each with its id. -/
def Indexed (s : TypeStore) : Prop := ∀ d t, s.index.get? d = some t ↔ s.get? t = some d

namespace Indexed

/-- An index has one id for each type, so a type is stored once. -/
theorem distinct (h : s.Indexed) (ht : s.get? t = some d) (hu : s.get? u = some d) : t = u :=
  Option.some.inj (((h d t).2 ht).symm.trans ((h d u).2 hu))

theorem nodup (h : s.Indexed) : s.types.toList.Nodup := by
  rw [List.nodup_iff_getElem?_ne_getElem?]
  intro i j hij hj heq
  have hget : s.get? ⟨i⟩ = some s.types[j] := by
    have hi : s.types.toList[i]? = s.types.toList[j]? := heq
    rw [Array.getElem?_toList, Array.getElem?_toList, Array.getElem?_eq_getElem hj] at hi
    exact hi
  have := h.distinct hget (Array.getElem?_eq_getElem hj : s.get? ⟨j⟩ = some s.types[j])
  exact absurd (TypeId.mk.inj this) hij.ne

/-- Searching finds what the index has. -/
theorem idOf?_eq (h : s.Indexed) (d : TypeData) : s.idOf? d = s.index.get? d := by
  cases hd : s.idOf? d with
  | some t => exact ((h d t).2 (get?_of_idOf? hd)).symm
  | none =>
    symm
    rw [Option.eq_none_iff_forall_ne_some]
    exact fun t ht => get?_ne_of_idOf? hd t ((h d t).1 ht)

theorem push (h : s.Indexed) (hd : ∀ t, s.get? t ≠ some d) : (s.push d).Indexed := by
  intro d' t
  rw [index_push, OrderedMap.get?_insert, get?_push]
  by_cases hd' : d = d'
  · subst hd'
    by_cases ht : t = ⟨s.size⟩
    · simp [ht]
    · have hne : ¬ (⟨s.size⟩ : TypeId) = t := fun he => ht he.symm
      simp [ht, hne, hd t]
  · by_cases ht : t = ⟨s.size⟩
    · subst ht
      have hnone : s.get? ⟨s.size⟩ ≠ some d' := fun hs => Nat.lt_irrefl _ (has_of_get? hs)
      simp [hd', h d' ⟨s.size⟩, hnone]
    · simp [hd', ht, h d' t]

/-- The step: interning keeps the index in line with the types. -/
theorem intern (h : s.Indexed) (d : TypeData) : (intern d s).2.Indexed := by
  rcases intern_cases d s with ⟨t, -, hrun⟩ | ⟨hnew, hrun⟩
  · rw [hrun]
    exact h
  · rw [hrun]
    exact h.push hnew

theorem interned (h : s.Indexed) (hs : s.Interned s') : s'.Indexed := by
  induction hs with
  | refl => exact h
  | intern _ d ih => exact ih.intern d

end Indexed

/-- The first store comes about by interning the intrinsic types one after another. -/
theorem initial_eq_foldl :
    initial = (Intrinsic.all.map TypeData.intrinsic).foldl (fun s d => (intern d s).2) ⟨#[]⟩ :=
  congrArg TypeStore.mk (by decide +kernel)

theorem interned_foldl (s : TypeStore) (ds : List TypeData) :
    s.Interned (ds.foldl (fun s d => (ScriptToLua.intern d s).2) s) := by
  induction ds generalizing s with
  | nil => exact .refl
  | cons d ds ih => exact (Interned.intern .refl d).trans (ih _)

theorem initial_indexed : initial.Indexed := by
  have hempty : (⟨#[]⟩ : TypeStore).Indexed := fun d t => iff_of_false nofun nofun
  exact hempty.interned (initial_eq_foldl ▸ interned_foldl _ _)

theorem Operation.interned (s : TypeStore) (op : Operation) : s.Interned (op.perform s) := by
  cases op with
  | store d => exact intern_interns d s
  | union members => exact unionOf_interns members s
  | intersection members => exact intersectionOf_interns members s
  | classify t => exact shapeOf_interns t s

/-- The run: whatever the operations are, types are interned one after another. -/
theorem run_interned (s : TypeStore) (operations : List Operation) : s.Interned (s.run operations) := by
  induction operations generalizing s with
  | nil => exact .refl
  | cons op operations ih => exact (op.interned s).trans (ih _)

theorem Extends.get?_eq_some (h : s.Extends s') (ht : s.get? t = some d) : s'.get? t = some d :=
  (h.get? (has_of_get? ht)).trans ht

/-- What interning adds to a store was not in it. -/
theorem Indexed.added (h : s.Indexed) (hs : s.Interned s') :
    ∃ added, s'.types = s.types ++ added ∧ added.toList.Nodup ∧ ∀ d ∈ added, d ∉ s.types := by
  obtain ⟨added, hadded⟩ := hs.extends_
  have hnodup := (h.interned hs).nodup
  rw [hadded, Array.toList_append] at hnodup
  obtain ⟨-, hnew, hdisjoint⟩ := List.nodup_append'.1 hnodup
  exact ⟨added, hadded, hnew, fun d hd hs =>
    hdisjoint (Array.mem_toList_iff.2 hs) (Array.mem_toList_iff.2 hd)⟩

/-- Interning is looking up in the index, and pushing what is not there. -/
theorem Indexed.intern_eq (h : s.Indexed) (d : TypeData) :
    ScriptToLua.intern d s =
      match s.index.get? d with
      | some t => (t, s)
      | none => (⟨s.size⟩, s.push d) := by
  rw [ScriptToLua.intern, h.idOf?_eq]
  rfl

/-- After any operations no type is stored twice, and the index has just the stored types, each with
its id; interning looks up in the index and adds what is not there, to the types and to the index. The
first ids are those of the intrinsic types. Interning yields an id of the data, and at any later time
that id for the same data only; an id keeps its data whatever is done next; and an operation adds only
types that were not stored, each once. -/
theorem initial_run_oneId (operations : List Operation) :
    let s := initial.run operations
    s.types.toList.Nodup ∧
      (∀ d t, s.index.get? d = some t ↔ s.get? t = some d) ∧
      (∀ d, (s.push d).index = s.index.insert d ⟨s.size⟩ ∧
        intern d s =
          match s.index.get? d with
          | some t => (t, s)
          | none => (⟨s.size⟩, s.push d)) ∧
      (∀ i kind, Intrinsic.all[i]? = some kind → s.get? ⟨i⟩ = some (.intrinsic kind)) ∧
      (∀ d, (intern d s).2.get? (intern d s).1 = some d) ∧
      (∀ d d' later, (intern d' ((intern d s).2.run later)).1 = (intern d s).1 ↔ d' = d) ∧
      (∀ t d later, s.get? t = some d → (s.run later).get? t = some d) ∧
      ∀ op : Operation, ∃ added, (op.perform s).types = s.types ++ added ∧ added.toList.Nodup ∧
        ∀ d ∈ added, d ∉ s.types := by
  intro s
  have hs : s.Indexed := initial_indexed.interned (run_interned initial operations)
  refine ⟨hs.nodup, hs, fun d => ⟨index_push s d, hs.intern_eq d⟩, ?_, fun d => get?_intern d s, ?_, ?_,
    fun op => hs.added (op.interned s)⟩
  · intro i kind hi
    have hinitial : initial.get? ⟨i⟩ = some (.intrinsic kind) := by
      simp only [initial, get?, List.getElem?_toArray, List.getElem?_map, hi, Option.map_some]
    exact (run_interned initial operations).extends_.get?_eq_some hinitial
  · intro d d' later
    have hd := get?_intern d s
    have hd' := get?_intern d' ((ScriptToLua.intern d s).2.run later)
    have hlater : (ScriptToLua.intern d s).2.Interned
        (ScriptToLua.intern d' ((ScriptToLua.intern d s).2.run later)).2 :=
      (run_interned _ later).trans (intern_interns d' _)
    have hkept := hlater.extends_.get?_eq_some hd
    refine ⟨fun heq => ?_, fun heq => ?_⟩
    · rw [heq, hkept] at hd'
      exact (Option.some.inj hd').symm
    · subst heq
      exact ((hs.intern d').interned hlater).distinct hd' hkept
  · exact fun t d later ht => (run_interned s later).extends_.get?_eq_some ht

end TypeStore

end ScriptToLua
