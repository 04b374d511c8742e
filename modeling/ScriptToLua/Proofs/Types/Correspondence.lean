import Mathlib
import ScriptToLua.Proofs.Types.Elements

/-!
Stores that hold the same types under other ids. Their types correspond one to one, and unions and
intersections correspond as sets of members, since the order of members follows the ids. What types
join to corresponds then too: `SlotsMatch.join`.
-/

namespace ScriptToLua

open TypeStore

/-- The property with its type under its other id. -/
def Property.rename (f : TypeId → TypeId) (p : Property) : Property := { p with type := f p.type }

/-- The data of one type under other ids; the members of groups make up a set. -/
inductive TypeData.Renamed (f : TypeId → TypeId) : TypeData → TypeData → Prop
  | intrinsic (kind : Intrinsic) : Renamed f (.intrinsic kind) (.intrinsic kind)
  | stringLiteral (value : String) : Renamed f (.stringLiteral value) (.stringLiteral value)
  | numberLiteral (text : String) : Renamed f (.numberLiteral text) (.numberLiteral text)
  | array (element : TypeId) : Renamed f (.array element) (.array (f element))
  | tuple (elements : List TypeId) : Renamed f (.tuple elements) (.tuple (elements.map f))
  | union {members members' : List TypeId} (h : ∀ u, u ∈ members' ↔ u ∈ members.map f) :
    Renamed f (.union members) (.union members')
  | intersection {members members' : List TypeId} (h : ∀ u, u ∈ members' ↔ u ∈ members.map f) :
    Renamed f (.intersection members) (.intersection members')
  | object (properties : List Property) :
    Renamed f (.object properties) (.object (properties.map (Property.rename f)))
  | interface (name : String) (bases : List TypeId) (properties : List Property) :
    Renamed f (.interface name bases properties)
      (.interface name (bases.map f) (properties.map (Property.rename f)))
  | parameter (name : String) (constraint : Option TypeId) :
    Renamed f (.parameter name constraint) (.parameter name (constraint.map f))
  | function (parameters : List TypeId) (result : TypeId) :
    Renamed f (.function parameters result) (.function (parameters.map f) (f result))

/-- The stores hold the same types; `f` takes the ids of the first to those of the second. -/
structure TypeStore.Corresponds (f : TypeId → TypeId) (s s' : TypeStore) : Prop where
  bijective : Set.BijOn f {t | s.Has t} {t | s'.Has t}
  data : ∀ t d, s.get? t = some d → ∃ d', s'.get? (f t) = some d' ∧ d.Renamed f d'

/-- The second store has grown out of the first. -/
structure TypeStore.Grown (base s : TypeStore) : Prop where
  normal : s.Normal
  extends_ : base.Extends s

section Joining

variable {s s' : TypeStore} {t u : TypeId} {ts : List TypeId}

theorem mem_unionMembers_iff : u ∈ s.unionMembers ts ↔ ∃ t ∈ ts, u ∈ s.unionMembers [t] := by
  simp only [unionMembers, List.mem_flatMap, List.mem_singleton, exists_eq_left]

/-- What types join to is decided by what each of them joins to by itself. -/
theorem mem_joined_iff : u ∈ s.joined ts ↔
    if ∃ t ∈ ts, TypeId.any ∈ s.joined [t] then u = .any
    else if ∃ t ∈ ts, TypeId.unknown ∈ s.joined [t] then u = .unknown
    else ∃ t ∈ ts, u ∈ s.joined [t] := by
  have hany : TypeId.any ∈ s.unionMembers ts ↔ ∃ t ∈ ts, TypeId.any ∈ s.joined [t] := by
    rw [mem_unionMembers_iff]
    simp only [any_mem_joined]
  rw [mem_joined]
  by_cases ha : ∃ t ∈ ts, TypeId.any ∈ s.joined [t]
  · rw [if_pos (hany.2 ha), if_pos ha]
  · have hnone : ∀ t ∈ ts, TypeId.any ∉ s.unionMembers [t] := fun t ht h =>
      ha ⟨t, ht, any_mem_joined.2 h⟩
    have hunknown : TypeId.unknown ∈ s.unionMembers ts ↔ ∃ t ∈ ts, TypeId.unknown ∈ s.joined [t] := by
      rw [mem_unionMembers_iff]
      refine exists_congr fun t => and_congr_right fun ht => ?_
      rw [unknown_mem_joined]
      exact (and_iff_left (hnone t ht)).symm
    rw [if_neg (mt hany.1 ha), if_neg ha]
    by_cases hu : ∃ t ∈ ts, TypeId.unknown ∈ s.joined [t]
    · rw [if_pos (hunknown.2 hu), if_pos hu]
    · rw [if_neg (mt hunknown.1 hu), if_neg hu, mem_unionMembers_iff, ← exists_and_right]
      refine exists_congr fun t => ?_
      rw [and_assoc]
      refine and_congr_right fun ht => ?_
      have hno : TypeId.unknown ∉ s.unionMembers [t] := fun h =>
        hu ⟨t, ht, unknown_mem_joined.2 ⟨h, hnone t ht⟩⟩
      rw [mem_joined, if_neg (hnone t ht), if_neg hno]

/-- Types that join to the same are the same. -/
theorem TypeStore.Normal.eq_of_joined (hs : s.Normal) (h : s.joined [t] = s.joined [u]) : t = u := by
  have ht : unionOf [u] s = (t, s) := hs.unionOf_eq h
  have hu : unionOf [u] s = (u, s) := hs.unionOf_eq rfl
  exact congrArg Prod.fst (ht.symm.trans hu)

end Joining

theorem exists_intrinsic {t : TypeId} (h : t.isIntrinsic) :
    ∃ kind, initial.get? t = some (.intrinsic kind) := by
  have ht : t.index < Intrinsic.all.length := of_decide_eq_true h
  refine ⟨Intrinsic.all[t.index], ?_⟩
  simp only [TypeStore.get?, initial, List.getElem?_toArray, List.getElem?_map,
    List.getElem?_eq_getElem ht, Option.map_some]

section Corresponds

variable {f : TypeId → TypeId} {s s' : TypeStore} {t u : TypeId}

theorem TypeStore.Corresponds.has (hc : s.Corresponds f s') (ht : s.Has t) : s'.Has (f t) :=
  hc.bijective.mapsTo ht

/-- The data of a type in the second store comes from its data in the first. -/
theorem TypeStore.Corresponds.data_back (hc : s.Corresponds f s') (ht : s.Has t) {d' : TypeData}
    (hd' : s'.get? (f t) = some d') : ∃ d, s.get? t = some d ∧ d.Renamed f d' := by
  have hd : s.get? t = some s.types[t.index] := Array.getElem?_eq_getElem ht
  obtain ⟨d, hd₁, hr⟩ := hc.data t _ hd
  obtain rfl := Option.some.inj (hd₁.symm.trans hd')
  exact ⟨_, hd, hr⟩

variable (hc : s.Corresponds f s') (hs : s.Normal) (hs' : s'.Normal)

include hc hs hs'

theorem TypeStore.Corresponds.intrinsic (h : t.isIntrinsic) : f t = t := by
  obtain ⟨kind, hkind⟩ := exists_intrinsic h
  obtain ⟨d', hd', hr⟩ := hc.data t _ (hs.get?_intrinsic hkind)
  cases hr
  exact hs'.distinct (f t) t _ hd' (hs'.get?_intrinsic hkind)

theorem TypeStore.Corresponds.eq_intrinsic_iff (hu : s.Has u) (h : t.isIntrinsic) :
    f u = t ↔ u = t := by
  constructor
  · intro heq
    exact hc.bijective.injOn hu (hs.wellFormed.has_intrinsic h)
      (heq.trans (hc.intrinsic hs hs' h).symm)
  · rintro rfl
    exact hc.intrinsic hs hs' h

/-- A type joins to the types that correspond to those its counterpart joins to. -/
theorem TypeStore.Corresponds.mem_joined (ht : s.Has t) :
    u ∈ s'.joined [f t] ↔ u ∈ (s.joined [t]).map f := by
  have hd : s.get? t = some s.types[t.index] := Array.getElem?_eq_getElem ht
  obtain ⟨d', hd', hr⟩ := hc.data t _ hd
  generalize s.types[t.index] = d at hd hr
  by_cases hu : ∃ members, d = .union members
  · obtain ⟨members, rfl⟩ := hu
    cases hr with
    | union h => rw [hs.joined_union hd, hs'.joined_union hd', h]
  · have hne : ∀ members, s.get? t ≠ some (.union members) := fun members h =>
      hu ⟨members, Option.some.inj (hd.symm.trans h)⟩
    have hne' : ∀ members, s'.get? (f t) ≠ some (.union members) := by
      intro members h
      obtain rfl := Option.some.inj (hd'.symm.trans h)
      cases hr with
      | union h => exact hu ⟨_, rfl⟩
    by_cases hn : t = .never
    · subst hn
      have hnever : f .never = .never := hc.intrinsic hs hs' rfl
      rw [hnever] at hne' ⊢
      rw [joined_never hne, joined_never hne', List.map_nil]
    · have hn' : f t ≠ .never := mt (hc.eq_intrinsic_iff hs hs' ht rfl).1 hn
      rw [joined_other hne hn, joined_other hne' hn', List.map_singleton]

end Corresponds

/-- The type of slots in a store grown out of the first, and one in a store grown out of the second:
they join to types of these stores that correspond. -/
structure SlotsMatch (f : TypeId → TypeId) (base s s' : TypeStore) (e e' : TypeId) : Prop where
  has : s.Has e
  has' : s'.Has e'
  old : ∀ u ∈ s.joined [e], base.Has u
  joined : ∀ u, u ∈ s'.joined [e'] ↔ u ∈ (s.joined [e]).map f

/-- Each element of either list has a partner in the other. -/
structure Paired {α β : Type} (R : α → β → Prop) (l : List α) (l' : List β) : Prop where
  left : ∀ a ∈ l, ∃ b ∈ l', R a b
  right : ∀ b ∈ l', ∃ a ∈ l, R a b

section Paired

variable {α β γ δ : Type} {R : α → β → Prop} {l : List α} {l' : List β}

theorem Paired.ne_nil (h : Paired R l l') (hne : l ≠ []) : l' ≠ [] := by
  obtain ⟨a, ha⟩ := List.exists_mem_of_ne_nil l hne
  obtain ⟨b, hb, -⟩ := h.left a ha
  exact List.ne_nil_of_mem hb

theorem Paired.imp {R' : α → β → Prop} (h : Paired R l l') (hr : ∀ a ∈ l, ∀ b, R a b → R' a b) :
    Paired R' l l' := by
  constructor
  · intro a ha
    obtain ⟨b, hb, hab⟩ := h.left a ha
    exact ⟨b, hb, hr a ha b hab⟩
  · intro b hb
    obtain ⟨a, ha, hab⟩ := h.right b hb
    exact ⟨a, ha, hr a ha b hab⟩

theorem Paired.of_mem_iff {f : α → β} (h : ∀ b, b ∈ l' ↔ b ∈ l.map f) :
    Paired (fun a b => b = f a) l l' := by
  refine ⟨fun a ha => ⟨f a, (h _).2 (List.mem_map_of_mem ha), rfl⟩, fun b hb => ?_⟩
  obtain ⟨a, ha, heq⟩ := List.mem_map.1 ((h b).1 hb)
  exact ⟨a, ha, heq.symm⟩

/-- What is made of partners are partners. -/
theorem Paired.images {P : α → γ → Prop} {P' : β → δ → Prop} {Q : γ → δ → Prop} {k : List γ}
    {k' : List δ} (h : Paired R l l') (hk : Paired P l k) (hk' : Paired P' l' k')
    (hq : ∀ a ∈ l, ∀ b ∈ l', ∀ c ∈ k, ∀ d ∈ k', R a b → P a c → P' b d → Q c d) : Paired Q k k' := by
  constructor
  · intro c hc
    obtain ⟨a, ha, hac⟩ := hk.right c hc
    obtain ⟨b, hb, hab⟩ := h.left a ha
    obtain ⟨d, hd, hbd⟩ := hk'.left b hb
    exact ⟨d, hd, hq a ha b hb c hc d hd hab hac hbd⟩
  · intro d hd
    obtain ⟨b, hb, hbd⟩ := hk'.right d hd
    obtain ⟨a, ha, hab⟩ := h.right b hb
    obtain ⟨c, hc, hac⟩ := hk.left a ha
    exact ⟨c, hc, hq a ha b hb c hc d hd hab hac hbd⟩

theorem Paired.all_eq {p : α → Bool} {p' : β → Bool} (h : Paired R l l')
    (hp : ∀ a b, R a b → p a = p' b) : l.all p = l'.all p' := by
  rw [Bool.eq_iff_iff, List.all_eq_true, List.all_eq_true]
  constructor
  · intro hall b hb
    obtain ⟨a, ha, hab⟩ := h.right b hb
    exact hp a b hab ▸ hall a ha
  · intro hall a ha
    obtain ⟨b, hb, hab⟩ := h.left a ha
    exact (hp a b hab).symm ▸ hall b hb

theorem Paired.any_eq {p : α → Bool} {p' : β → Bool} (h : Paired R l l')
    (hp : ∀ a b, R a b → p a = p' b) : l.any p = l'.any p' := by
  rw [List.any_eq_not_all_not, List.any_eq_not_all_not, h.all_eq]
  exact fun a b hab => congrArg _ (hp a b hab)

end Paired

section SlotsMatch

variable {f : TypeId → TypeId} {base base' s s' r r' : TypeStore} {e e' t : TypeId}

theorem SlotsMatch.mono (h : SlotsMatch f base s s' e e') (he : s.Extends r) (he' : s'.Extends r') :
    SlotsMatch f base r r' e e' := by
  have hj := he.joined (List.forall_mem_singleton.2 h.has)
  have hj' := he'.joined (List.forall_mem_singleton.2 h.has')
  exact ⟨he.has h.has, he'.has h.has', hj.symm ▸ h.old, by rw [hj, hj']; exact h.joined⟩

theorem SlotsMatch.right_unique {u : TypeId} (hs' : s'.Normal) (h : SlotsMatch f base s s' e e')
    (hu : SlotsMatch f base s s' e u) : e' = u :=
  hs'.eq_of_joined (joined_ext fun v => (h.joined v).trans (hu.joined v).symm)

theorem SlotsMatch.left_unique {u : TypeId} (hf : Set.InjOn f {t | base.Has t}) (hs : s.Normal)
    (h : SlotsMatch f base s s' e e') (hu : SlotsMatch f base s s' u e') : e = u := by
  have hmem {l : List TypeId} (hl : ∀ w ∈ l, base.Has w) {v : TypeId} (hv : base.Has v) :
      f v ∈ l.map f ↔ v ∈ l := by
    refine ⟨fun hm => ?_, List.mem_map_of_mem⟩
    obtain ⟨w, hw, heq⟩ := List.mem_map.1 hm
    exact hf (hl w hw) hv heq ▸ hw
  refine hs.eq_of_joined (joined_ext fun v => ⟨fun hv => ?_, fun hv => ?_⟩)
  · rw [← hmem hu.old (h.old v hv), ← hu.joined, h.joined]
    exact List.mem_map_of_mem hv
  · rw [← hmem h.old (hu.old v hv), ← h.joined, hu.joined]
    exact List.mem_map_of_mem hv

variable (hc : base.Corresponds f base') (hb : base.Normal) (hb' : base'.Normal)

include hc hb hb'

theorem SlotsMatch.of_has (hs : base.Extends s) (hs' : base'.Extends s') (he : base.Has e) :
    SlotsMatch f base s s' e (f e) := by
  have hj := hs.joined (List.forall_mem_singleton.2 he)
  have hj' := hs'.joined (List.forall_mem_singleton.2 (hc.has he))
  refine ⟨hs.has he, hs'.has (hc.has he), ?_, fun u => ?_⟩
  · rw [hj]
    exact joined_has hb.wellFormed (List.forall_mem_singleton.2 he)
  · rw [hj, hj']
    exact hc.mem_joined hb hb' he

variable {es es' : List TypeId}

/-- Types join to corresponding types if the one and the other correspond, in whatever order they come. -/
theorem SlotsMatch.mem_joined (h : Paired (SlotsMatch f base s s') es es') :
    (∀ u ∈ s.joined es, base.Has u) ∧ ∀ u, u ∈ s'.joined es' ↔ u ∈ (s.joined es).map f := by
  -- What some type of the second list joins to comes from what its partner joins to.
  have hexists (P : TypeId → Prop) : (∃ e' ∈ es', ∃ u ∈ s'.joined [e'], P u) ↔
      ∃ e ∈ es, ∃ u ∈ s.joined [e], P (f u) := by
    constructor
    · rintro ⟨e', he', u, hu, hp⟩
      obtain ⟨e, he, hm⟩ := h.right e' he'
      obtain ⟨v, hv, rfl⟩ := List.mem_map.1 ((hm.joined u).1 hu)
      exact ⟨e, he, v, hv, hp⟩
    · rintro ⟨e, he, u, hu, hp⟩
      obtain ⟨e', he', hm⟩ := h.left e he
      exact ⟨e', he', f u, (hm.joined _).2 (List.mem_map_of_mem hu), hp⟩
  have hold : ∀ e ∈ es, ∀ u ∈ s.joined [e], base.Has u := fun e he => by
    obtain ⟨e', -, hm⟩ := h.left e he
    exact hm.old
  have hintrinsic {t : TypeId} (ht : t.isIntrinsic) :
      (∃ e' ∈ es', t ∈ s'.joined [e']) ↔ ∃ e ∈ es, t ∈ s.joined [e] := by
    have hiff := hexists (· = t)
    simp only [exists_eq_right] at hiff
    rw [hiff]
    refine exists_congr fun e => and_congr_right fun he => ?_
    constructor
    · rintro ⟨u, hu, heq⟩
      exact (hc.eq_intrinsic_iff hb hb' (hold e he u hu) ht).1 heq ▸ hu
    · exact fun hu => ⟨t, hu, hc.intrinsic hb hb' ht⟩
  have hany := hintrinsic (t := .any) rfl
  have hunknown := hintrinsic (t := .unknown) rfl
  constructor
  · intro u hu
    rw [mem_joined_iff] at hu
    split at hu
    · exact hb.wellFormed.has_intrinsic (hu ▸ rfl)
    · split at hu
      · exact hb.wellFormed.has_intrinsic (hu ▸ rfl)
      · obtain ⟨e, he, hu⟩ := hu
        exact hold e he u hu
  · intro u
    have hes (v : TypeId) : v ∈ s.joined es ↔ _ := mem_joined_iff
    rw [mem_joined_iff, List.mem_map]
    simp only [hes, hany, hunknown]
    split
    · have heq : f .any = .any := hc.intrinsic hb hb' rfl
      simp only [exists_eq_left, heq, eq_comm]
    · split
      · have heq : f .unknown = .unknown := hc.intrinsic hb hb' rfl
        simp only [exists_eq_left, heq, eq_comm]
      · have hiff := hexists (· = u)
        simp only [exists_eq_right] at hiff
        rw [hiff]
        constructor
        · rintro ⟨e, he, v, hv, heq⟩
          exact ⟨v, ⟨e, he, hv⟩, heq⟩
        · rintro ⟨v, ⟨e, he, hv⟩, heq⟩
          exact ⟨e, he, v, hv, heq⟩

/-- So do the types that stand for these joins. -/
theorem SlotsMatch.join (h : Paired (SlotsMatch f base s s') es es') (he : r.Has e) (he' : r'.Has e')
    (hj : r.joined [e] = s.joined es) (hj' : r'.joined [e'] = s'.joined es') :
    SlotsMatch f base r r' e e' := by
  obtain ⟨hold, hjoined⟩ := SlotsMatch.mem_joined hc hb hb' h
  exact ⟨he, he', hj.symm ▸ hold, by rw [hj, hj']; exact hjoined⟩

omit hc hb hb' in
theorem SlotsMatch.all_has (h : Paired (SlotsMatch f base s s') es es') :
    (∀ e ∈ es, s.Has e) ∧ ∀ e' ∈ es', s'.Has e' := by
  constructor
  · intro e he
    obtain ⟨e', -, hm⟩ := h.left e he
    exact hm.has
  · intro e' he'
    obtain ⟨e, -, hm⟩ := h.right e' he'
    exact hm.has'

theorem SlotsMatch.unionOf (hs : s.Normal) (hs' : s'.Normal)
    (h : Paired (SlotsMatch f base s s') es es') :
    SlotsMatch f base (unionOf es s).2 (ScriptToLua.unionOf es' s').2 (ScriptToLua.unionOf es s).1
      (ScriptToLua.unionOf es' s').1 := by
  obtain ⟨hes, hes'⟩ := SlotsMatch.all_has h
  obtain ⟨-, -, hhas⟩ := unionOf_grows hs.wellFormed hes
  obtain ⟨-, -, hhas'⟩ := unionOf_grows hs'.wellFormed hes'
  exact .join hc hb hb' h hhas hhas' (hs.joined_unionOf hes).2 (hs'.joined_unionOf hes').2

theorem SlotsMatch.joinElements (hs : s.Normal) (hs' : s'.Normal)
    (h : Paired (SlotsMatch f base s s') es es') (hne : es ≠ []) :
    SlotsMatch f base (joinElements es s).2 (ScriptToLua.joinElements es' s').2
      (ScriptToLua.joinElements es s).1 (ScriptToLua.joinElements es' s').1 := by
  obtain ⟨hes, hes'⟩ := SlotsMatch.all_has h
  obtain ⟨-, hext, hhas⟩ := joinElements_grows hs.wellFormed hes
  obtain ⟨-, hext', hhas'⟩ := joinElements_grows hs'.wellFormed hes'
  have hj := (joinElements_joined hs hes hne).2.trans (hext.joined hes)
  have hj' := (joinElements_joined hs' hes' (h.ne_nil hne)).2.trans (hext'.joined hes')
  exact .join hc hb hb' h hhas hhas' hj hj'

end SlotsMatch

end ScriptToLua
