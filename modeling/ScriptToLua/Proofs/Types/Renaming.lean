import Mathlib
import ScriptToLua.Proofs.OrderedMap
import ScriptToLua.Proofs.Types.Correspondence
import ScriptToLua.Proofs.Types.Expression

/-!
Shapes in stores that hold the same types under other ids. They are of one kind, with corresponding
types of slots and the same names of members: `shapeAt_matches`. Which of several properties of one name
counts is another matter; the order of members decides that.
-/

namespace ScriptToLua

open TypeStore

/-- The shapes are of one kind, with related types of slots and related members. -/
inductive Shape.Matches (R : TypeId → TypeId → Prop) (N : Members → Members → Prop) :
    Shape → Shape → Prop
  | array {e e' : TypeId} (h : R e e') : Matches R N (.array e) (.array e')
  | record {members members' : Members} (hm : N members members') :
    Matches R N (.record members) (.record members')
  | hybrid {e e' : TypeId} {members members' : Members} (h : R e e') (hm : N members members') :
    Matches R N (.hybrid e members) (.hybrid e' members')
  | other : Matches R N .other .other

/-- The members have the same names. -/
def SameNames (members members' : Members) : Prop :=
  ∀ name, members.contains name = members'.contains name

section Names

variable {shapes shapes' : List Shape} {members members' more more' : Members}

theorem SameNames.insertAll (h : SameNames members members') (hm : SameNames more more') :
    SameNames (members.insertAll more.entries) (members'.insertAll more'.entries) := by
  intro name
  unfold OrderedMap.contains
  rw [OrderedMap.get?_insertAll_entries, OrderedMap.get?_insertAll_entries, Option.isSome_or,
    Option.isSome_or]
  exact congrArg₂ _ (hm name) (h name)

theorem common_contains (hne : shapes ≠ []) (name : String) :
    (common shapes).contains name = shapes.all fun shape => shape.members.contains name := by
  cases shapes with
  | nil => exact absurd rfl hne
  | cons first rest =>
    change ((first.members.filter fun name => rest.all fun shape => shape.members.contains name).get?
      name).isSome = (first.members.contains name && rest.all fun shape => shape.members.contains name)
    rw [OrderedMap.get?_filter]
    cases rest.all fun shape => shape.members.contains name with
    | true => exact (Bool.and_true _).symm
    | false => exact (Bool.and_false _).symm

theorem inherited_append (shapes : List Shape) (shape : Shape) :
    inherited (shapes ++ [shape]) = (inherited shapes).insertAll shape.members.entries := by
  unfold inherited
  rw [List.foldl_append]
  rfl

theorem inherited_contains (shapes : List Shape) (name : String) :
    (inherited shapes).contains name = shapes.any fun shape => shape.members.contains name := by
  induction shapes using List.reverseRecOn with
  | nil => rfl
  | append_singleton shapes shape ih =>
    rw [inherited_append, List.any_append, ← ih]
    unfold OrderedMap.contains
    rw [OrderedMap.get?_insertAll_entries, Option.isSome_or, Bool.or_comm]
    simp

end Names

section Matches

variable {R R' : TypeId → TypeId → Prop} {N N' : Members → Members → Prop} {shape shape' : Shape}
  {shapes shapes' : List Shape} {e e' : TypeId} {members members' : Members}

theorem Shape.Matches.imp (h : shape.Matches R N shape')
    (hr : ∀ e e', shape.element? = some e → R e e' → R' e e')
    (hn : N shape.members shape'.members → N' shape.members shape'.members) :
    shape.Matches R' N' shape' := by
  cases h with
  | array h => exact .array (hr _ _ rfl h)
  | record hm => exact .record (hn hm)
  | hybrid h hm => exact .hybrid (hr _ _ rfl h) (hn hm)
  | other => exact .other

theorem Shape.Matches.isArrayLike (h : shape.Matches R N shape') :
    shape.isArrayLike = shape'.isArrayLike := by
  cases h <;> rfl

theorem Shape.Matches.isRecord (h : shape.Matches R N shape') : shape.isRecord = shape'.isRecord := by
  cases h <;> rfl

theorem Shape.Matches.sameNames (h : shape.Matches R SameNames shape') :
    SameNames shape.members shape'.members := by
  cases h with
  | record hm => exact hm
  | hybrid _ hm => exact hm
  | _ => exact fun _ => rfl

theorem arrayWith_matches (h : R e e') (hm : SameNames members members') :
    (Shape.arrayWith e members).Matches R SameNames (.arrayWith e' members') := by
  have hempty : members.isEmpty = members'.isEmpty := by
    rw [Bool.eq_iff_iff, OrderedMap.isEmpty_iff, OrderedMap.isEmpty_iff]
    exact forall_congr' fun name => by rw [hm name]
  unfold Shape.arrayWith
  rw [hempty]
  split
  · exact .array h
  · exact .hybrid h hm

variable (h : Paired (Shape.Matches R SameNames) shapes shapes')

include h

theorem Paired.elements : Paired R (shapes.filterMap Shape.element?) (shapes'.filterMap Shape.element?) := by
  constructor
  · intro e he
    obtain ⟨shape, hs, heq⟩ := List.mem_filterMap.1 he
    obtain ⟨shape', hs', hm⟩ := h.left shape hs
    cases hm with
    | array hr =>
      cases heq
      exact ⟨_, List.mem_filterMap.2 ⟨_, hs', rfl⟩, hr⟩
    | hybrid hr _ =>
      cases heq
      exact ⟨_, List.mem_filterMap.2 ⟨_, hs', rfl⟩, hr⟩
    | _ => cases heq
  · intro e' he'
    obtain ⟨shape', hs', heq⟩ := List.mem_filterMap.1 he'
    obtain ⟨shape, hs, hm⟩ := h.right shape' hs'
    cases hm with
    | array hr =>
      cases heq
      exact ⟨_, List.mem_filterMap.2 ⟨_, hs, rfl⟩, hr⟩
    | hybrid hr _ =>
      cases heq
      exact ⟨_, List.mem_filterMap.2 ⟨_, hs, rfl⟩, hr⟩
    | _ => cases heq

theorem Paired.common_sameNames (hne : shapes ≠ []) : SameNames (common shapes) (common shapes') := by
  intro name
  rw [common_contains hne, common_contains (h.ne_nil hne)]
  exact h.all_eq fun _ _ hm => hm.sameNames name

theorem Paired.inherited_sameNames : SameNames (inherited shapes) (inherited shapes') := by
  intro name
  rw [inherited_contains, inherited_contains]
  exact h.any_eq fun _ _ hm => hm.sameNames name

end Matches

/-- Working out the shapes in the one and in the other store gives shapes that match. -/
def ShapesMatch (f : TypeId → TypeId) (base s s' : TypeStore) (act act' : TypeM Shape) : Prop :=
  (act s).1.Matches (SlotsMatch f base (act s).2 (act' s').2) SameNames (act' s').1

section Groups

variable {f : TypeId → TypeId} {base base' s s' : TypeStore} {shapes shapes' : List Shape}
  (hc : base.Corresponds f base') (hb : base.Normal) (hb' : base'.Normal) (hs : s.Normal)
  (hs' : s'.Normal) (h : Paired (Shape.Matches (SlotsMatch f base s s') SameNames) shapes shapes')

include hc hb hb' hs hs' h

theorem unionShape_matches (hne : shapes ≠ []) :
    ShapesMatch f base s s' (unionShape shapes) (unionShape shapes') := by
  have hnames := h.common_sameNames hne
  unfold unionShape
  rw [← h.all_eq fun _ _ hm => hm.isArrayLike, ← h.all_eq fun _ _ hm => hm.isRecord]
  split
  · next hall =>
    have hes : shapes.filterMap Shape.element? ≠ [] := by
      obtain ⟨shape, hm⟩ := List.exists_mem_of_ne_nil shapes hne
      obtain ⟨e, he⟩ := Option.isSome_iff_exists.1 (List.all_eq_true.1 hall shape hm)
      exact List.ne_nil_of_mem (List.mem_filterMap.2 ⟨shape, hm, he⟩)
    exact arrayWith_matches (SlotsMatch.joinElements hc hb hb' hs hs' h.elements hes) hnames
  · split
    · exact .record hnames
    · exact .other

/-- Where any of the shapes has slots the slots match, and otherwise what there is instead. -/
theorem slots_match {none none' : TypeM Shape} {members members' : Members}
    (hnames : SameNames members members') (hnone : ShapesMatch f base s s' none none') :
    ShapesMatch f base s s'
      (match shapes.filterMap Shape.element? with
      | [] => none
      | elements => do
        let element ← joinElements elements
        return .arrayWith element members)
      (match shapes'.filterMap Shape.element? with
      | [] => none'
      | elements => do
        let element ← joinElements elements
        return .arrayWith element members') := by
  have hes := h.elements
  generalize shapes.filterMap Shape.element? = es, shapes'.filterMap Shape.element? = es' at hes
  cases es with
  | nil =>
    obtain rfl : es' = [] := List.eq_nil_iff_forall_not_mem.2 fun e' he' => by
      obtain ⟨e, he, -⟩ := hes.right e' he'
      cases he
    exact hnone
  | cons e es =>
    have hne' := hes.ne_nil (List.cons_ne_nil e es)
    cases es' with
    | nil => exact absurd rfl hne'
    | cons e' es' =>
      exact arrayWith_matches
        (SlotsMatch.joinElements hc hb hb' hs hs' hes (List.cons_ne_nil e es)) hnames

theorem intersectionShape_matches :
    ShapesMatch f base s s' (intersectionShape shapes) (intersectionShape shapes') := by
  have hnames := h.inherited_sameNames
  refine slots_match hc hb hb' hs hs' h hnames ?_
  rw [← h.any_eq fun _ _ hm => hm.isRecord]
  unfold ShapesMatch
  split
  · exact .record hnames
  · exact .other

theorem interfaceShape_matches {properties properties' : List Property}
    (hown : SameNames (declared properties) (declared properties')) :
    ShapesMatch f base s s' (interfaceShape shapes properties) (interfaceShape shapes' properties') := by
  have hnames := h.inherited_sameNames.insertAll hown
  exact slots_match hc hb hb' hs hs' h hnames (.record hnames)

end Groups

section Runs

variable {base s s' : TypeStore} {t : TypeId} {ts es : List TypeId} {shapes : List Shape}

theorem TypeStore.Grown.trans (h : base.Grown s) (h' : s.Grown s') : base.Grown s' :=
  ⟨h'.normal, h.extends_.trans h'.extends_⟩

theorem joinElements_normal (hs : s.Normal) (he : ∀ e ∈ es, s.Has e) :
    (joinElements es s).2.Normal := by
  by_cases hne : es = []
  · subst hne
    exact hs
  · exact (joinElements_joined hs he hne).1

theorem slots_normal (hs : s.Normal) (h : ∀ shape ∈ shapes, HasElement s shape)
    {none : TypeM Shape} {members : Members} (hnone : (none s).2.Normal) :
    ((match shapes.filterMap Shape.element? with
      | [] => none
      | elements => do
        let element ← joinElements elements
        return .arrayWith element members) s).2.Normal := by
  have hes := elements_has h
  generalize shapes.filterMap Shape.element? = es at hes
  cases es with
  | nil => exact hnone
  | cons e es => exact joinElements_normal hs hes

theorem unionShape_normal (hs : s.Normal) (h : ∀ shape ∈ shapes, HasElement s shape) :
    (unionShape shapes s).2.Normal := by
  unfold unionShape
  split
  · exact joinElements_normal hs (elements_has h)
  · split <;> exact hs

/-- What several computations in a row have in the end: each result is that of a computation in a
store in between. -/
theorem mapM_grown {g : TypeId → TypeM Shape}
    (hg : ∀ r t, base.Grown r → base.Has t → r.Grown (g t r).2) (hs : base.Grown s)
    (ht : ∀ t ∈ ts, base.Has t) :
    s.Grown (ts.mapM g s).2 ∧
      Paired (fun t shape => ∃ r, base.Grown r ∧ shape = (g t r).1 ∧
        (g t r).2.Extends (ts.mapM g s).2) ts (ts.mapM g s).1 := by
  induction ts generalizing s with
  | nil => exact ⟨⟨hs.normal, .refl s⟩, nofun, nofun⟩
  | cons t ts ih =>
    have hstep := hg s t hs (ht t List.mem_cons_self)
    obtain ⟨hend, hpaired⟩ := ih (hs.trans hstep) fun u hu => ht u (List.mem_cons_of_mem t hu)
    have hrun : (t :: ts).mapM g s =
        ((g t s).1 :: (ts.mapM g (g t s).2).1, (ts.mapM g (g t s).2).2) := by
      rw [List.mapM_cons]
      rfl
    rw [hrun]
    refine ⟨hstep.trans hend, fun u hu => ?_, fun shape hshape => ?_⟩
    · rcases List.mem_cons.1 hu with rfl | hu
      · exact ⟨_, List.mem_cons_self, s, hs, rfl, hend.extends_⟩
      · obtain ⟨shape, hshape, hr⟩ := hpaired.left u hu
        exact ⟨shape, List.mem_cons_of_mem _ hshape, hr⟩
    · rcases List.mem_cons.1 hshape with rfl | hshape
      · exact ⟨t, List.mem_cons_self, s, hs, rfl, hend.extends_⟩
      · obtain ⟨u, hu, hr⟩ := hpaired.right shape hshape
        exact ⟨u, List.mem_cons_of_mem t hu, hr⟩

/-- Working out a shape keeps unions in their normal form. -/
theorem shapeAt_grown (n : Nat) (hs : s.Normal) (ht : s.Has t) : s.Grown (shapeAt n t s).2 := by
  induction n generalizing s t with
  | zero => exact ⟨hs, .refl s⟩
  | succ n ih =>
    obtain ⟨-, hext, -⟩ := shapeAt_grows (n + 1) hs.wellFormed ht
    refine ⟨?_, hext⟩
    have hmap {ts : List TypeId} (hts : ∀ u ∈ ts, s.Has u) :
        (ts.mapM (shapeAt n) s).2.Normal ∧
          ∀ shape ∈ (ts.mapM (shapeAt n) s).1, HasElement (ts.mapM (shapeAt n) s).2 shape := by
      obtain ⟨hend, -⟩ := mapM_grown (fun r u hr hu => ih hr.normal (hr.extends_.has hu))
        ⟨hs, .refl s⟩ hts
      obtain ⟨-, -, helement⟩ := mapM_grows (fun s t hs ht => shapeAt_grows n hs ht) hs.wellFormed hts
      exact ⟨hend.normal, helement⟩
    cases hd : s.get? t with
    | none =>
      rw [shapeAt_of_none _ hd]
      exact hs
    | some d =>
      have hm := hs.wellFormed.closed t d hd
      rw [shapeAt_of_get? n hd]
      cases d with
      | tuple elements =>
        cases elements with
        | nil => exact hs
        | cons u us => exact (hs.joined_unionOf hm).1
      | union members => exact unionShape_normal (hmap hm).1 (hmap hm).2
      | intersection members =>
        refine slots_normal (hmap hm).1 (hmap hm).2 ?_
        exact (hmap hm).1
      | interface name bases properties =>
        have hbases := hmap fun u hu => hm u (List.mem_append_left _ hu)
        exact slots_normal hbases.1 hbases.2 hbases.1
      | parameter name constraint =>
        cases constraint with
        | none => exact hs
        | some c => exact (ih hs (hm c List.mem_cons_self)).normal
      | _ => exact hs

end Runs

section Shapes

variable {f : TypeId → TypeId} {base base' s s' : TypeStore} {t : TypeId}

theorem declared_rename (properties : List Property) (name : String) :
    (declared (properties.map (Property.rename f))).get? name =
      ((declared properties).get? name).map (Property.rename f) := by
  have hmap : (properties.map (Property.rename f)).map (fun p => (p.name, p)) =
      (properties.map fun p => (p.name, p)).map fun e => (e.1, e.2.rename f) := by
    rw [List.map_map, List.map_map]
    rfl
  unfold declared OrderedMap.ofList
  rw [hmap]
  exact OrderedMap.get?_insertAll_map (fun _ => rfl) _ name

theorem declared_sameNames (properties : List Property) :
    SameNames (declared properties) (declared (properties.map (Property.rename f))) := by
  intro name
  unfold OrderedMap.contains
  rw [declared_rename, Option.isSome_map]

variable (hc : base.Corresponds f base') (hb : base.Normal) (hb' : base'.Normal)

include hc hb hb'

omit hb hb' in
/-- The step from types to the groups that they are in. -/
theorem mapM_matches {n : Nat}
    (hn : ∀ {r r' : TypeStore} {t : TypeId}, base.Grown r → base'.Grown r' → base.Has t →
      ShapesMatch f base r r' (shapeAt n t) (shapeAt n (f t)))
    (hs : base.Grown s) (hs' : base'.Grown s') {ts ts' : List TypeId} (ht : ∀ t ∈ ts, base.Has t)
    (hiff : ∀ u, u ∈ ts' ↔ u ∈ ts.map f) :
    (ts.mapM (shapeAt n) s).2.Normal ∧ (ts'.mapM (shapeAt n) s').2.Normal ∧
      (ts ≠ [] → (ts.mapM (shapeAt n) s).1 ≠ []) ∧
      Paired (Shape.Matches
        (SlotsMatch f base (ts.mapM (shapeAt n) s).2 (ts'.mapM (shapeAt n) s').2) SameNames)
        (ts.mapM (shapeAt n) s).1 (ts'.mapM (shapeAt n) s').1 := by
  have ht' : ∀ t' ∈ ts', base'.Has t' := by
    intro t' hmem'
    obtain ⟨t, hmem, rfl⟩ := List.mem_map.1 ((hiff t').1 hmem')
    exact hc.has (ht t hmem)
  obtain ⟨hend, hresults⟩ := mapM_grown
    (fun r t hr hu => shapeAt_grown n hr.normal (hr.extends_.has hu)) hs ht
  obtain ⟨hend', hresults'⟩ := mapM_grown
    (fun r t hr hu => shapeAt_grown n hr.normal (hr.extends_.has hu)) hs' ht'
  refine ⟨hend.normal, hend'.normal, hresults.ne_nil,
    (Paired.of_mem_iff hiff).images hresults hresults' ?_⟩
  rintro t hmem _ - _ - _ - rfl ⟨r, hr, rfl, hext⟩ ⟨r', hr', rfl, hext'⟩
  exact (hn hr hr' (ht t hmem)).imp (fun e e' _ h => h.mono hext hext') id

/-- The shapes of corresponding types match, in whatever stores grown out of the two they are worked
out. -/
theorem shapeAt_matches (n : Nat) (hs : base.Grown s) (hs' : base'.Grown s') (ht : base.Has t) :
    ShapesMatch f base s s' (shapeAt n t) (shapeAt n (f t)) := by
  -- The stores vary: a member of a group is worked out in what the members before it have left.
  induction n generalizing s s' t with
  | zero => exact .other
  | succ n ih =>
    have hget := hs.extends_.get? ht
    have hget' := hs'.extends_.get? (hc.has ht)
    have hd : base.get? t = some base.types[t.index] := Array.getElem?_eq_getElem ht
    obtain ⟨d', hd', hr⟩ := hc.data t _ hd
    generalize base.types[t.index] = d at hd hr
    have hm := hb.wellFormed.closed t d hd
    have hold {e : TypeId} (he : base.Has e) : SlotsMatch f base s s' e (f e) :=
      .of_has hc hb hb' hs.extends_ hs'.extends_ he
    unfold ShapesMatch
    rw [shapeAt_of_get? n (hget.trans hd), shapeAt_of_get? n (hget'.trans hd')]
    cases hr with
    | array element => exact .array (hold (hm element List.mem_cons_self))
    | tuple elements =>
      cases elements with
      | nil =>
        have heq : f .unknown = .unknown := hc.intrinsic hb hb' rfl
        have hunknown := hold (hb.wellFormed.has_intrinsic (t := .unknown) rfl)
        rw [heq] at hunknown
        exact .array hunknown
      | cons u us =>
        have hpaired := (Paired.of_mem_iff (f := f) fun _ => Iff.rfl).imp fun e he e' heq =>
          (heq ▸ hold (hm e he) : SlotsMatch f base s s' e e')
        exact .array (SlotsMatch.unionOf hc hb hb' hs.normal hs'.normal hpaired)
    | object properties => exact .record (declared_sameNames properties)
    | @union members members' h =>
      obtain ⟨hend, hend', hne, hpaired⟩ := mapM_matches hc ih hs hs' hm h
      have hseveral : 0 < members.length :=
        Nat.lt_of_lt_of_le Nat.zero_lt_two (hb.union t members hd).several
      exact unionShape_matches hc hb hb' hend hend' hpaired (hne (List.ne_nil_of_length_pos hseveral))
    | intersection h =>
      obtain ⟨hend, hend', -, hpaired⟩ := mapM_matches hc ih hs hs' hm h
      exact intersectionShape_matches hc hb hb' hend hend' hpaired
    | interface name bases properties =>
      obtain ⟨hend, hend', -, hpaired⟩ := mapM_matches hc ih hs hs'
        (fun u hu => hm u (List.mem_append_left _ hu)) fun _ => Iff.rfl
      exact interfaceShape_matches hc hb hb' hend hend' hpaired (declared_sameNames properties)
    | parameter name constraint =>
      cases constraint with
      | none => exact .other
      | some c => exact ih hs hs' (hm c List.mem_cons_self)
    | _ => exact .other

end Shapes

end ScriptToLua
