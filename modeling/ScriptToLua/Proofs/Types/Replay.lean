import Mathlib
import ScriptToLua.Proofs.Types.Expression
import ScriptToLua.Proofs.Types.Interning
import ScriptToLua.Proofs.Types.Join
import ScriptToLua.Proofs.Types.Primitive

/-!
What has been worked out about types stays as it is: the same question in any later store has the same
answer and stores nothing more, `shapeAt_replays` and `typeAt_replays`. No operation on the store can
change the shape of a type that was classified before it, `shapeOf_run`.
-/

namespace ScriptToLua

open Source (Arena Node NodeId)
open TypeStore

/-- Once the computation has run, it has the same result in every later store and adds nothing. -/
def Replays {α : Type} (s : TypeStore) (act : TypeM α) : Prop :=
  ∀ σ, (act s).2.Extends σ → act σ = ((act s).1, σ)

section Replays

variable {α β : Type} {s : TypeStore} {t : TypeId} {ts : List TypeId}

theorem Replays.run {act : TypeM α} {a : α} {s' σ : TypeStore} (h : Replays s act)
    (hr : act s = (a, s')) (hσ : s'.Extends σ) : act σ = (a, σ) := by
  have hrun := h σ (by rwa [hr])
  rwa [hr] at hrun

theorem Replays.pure (a : α) : Replays s (Pure.pure a) := fun _ _ => rfl

theorem Replays.bind {act : TypeM α} {next : α → TypeM β} (h : Replays s act)
    (he : (act s).2.Extends (next (act s).1 (act s).2).2)
    (hn : Replays (act s).2 (next (act s).1)) : Replays s (act >>= next) := by
  intro σ hσ
  change (fun r => next r.1 r.2) (act σ) = _
  rw [h σ (he.trans hσ)]
  exact hn σ hσ

theorem Replays.map {act : TypeM α} (h : Replays s act) (f : α → β) :
    Replays s (do return f (← act)) := h.bind (.refl _) (.pure _)

/-- The computation does in this store and all later ones what another one does. -/
theorem Replays.congr {act act' : TypeM α} (h : ∀ σ, s.Extends σ → act σ = act' σ)
    (he : s.Extends (act' s).2) (hr : Replays s act') : Replays s act := by
  intro σ hσ
  rw [h s (.refl s)] at hσ ⊢
  rw [h σ (he.trans hσ)]
  exact hr σ hσ

theorem intern_replays (d : TypeData) : Replays s (intern d) := by
  have hfound {σ : TypeStore} {u : TypeId} (h : σ.idOf? d = some u) : intern d σ = (u, σ) := by
    rw [intern, h]
  rintro σ ⟨added, hσ⟩
  unfold intern at hσ
  cases h : s.idOf? d with
  | some u =>
    rw [h] at hσ
    rw [hfound h]
    refine hfound ?_
    obtain ⟨i, hi, rfl⟩ := Option.map_eq_some_iff.1 h
    rw [idOf?, hσ, Array.findIdx?_append, hi]
    rfl
  | none =>
    rw [h] at hσ
    have hnew : intern d s = (⟨s.size⟩, ⟨s.types.push d⟩) := by rw [intern, h]
    rw [hnew]
    refine hfound ?_
    rw [idOf?, hσ, Array.findIdx?_append, Array.findIdx?_push, Option.map_eq_none_iff.1 h]
    simp [TypeStore.size]

theorem joinName_replays : Replays s (joinName ts) := by
  match ts with
  | [] => exact .pure _
  | [t] => exact .pure t
  | t :: u :: rest => exact intern_replays _

theorem unionOf_replays (hs : s.WellFormed) (h : ∀ t ∈ ts, s.Has t) : Replays s (unionOf ts) := by
  obtain ⟨-, he, -⟩ := unionOf_grows hs h
  rw [unionOf_eq_joinName] at he
  have hjoin (σ : TypeStore) (hσ : s.Extends σ) : unionOf ts σ = joinName (s.joined ts) σ := by
    rw [unionOf_eq_joinName, hσ.joined h]
  exact .congr hjoin he joinName_replays

theorem joinElements_replays (hs : s.WellFormed) (h : ∀ t ∈ ts, s.Has t) :
    Replays s (joinElements ts) := by
  match ts with
  | [] => exact .pure _
  | [t] => exact .pure t
  | t :: u :: rest => exact unionOf_replays hs h

section Shapes

variable {shapes : List Shape} (hs : s.WellFormed) (h : ∀ shape ∈ shapes, HasElement s shape)

include hs h

theorem unionShape_replays : Replays s (unionShape shapes) := by
  unfold unionShape
  split
  · exact (joinElements_replays hs (elements_has h)).map _
  · split <;> exact .pure _

theorem slots_replays {none : TypeM Shape} (hn : Replays s none) (members : Members) :
    Replays s
      (match shapes.filterMap Shape.element? with
      | [] => none
      | elements => do
        let element ← joinElements elements
        return .arrayWith element members) := by
  have hhas := elements_has h
  cases hes : shapes.filterMap Shape.element? with
  | nil => exact hn
  | cons e es => exact (joinElements_replays hs (hes ▸ hhas)).map _

theorem intersectionShape_replays : Replays s (intersectionShape shapes) :=
  slots_replays hs h (.pure _) _

theorem interfaceShape_replays (properties : List Property) :
    Replays s (interfaceShape shapes properties) := slots_replays hs h (.pure _) _

end Shapes

theorem mapM_replays {f : TypeId → TypeM Shape}
    (hf : ∀ s t, s.WellFormed → s.Has t → Grows s HasElement (f t) ∧ Replays s (f t))
    (hs : s.WellFormed) (ht : ∀ t ∈ ts, s.Has t) : Replays s (ts.mapM f) := by
  induction ts generalizing s with
  | nil => exact .pure _
  | cons t ts ih =>
    obtain ⟨⟨hs₁, he₁, -⟩, hr⟩ := hf s t hs (ht t List.mem_cons_self)
    have hts : ∀ u ∈ ts, (f t s).2.Has u := fun u hu => he₁.has (ht u (List.mem_cons_of_mem t hu))
    obtain ⟨-, he₂, -⟩ := mapM_grows (fun s t hs ht => (hf s t hs ht).1) hs₁ hts
    rw [List.mapM_cons]
    exact hr.bind he₂ ((ih hs₁ hts).map _)

theorem shapeAt_replays (room : Nat) (hs : s.WellFormed) (ht : s.Has t) :
    Replays s (shapeAt room t) := by
  induction room generalizing s t with
  | zero => exact .pure _
  | succ room ih =>
    have hmap {us : List TypeId} (hus : ∀ u ∈ us, s.Has u) : Replays s (us.mapM (shapeAt room)) :=
      mapM_replays (fun s t hs ht => ⟨shapeAt_grows room hs ht, ih hs ht⟩) hs hus
    have hgrows {us : List TypeId} (hus : ∀ u ∈ us, s.Has u) :=
      mapM_grows (fun s t hs ht => shapeAt_grows room hs ht) hs hus
    cases hd : s.get? t with
    | none =>
      have hrun (σ : TypeStore) (hσ : s.Extends σ) := shapeAt_of_none (room + 1) ((hσ.get? ht).trans hd)
      exact .congr hrun (.refl s) (.pure Shape.other)
    | some d =>
      have hm := hs.closed t d hd
      have hrun (σ : TypeStore) (hσ : s.Extends σ) :
          shapeAt (room + 1) t σ = d.shapeFrom (shapeAt room) σ :=
        shapeAt_of_get? room ((hσ.get? ht).trans hd)
      obtain ⟨-, hext, -⟩ := shapeAt_grows (room + 1) hs ht
      rw [hrun s (.refl s)] at hext
      apply Replays.congr hrun hext
      cases d with
      | tuple elements =>
        cases elements with
        | nil => exact .pure _
        | cons e es => exact (unionOf_replays hs hm).map _
      | union members =>
        obtain ⟨hs', -, he⟩ := hgrows hm
        exact (hmap hm).bind (unionShape_grows hs' he).2.1 (unionShape_replays hs' he)
      | intersection members =>
        obtain ⟨hs', -, he⟩ := hgrows hm
        exact (hmap hm).bind (intersectionShape_grows hs' he).2.1 (intersectionShape_replays hs' he)
      | interface name bases properties =>
        have hb : ∀ u ∈ bases, s.Has u := fun u hu => hm u (List.mem_append_left _ hu)
        obtain ⟨hs', -, he⟩ := hgrows hb
        exact (hmap hb).bind (interfaceShape_grows hs' he properties).2.1
          (interfaceShape_replays hs' he properties)
      | parameter name constraint =>
        cases constraint with
        | none => exact .pure _
        | some constraint => exact ih hs (hm constraint List.mem_cons_self)
      | _ => exact .pure _

theorem shapeOf_replays (hs : s.WellFormed) (ht : s.Has t) : Replays s (shapeOf t) :=
  shapeAt_replays maxShapeDepth hs ht

/-- Once a type has been classified, and whatever is done with the store after that, classifying it
yields the same shape, of the same elements and members, and stores nothing. -/
theorem shapeOf_run (hs : s.WellFormed) (ht : s.Has t) (operations : List Operation) :
    let later := (shapeOf t s).2.run operations
    shapeOf t later = ((shapeOf t s).1, later) :=
  shapeOf_replays hs ht _ (run_interned _ operations).extends_

/-- `interface Loop extends Loop, Array<number>, Array<string>`. -/
def mixedLoopStore : TypeStore :=
  ⟨TypeStore.initial.types ++
    #[.array .number, .array .string, .interface "Loop" [⟨9⟩, ⟨7⟩, ⟨8⟩] []]⟩

theorem mixedLoopStore_wellFormed : mixedLoopStore.WellFormed :=
  wellFormed_of_mentions ⟨_, rfl⟩ (by decide)

/-- The first time, the union of the elements is stored for the interface; a union that contains
itself and further types come after it. -/
theorem shapeOf_run_of_mixed :
    let operations := [.store (.union [⟨11⟩]), .union [⟨11⟩, ⟨9⟩], .classify ⟨12⟩]
    let later := (shapeOf ⟨9⟩ mixedLoopStore).2.run operations
    mixedLoopStore.WellFormed ∧ mixedLoopStore.Has ⟨9⟩ ∧
      (shapeOf ⟨9⟩ mixedLoopStore).1.element? = some ⟨10⟩ ∧
      later.types.toList.drop 10 =
        [.union [.number, .string], .union [⟨11⟩], .union [⟨9⟩, ⟨11⟩]] ∧
      shapeOf ⟨9⟩ later = ((shapeOf ⟨9⟩ mixedLoopStore).1, later) :=
  ⟨mixedLoopStore_wellFormed, by decide, by decide +kernel, by decide +kernel,
    shapeOf_run mixedLoopStore_wellFormed (by decide) _⟩

end Replays

/-- The computation adds to the store, its result has `P`, and it has that result ever after. -/
def Settles {α : Type} (s : TypeStore) (P : TypeStore → α → Prop) (act : TypeM α) : Prop :=
  Grows s P act ∧ Replays s act

theorem Settles.bind {α β : Type} {s : TypeStore} {P : TypeStore → α → Prop}
    {Q : TypeStore → β → Prop} {act : TypeM α} {next : α → TypeM β} (h : Settles s P act)
    (hn : ∀ a s', s'.WellFormed → s.Extends s' → P s' a → Settles s' Q (next a)) :
    Settles s Q (act >>= next) := by
  obtain ⟨hw, he, hp⟩ := h.1
  obtain ⟨hgrows, hreplays⟩ := hn _ _ hw he hp
  exact ⟨h.1.bind fun a s' hw he hp => (hn a s' hw he hp).1, h.2.bind hgrows.2.1 hreplays⟩

theorem Settles.replays_bind {α β : Type} {s : TypeStore} {P : TypeStore → α → Prop}
    {act : TypeM α} {next : α → TypeM β} (h : Settles s P act)
    (hn : ∀ a s', s'.WellFormed → s.Extends s' → P s' a →
      Settles s' (fun _ _ => True) (next a)) : Replays s (act >>= next) := (h.bind hn).2

section Typing

open Typing

variable {a : Arena} {f : TypeFacts} {s : TypeStore}

theorem shapeOf_settles {t : TypeId} (hs : s.WellFormed) (ht : s.Has t) :
    Settles s (fun _ _ => True) (shapeOf t) := by
  obtain ⟨hw, he, -⟩ := shapeOf_grows hs ht
  exact ⟨⟨hw, he, trivial⟩, shapeOf_replays hs ht⟩

/-- A look at the store that sees stored types only. -/
theorem ask_settles {α : Type} {ask : TypeStore → α} (hs : s.WellFormed)
    (h : ∀ σ, s.Extends σ → ask σ = ask s) :
    Settles s (fun _ _ => True) (do return ask (← get)) := by
  refine ⟨⟨hs, .refl s, trivial⟩, fun σ hσ => ?_⟩
  change (ask σ, σ) = (ask s, σ)
  rw [h σ hσ]

theorem sumType_extends {σ : TypeStore} {l r : TypeId} (hs : s.WellFormed) (he : s.Extends σ)
    (hl : s.Has l) (hr : s.Has r) : sumType σ l r = sumType s l r := by
  rw [sumType, sumType, he.isStringLike hs hl, he.isStringLike hs hr]

theorem resultType_extends {σ : TypeStore} {t : TypeId} (he : s.Extends σ) (ht : s.Has t) :
    resultType σ t = resultType s t := by
  rw [resultType, resultType, he.get? ht]

section Parts

variable {typeOf : NodeId → TypeM TypeId}
  (h : ∀ s' id, s'.WellFormed → s.Extends s' → Settles s' Has (typeOf id))

include h

theorem binaryType_replays (hs : s.WellFormed) (left : NodeId) (op : Source.BinaryOp)
    (right : NodeId) : Replays s (binaryType typeOf left op right) := by
  have hpair {next : TypeId → TypeId → TypeM TypeId}
      (hn : ∀ s' l r, s'.WellFormed → s'.Has l → s'.Has r →
        Settles s' (fun _ _ => True) (next l r)) :
      Replays s (do
        let l ← typeOf left
        let r ← typeOf right
        next l r) := by
    refine (h s left hs (.refl s)).replays_bind fun l s₁ hs₁ he₁ hl => ?_
    refine (h s₁ right hs₁ he₁).bind fun r s₂ hs₂ he₂ hr => ?_
    exact hn s₂ l r hs₂ (he₂.has hl) hr
  have hunion : Replays s (do
      let l ← typeOf left
      let r ← typeOf right
      unionOf [l, r]) := by
    refine hpair fun s' l r hs' hl hr => ?_
    have hmem : ∀ t ∈ [l, r], s'.Has t := by
      intro t ht
      rcases List.mem_pair.1 ht with rfl | rfl
      · exact hl
      · exact hr
    obtain ⟨hw, he, -⟩ := unionOf_grows hs' hmem
    exact ⟨⟨hw, he, trivial⟩, unionOf_replays hs' hmem⟩
  cases op with
  | add =>
    exact hpair fun s' l r hs' hl hr =>
      ask_settles hs' fun σ he => sumType_extends hs' he hl hr
  | and => exact hunion
  | or => exact hunion
  | _ => exact .pure _

theorem nodeType_replays (hs : s.WellFormed) (n : Node) : Replays s (nodeType a f typeOf n) := by
  cases n with
  | parenthesized inner => exact (h s inner hs (.refl s)).2
  | assign target op value => exact (h s value hs (.refl s)).2
  | binary left op right => exact binaryType_replays h hs left op right
  | unary op operand => cases op <;> exact .pure _
  | call callee arguments =>
    refine (h s callee hs (.refl s)).replays_bind fun t s₁ hs₁ he₁ ht => ?_
    exact ask_settles hs₁ fun σ he => resultType_extends he ht
  | property receiver name =>
    refine (h s receiver hs (.refl s)).replays_bind fun t s₁ hs₁ he₁ ht => ?_
    refine (shapeOf_settles hs₁ ht).bind fun shape s₂ hs₂ he₂ _ => ?_
    exact ⟨.pure hs₂ trivial, .pure _⟩
  | element receiver key =>
    refine (h s receiver hs (.refl s)).replays_bind fun t s₁ hs₁ he₁ ht => ?_
    refine (shapeOf_settles hs₁ ht).bind fun shape s₂ hs₂ he₂ _ => ?_
    exact ⟨.pure hs₂ trivial, .pure _⟩
  | _ => exact .pure _

end Parts

theorem typeAt_settles (room : Nat) (hs : s.WellFormed) (hf : f.Stored a s) (id : NodeId) :
    Settles s Has (typeAt a f room id) := by
  refine ⟨typeAt_grows room hs hf id, ?_⟩
  induction room generalizing s id with
  | zero => exact .pure _
  | succ room ih =>
    unfold typeAt
    split
    · exact .pure _
    · split
      · exact nodeType_replays (fun s' id hs' he =>
          ⟨typeAt_grows room hs' (hf.extends_ he) id, ih hs' (hf.extends_ he) id⟩) hs _
      · exact .pure _

/-- The type of an expression is the same whenever it is asked for again. -/
theorem expressionType_replays (hs : s.WellFormed) (hf : f.Stored a s) (id : NodeId) :
    Replays s (f.expressionType a id) := (typeAt_settles maxNesting hs hf id).2

end Typing

end ScriptToLua
