import Mathlib
import ScriptToLua.Proofs.Lowering.Independence
import ScriptToLua.Proofs.Source.Parentheses
import ScriptToLua.Proofs.Types.Additions
import ScriptToLua.Proofs.Types.Nesting

/-!
Parentheses around an expression leave the types of all expressions as they are:
`expressionType_stands`. The one exception are keys: a string names a declared member only where no
parentheses are around it.
-/

namespace ScriptToLua

open Source (Arena Node NodeId Span Stands)

/-- If the node at `w` is a string between the brackets of an access, it names no member that the type
of the receiver declares. -/
def NamesNoMember (a : Arena) (facts : TypeFacts) (base : TypeStore) (w : NodeId) : Prop :=
  ∀ id receiver x, a.get? id = some (.element receiver w) → a.get? w = some (.string x) →
    ∀ s s', base.Extends s → base.Extends s' →
      (shapeOf (facts.expressionType a receiver s).1 s').1.member? x = none

section Stands

variable {a : Arena} {facts : TypeFacts} {base : TypeStore} {w id id' : NodeId} {span : Span}
  {levels : Nat} {n : Node}

/-- What stands for a child is nested less deeply than what stands for the node. -/
theorem nestsWithin_child_shiftFrom {c : NodeId} (hn : a.get? id = some n)
    (hnest : (a.parenthesize w span).nestsWithin (levels + 1) (w.shiftAfter id))
    (hc : c ∈ n.children) : (a.parenthesize w span).nestsWithin levels (w.shiftFrom c) :=
  List.all_eq_true.1 hnest _ (Arena.mem_children_shiftAfter hn hc)

theorem nestsWithin_stands (hw : a.Has w) (h : Stands w id id')
    (hnest : (a.parenthesize w span).nestsWithin levels id') : a.nestsWithin levels id := by
  induction levels generalizing id id' with
  | zero => cases hnest
  | succ levels ih =>
    cases h with
    | node =>
      cases hn : a.get? id with
      | none => rw [Arena.nestsWithin, Arena.children_of_get?_none hn, List.all_nil]
      | some n =>
        rw [Arena.nestsWithin, Arena.children_of_get? hn]
        exact List.all_eq_true.2 fun c hc =>
          ih (.reference w c) (nestsWithin_child_shiftFrom hn hnest hc)
    | parens =>
      have hinner :=
        nestsWithin_child hnest (Arena.get?_shiftFrom_self hw) (List.mem_singleton_self w)
      exact nestsWithin_succ (ih (.self w) hinner)

end Stands

namespace Typing

variable {a : Arena} {facts : TypeFacts} {base : TypeStore} {w id id' : NodeId} {span : Span}
  {typeOf typeOf' : NodeId → TypeM TypeId} {n : Node}

theorem binaryType_same (op : Source.BinaryOp) {left right left' right' : NodeId}
    (hleft : SameFrom base (typeOf left) (typeOf' left'))
    (hright : SameFrom base (typeOf right) (typeOf' right')) :
    SameFrom base (binaryType typeOf left op right) (binaryType typeOf' left' op right') := by
  cases op with
  | add =>
    exact hleft.bind fun _ _ => hright.bind fun _ _ => SameFrom.get.bind fun _ _ => .pure _
  | and | or =>
    exact hleft.bind fun _ _ => hright.bind fun _ _ =>
      .of_onlyAdds (unionOf_interns _).onlyAdds
  | _ => exact .pure _

/-- The same key gives the same member, in parentheses or not, unless it is a string that names one. -/
theorem elementType_same (hw : a.Has w) {key : NodeId} {shape : Shape}
    (hkey : ∀ x, key = w → a.get? w = some (.string x) → shape.member? x = none) :
    elementType shape ((a.parenthesize w span).get? (w.shiftFrom key)) =
      elementType shape (a.get? key) := by
  by_cases hk : key = w
  · subst hk
    rw [Arena.get?_shiftFrom_self hw]
    cases hn : a.get? key with
    | none => rfl
    | some n =>
      cases n with
      | string x => simp only [elementType, hkey x rfl hn]
      | _ => rfl
  · rw [NodeId.shiftFrom_eq hk, Arena.get?_shiftAfter]
    cases a.get? key with
    | none => rfl
    | some n => cases n <;> rfl

theorem nodeType_same (hw : a.Has w)
    (htype : ∀ c ∈ n.children, SameFrom base (typeOf c) (typeOf' (w.shiftFrom c)))
    (hkey : ∀ receiver x, n = .element receiver w → a.get? w = some (.string x) →
      ∀ s s', base.Extends s → base.Extends s' →
        (shapeOf (typeOf receiver s).1 s').1.member? x = none) :
    SameFrom base (nodeType a facts typeOf n)
      (nodeType (a.parenthesize w span) facts typeOf' (n.mapRefs w.shiftFrom)) := by
  cases n with
  | parenthesized inner => exact htype inner List.mem_cons_self
  | assign target op value => exact htype value (List.mem_cons_of_mem _ List.mem_cons_self)
  | unary op operand => cases op <;> exact .pure _
  | binary left op right =>
    exact binaryType_same op (htype left List.mem_cons_self)
      (htype right (List.mem_cons_of_mem _ List.mem_cons_self))
  | call callee arguments =>
    exact (htype callee List.mem_cons_self).bind fun _ _ => SameFrom.get.bind fun _ _ => .pure _
  | property receiver name =>
    exact (htype receiver List.mem_cons_self).bind fun _ _ =>
      (SameFrom.of_onlyAdds (shapeOf_onlyAdds _)).bind fun _ _ => .pure _
  | element receiver key =>
    refine (htype receiver List.mem_cons_self).bind fun s hs => ?_
    refine (SameFrom.of_onlyAdds (shapeOf_onlyAdds _)).bind fun s' hs' => ?_
    rw [elementType_same hw fun x hk hx => hkey receiver x (by rw [hk]) hx s s' hs hs']
    exact .pure _
  | _ => exact .pure _

theorem typeAt_stands (hw : a.Has w) (hfacts : ∀ id, facts.nodes.get? id = none)
    (hkey : NamesNoMember a facts base w) {levels room room' : Nat} (h : Stands w id id')
    (hnest : (a.parenthesize w span).nestsWithin levels id') (hlevels : levels ≤ maxNesting)
    (hroom : levels ≤ room) (hroom' : levels ≤ room') :
    SameFrom base (typeAt a facts room id) (typeAt (a.parenthesize w span) facts room' id') := by
  induction levels generalizing id id' room room' with
  | zero => cases hnest
  | succ levels ih =>
    obtain ⟨room', rfl⟩ : ∃ k, room' = k + 1 := ⟨room' - 1, by omega⟩
    cases h with
    | parens =>
      have hinner :=
        nestsWithin_child hnest (Arena.get?_shiftFrom_self hw) (List.mem_singleton_self w)
      have htype : typeAt (a.parenthesize w span) facts (room' + 1) (w.shiftFrom w) =
          typeAt (a.parenthesize w span) facts room' w := by
        rw [typeAt_node (hfacts _) (Arena.get?_shiftFrom_self hw), nodeType]
      rw [htype]
      exact ih (.self w) hinner (by omega) (by omega) (by omega)
    | node =>
      obtain ⟨room, rfl⟩ : ∃ k, room = k + 1 := ⟨room - 1, by omega⟩
      unfold typeAt
      rw [hfacts, hfacts, Arena.get?_shiftAfter]
      cases hn : a.get? id with
      | none => exact .pure _
      | some n =>
        have hchild {c : NodeId} (hc : c ∈ n.children) :
            (a.parenthesize w span).nestsWithin levels (w.shiftFrom c) :=
          nestsWithin_child_shiftFrom hn hnest hc
        refine nodeType_same hw (fun c hc => ?_) fun receiver x hnode hx s s' hs hs' => ?_
        · exact ih (.reference w c) (hchild hc) (by omega) (by omega) (by omega)
        · have hreceiver : a.nestsWithin levels receiver :=
            nestsWithin_stands hw (.reference w receiver) (hchild (hnode ▸ List.mem_cons_self))
          have htype : typeAt a facts room receiver = facts.expressionType a receiver := by
            rw [TypeFacts.expressionType, typeAt_of_nestsWithin hreceiver (by omega),
              typeAt_of_nestsWithin hreceiver (by omega : levels ≤ maxNesting)]
          rw [htype]
          exact hkey id receiver x (hnode ▸ hn) hx s s' hs hs'

/-- Parentheses leave the types of expressions as they are. -/
theorem expressionType_stands (hw : a.Has w) (hfacts : ∀ id, facts.nodes.get? id = none)
    (hkey : NamesNoMember a facts base w) (h : Stands w id id')
    (hnest : (a.parenthesize w span).nestsWithin maxNesting id') :
    SameFrom base (facts.expressionType a id)
      (facts.expressionType (a.parenthesize w span) id') :=
  typeAt_stands hw hfacts hkey h hnest (Nat.le_refl _) (Nat.le_refl _) (Nat.le_refl _)

end Typing

end ScriptToLua
