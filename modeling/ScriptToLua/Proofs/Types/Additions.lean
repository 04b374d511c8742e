import Mathlib
import ScriptToLua.Typing
import ScriptToLua.Proofs.Types.Stability

/-!
Working out types changes a store by interning only, whatever ids the store and the recorded types
mention: `expressionType_interns`, `shapeOf_interns`. So it only adds to the store, and two computations
can be compared on all stores that have the types of a first one, `SameFrom`.
-/

namespace ScriptToLua

open Source (Arena Node NodeId)
open TypeStore

/-- The second store is reached from the first by interning one type after another. -/
inductive TypeStore.Interned (s : TypeStore) : TypeStore → Prop
  | refl : Interned s s
  | intern {s' : TypeStore} (h : Interned s s') (d : TypeData) : Interned s (intern d s').2

theorem TypeStore.Interned.trans {s s' s'' : TypeStore} (h : s.Interned s') (h' : s'.Interned s'') :
    s.Interned s'' := by
  induction h' with
  | refl => exact h
  | intern _ d ih => exact .intern ih d

theorem intern_extends (d : TypeData) (s : TypeStore) : s.Extends (intern d s).2 := by
  rcases intern_cases d s with ⟨t, -, h⟩ | ⟨-, h⟩
  · rw [h]
    exact .refl s
  · rw [h]
    exact extends_push s d

theorem TypeStore.Interned.extends_ {s s' : TypeStore} (h : s.Interned s') : s.Extends s' := by
  induction h with
  | refl => exact .refl s
  | intern _ d ih => exact ih.trans (intern_extends d _)

/-- The computation changes a store by interning only. -/
def Interns {α : Type} (act : TypeM α) : Prop := ∀ s : TypeStore, s.Interned (act s).2

/-- The computation keeps what any store has. -/
def OnlyAdds {α : Type} (act : TypeM α) : Prop := ∀ s : TypeStore, s.Extends (act s).2

namespace Interns

variable {α β : Type}

theorem onlyAdds {act : TypeM α} (h : Interns act) : OnlyAdds act := fun s => (h s).extends_

theorem pure (a : α) : Interns (Pure.pure a : TypeM α) := fun _ => .refl

theorem get : Interns (MonadState.get : TypeM TypeStore) := fun _ => .refl

theorem bind {act : TypeM α} {next : α → TypeM β} (h : Interns act) (hn : ∀ a, Interns (next a)) :
    Interns (act >>= next) := fun s => (h s).trans (hn (act s).1 (act s).2)

theorem mapM {γ : Type} {f : γ → TypeM α} (h : ∀ c, Interns (f c)) (l : List γ) :
    Interns (l.mapM f) := by
  induction l with
  | nil => exact .pure []
  | cons c l ih =>
    rw [List.mapM_cons]
    exact (h c).bind fun a => ih.bind fun as => .pure (a :: as)

end Interns

/-- With the types of `base` stored, both computations do the same, and they keep what is stored. -/
def SameFrom {α : Type} (base : TypeStore) (act act' : TypeM α) : Prop :=
  ∀ s, base.Extends s → act' s = act s ∧ base.Extends (act s).2

namespace SameFrom

variable {α β : Type} {base : TypeStore}

theorem pure (a : α) : SameFrom base (Pure.pure a) (Pure.pure a) := fun _ he => ⟨rfl, he⟩

theorem of_onlyAdds {act : TypeM α} (h : OnlyAdds act) : SameFrom base act act :=
  fun s he => ⟨rfl, he.trans (h s)⟩

theorem bind {act act' : TypeM α} {next next' : α → TypeM β} (h : SameFrom base act act')
    (hn : ∀ s, base.Extends s → SameFrom base (next (act s).1) (next' (act s).1)) :
    SameFrom base (act >>= next) (act' >>= next') := by
  intro s he
  obtain ⟨hrun, he'⟩ := h s he
  obtain ⟨hrun', he''⟩ := hn s he (act s).2 he'
  refine ⟨?_, he''⟩
  have hstep : (act' >>= next') s = next' (act' s).1 (act' s).2 := rfl
  rw [hstep, hrun]
  exact hrun'

theorem get : SameFrom base get get := fun _ he => ⟨rfl, he⟩

theorem mapM {γ : Type} {f f' : γ → TypeM α} {l : List γ}
    (h : ∀ c ∈ l, SameFrom base (f c) (f' c)) : SameFrom base (l.mapM f) (l.mapM f') := by
  induction l with
  | nil => exact .pure []
  | cons c l ih =>
    rw [List.mapM_cons, List.mapM_cons]
    have hrest := ih fun d hd => h d (List.mem_cons_of_mem c hd)
    exact (h c List.mem_cons_self).bind fun _ _ => hrest.bind fun _ _ => .pure _

end SameFrom

theorem intern_interns (d : TypeData) : Interns (intern d) := fun _ => .intern .refl d

theorem unionOf_interns (ts : List TypeId) : Interns (unionOf ts) := by
  refine Interns.get.bind fun s => ?_
  dsimp only
  split
  · exact .pure _
  · split
    · exact .pure _
    · split
      · exact .pure _
      · exact .pure _
      · exact intern_interns _

theorem intersectionOf_interns (ts : List TypeId) : Interns (intersectionOf ts) := by
  refine Interns.get.bind fun s => ?_
  dsimp only
  split
  · exact .pure _
  · split
    · exact .pure _
    · exact .pure _
    · exact intern_interns _

theorem joinElements_interns (ts : List TypeId) : Interns (joinElements ts) := by
  unfold joinElements
  split
  · exact .pure _
  · exact .pure _
  · exact unionOf_interns _

theorem unionShape_interns (shapes : List Shape) : Interns (unionShape shapes) := by
  unfold unionShape
  split
  · exact (joinElements_interns _).bind fun _ => .pure _
  · split <;> exact .pure _

theorem intersectionShape_interns (shapes : List Shape) : Interns (intersectionShape shapes) := by
  unfold intersectionShape
  split
  · exact .pure _
  · exact (joinElements_interns _).bind fun _ => .pure _

theorem interfaceShape_interns (bases : List Shape) (properties : List Property) :
    Interns (interfaceShape bases properties) := by
  unfold interfaceShape
  dsimp only
  split
  · exact .pure _
  · exact (joinElements_interns _).bind fun _ => .pure _

theorem shapeAt_interns (room : Nat) (t : TypeId) : Interns (shapeAt room t) := by
  induction room generalizing t with
  | zero => exact .pure _
  | succ room ih =>
    refine Interns.get.bind fun s => ?_
    split
    · exact .pure _
    · exact .pure _
    · exact (unionOf_interns _).bind fun _ => .pure _
    · exact .pure _
    · exact (Interns.mapM ih _).bind unionShape_interns
    · exact (Interns.mapM ih _).bind intersectionShape_interns
    · exact (Interns.mapM ih _).bind fun bases => interfaceShape_interns bases _
    · exact ih _
    · exact .pure _

theorem shapeOf_interns (t : TypeId) : Interns (shapeOf t) := shapeAt_interns maxShapeDepth t

/-- Working out a shape keeps what is stored. -/
theorem shapeOf_onlyAdds (t : TypeId) : OnlyAdds (shapeOf t) := (shapeOf_interns t).onlyAdds

section Typing

open Typing

variable (a : Arena) (f : TypeFacts) {typeOf : NodeId → TypeM TypeId}
  (h : ∀ id, Interns (typeOf id))

include h

theorem binaryType_interns (left : NodeId) (op : Source.BinaryOp) (right : NodeId) :
    Interns (binaryType typeOf left op right) := by
  cases op with
  | add => exact (h left).bind fun l => (h right).bind fun r => Interns.get.bind fun s => .pure _
  | and | or => exact (h left).bind fun l => (h right).bind fun r => unionOf_interns [l, r]
  | _ => exact .pure _

theorem nodeType_interns (n : Node) : Interns (nodeType a f typeOf n) := by
  cases n with
  | parenthesized inner => exact h inner
  | assign target op value => exact h value
  | unary op operand => cases op <;> exact .pure _
  | binary left op right => exact binaryType_interns h left op right
  | call callee arguments => exact (h callee).bind fun t => Interns.get.bind fun s => .pure _
  | property receiver name =>
    exact (h receiver).bind fun t => (shapeOf_interns t).bind fun shape => .pure _
  | element receiver key =>
    exact (h receiver).bind fun t => (shapeOf_interns t).bind fun shape => .pure _
  | _ => exact .pure _

omit h

theorem expressionType_interns (id : NodeId) : Interns (f.expressionType a id) := by
  suffices h : ∀ room id, Interns (typeAt a f room id) from h maxNesting id
  intro room id
  induction room generalizing id with
  | zero => exact .pure _
  | succ room ih =>
    unfold typeAt
    split
    · exact .pure _
    · split
      · exact nodeType_interns a f ih _
      · exact .pure _

/-- Working out the type of an expression keeps what is stored. -/
theorem expressionType_onlyAdds (id : NodeId) : OnlyAdds (f.expressionType a id) :=
  (expressionType_interns a f id).onlyAdds

end Typing

end ScriptToLua
