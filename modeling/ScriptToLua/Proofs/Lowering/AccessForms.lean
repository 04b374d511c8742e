import Mathlib
import ScriptToLua.Proofs.Lowering.AccessType
import ScriptToLua.Proofs.Lowering.WriteRun

/-!
Accesses by a name after a dot and by the same name as a string in brackets. Unless the name is an index,
both denote one place, and all that is lowered from them runs alike: `dot_eq_bracket`.
-/

namespace ScriptToLua

namespace Lua

/-- The two pieces of code do the same wherever they stand, whatever calls do. -/
structure Code.RunsAs (e e' : Code) : Prop where
  eval : ∀ call c, e.eval call c = e'.eval call c
  locate : ∀ call c, e.locate call c = e'.locate call c
  exec : ∀ call c, e.exec call c = e'.exec call c

namespace Code.RunsAs

variable {e e' t v v' : Code} {body body' : List Code}

theorem refl (e : Code) : RunsAs e e := ⟨fun _ _ => rfl, fun _ _ => rfl, fun _ _ => rfl⟩

/-- `t.x` is `t["x"]`. -/
theorem member (t : Code) (x : String) : RunsAs (.member t x) (.index t (.string x)) where
  eval call c := by simp only [Code.eval, pure_bind]
  locate call c := by simp only [Code.locate, Code.eval, pure_bind]
  exec call c := by simp only [Code.exec]

theorem binary (h : RunsAs e e') (op : BinaryOp) (right : Code) :
    RunsAs (.binary e op right) (.binary e' op right) where
  eval call c := by simp only [Code.eval, h.eval]
  locate call c := by simp only [Code.locate]
  exec call c := by simp only [Code.exec]

theorem bindLocal (h : RunsAs e e') (x : String) : RunsAs (.bindLocal x e) (.bindLocal x e') where
  eval call c := by simp only [Code.bindLocal, Code.eval]
  locate call c := by simp only [Code.bindLocal, Code.locate]
  exec call c := by simp only [Code.bindLocal, Code.exec, Code.evalAll, h.eval]

theorem store (h : RunsAs e e') (hv : RunsAs v v') : RunsAs (.store e v) (.store e' v') where
  eval call c := by simp only [Code.store, Code.eval]
  locate call c := by simp only [Code.store, Code.locate]
  exec call c := by
    simp only [Code.store, Code.exec, Code.locateAll, Code.evalAll, h.locate, hv.eval]

theorem execAll (h : List.Forall₂ RunsAs body body') (call : Caller) (c : Chain) :
    Code.execAll call c body = Code.execAll call c body' := by
  induction h with
  | nil => rfl
  | cons h _ ih => simp only [Code.execAll, h.exec, ih]

theorem block (h : List.Forall₂ RunsAs body body') : RunsAs (.block body) (.block body') where
  eval call c := by simp only [Code.eval]
  locate call c := by simp only [Code.locate]
  exec call c := by simp only [Code.exec, execAll h]

/-- A function that is called at once is seen by nobody, so only what its statements do matters. -/
theorem immediate (h : List.Forall₂ RunsAs body body') (room : Nat) (c : Chain) :
    (Code.immediate body).eval (callAt room) c = (Code.immediate body').eval (callAt room) c := by
  funext m
  cases room with
  | zero => rfl
  | succ room =>
    rcases Nat.lt_or_ge m.depth maxCallDepth with hd | hd
    · simp only [immediate_run room c _ hd, runBody, execAll h]
    · rw [immediate_overflow room c body hd, immediate_overflow room c body' hd]

end Code.RunsAs

end Lua

namespace Lowering

open Lua
open Source (NodeId)

section Places

variable (t : Code) (x : String)

/-- A string is never kept in a variable. -/
theorem settle_entry (pin : Bool) :
    (Place.settle pin (.entry t (.string x))).1 = (Place.settle pin (.field t x)).1 := by
  have hkey : (Place.keep indexTemp pin (.string x)).1 = [] := by
    simp [Place.keep, Code.isPure, Code.isLiteral]
  simp only [Place.settle, hkey, List.append_nil]

theorem settled_runsAs (pin : Bool) :
    Code.RunsAs (Place.settled (settleKeeps pin) (.field t x)).code
      (Place.settled (settleKeeps pin) (.entry t (.string x))).code := by
  have hkey : settledPart (settleKeeps pin) indexTemp (.string x) = .string x := by
    simp [settledPart, settleKeeps, Code.isPure, Code.isLiteral]
  simp only [Place.settled, Place.code, hkey]
  exact .member _ x

theorem newValue_runsAs {p p' : Place} (h : Code.RunsAs p.code p'.code) (op : Option BinaryOp)
    (value : Code) : Code.RunsAs (p.newValue op value) (p'.newValue op value) := by
  cases op with
  | none => exact .refl value
  | some op => exact h.binary op value

/-- The same statements before two bodies that run alike. -/
theorem append_runsAs (before : List Code) {body body' : List Code}
    (h : List.Forall₂ Code.RunsAs body body') :
    List.Forall₂ Code.RunsAs (before ++ body) (before ++ body') :=
  List.rel_append (List.forall₂_same.2 fun e _ => .refl e) h

theorem write_runsAs (w : Write) (room : Nat) (c : Chain) (use : Use) :
    w.run (callAt room) c (.field t x) use = w.run (callAt room) c (.entry t (.string x)) use := by
  cases use with
  | statement =>
    have hplain : Code.RunsAs (Place.field t x).code (Place.entry t (.string x)).code := .member t x
    have hsettled := settled_runsAs t x false
    simp only [Write.run, Write.code_statement, settle_entry]
    split
    · exact (Code.RunsAs.block (append_runsAs _
        (.cons (hsettled.store (newValue_runsAs hsettled _ _)) .nil))).exec _ _
    · exact (hplain.store (newValue_runsAs hplain _ _)).exec _ _
  | value =>
    have heval : (w.code (.field t x) .value).eval (callAt room) c =
        (w.code (.entry t (.string x)) .value).eval (callAt room) c := by
      cases hy : w.yield with
      | new =>
        have hsettled := settled_runsAs t x (!w.value.isPure)
        simp only [Write.code_value hy, Write.keeps_value, settle_entry]
        refine Code.RunsAs.immediate (append_runsAs _ (.cons ?_ (.cons ?_ (.cons (.refl _) .nil)))) _ _
        · exact (newValue_runsAs hsettled _ _).bindLocal valueTemp
        · exact hsettled.store (.refl _)
      | old =>
        obtain ⟨op, rfl⟩ : ∃ op, w = .update op .old := by
          cases w with
          | assign op value => cases hy
          | update op yield =>
            cases hy
            exact ⟨op, rfl⟩
        have hsettled := settled_runsAs t x false
        simp only [Write.code_updateOld, settle_entry]
        refine Code.RunsAs.immediate (append_runsAs _ (.cons ?_ (.cons ?_ (.cons (.refl _) .nil)))) _ _
        · exact hsettled.bindLocal valueTemp
        · exact hsettled.store (.refl _)
    simp only [Write.run, heval]

theorem deletion_runsAs (room : Nat) (c : Chain) :
    (deletion (Place.field t x).code .statement).exec (callAt room) c =
        (deletion (Place.entry t (.string x)).code .statement).exec (callAt room) c ∧
      (deletion (Place.field t x).code .value).eval (callAt room) c =
        (deletion (Place.entry t (.string x)).code .value).eval (callAt room) c := by
  have hstore : Code.RunsAs (.store (Place.field t x).code .nil)
      (.store (Place.entry t (.string x)).code .nil) :=
    (Code.RunsAs.member t x).store (.refl .nil)
  exact ⟨hstore.exec _ _, Code.RunsAs.immediate (.cons hstore (.cons (.refl _) .nil)) _ _⟩

end Places

namespace Access

/-- `receiver.name` -/
def dot (receiver : Code) (name : String) (shape : Shape) : Access := ⟨receiver, .named name, shape⟩

/-- `receiver["name"]` -/
def bracket (receiver : Code) (name : String) (shape : Shape) : Access :=
  ⟨receiver, .element (.string name) .string, shape⟩

section Landings

variable (receiver : Code) {name : String} (shape : Shape) (s : TypeStore) (fold : Bool)
  (h : isIndexText name = false)

include h

/-- Both forms of an access land on the length, or each of them lands in the field or is a plain
access. -/
theorem landing?_dot_bracket :
    (dot receiver name shape).landing? s fold = some .length ∧
        (bracket receiver name shape).landing? s fold = some .length ∨
      ((dot receiver name shape).landing? s fold = none ∨
          (dot receiver name shape).landing? s fold = some (.place (.field receiver name))) ∧
        ((bracket receiver name shape).landing? s fold = none ∨
          (bracket receiver name shape).landing? s fold = some (.place (.field receiver name))) := by
  simp only [landing?, dot, bracket, landNamed, landString, h, Bool.false_eq_true, if_false]
  by_cases ha : shape.isArrayLike
  · by_cases hm : shape.member? name = none
    · by_cases hl : name = "length"
      · subst hl
        simp [ha, hm]
      · simp [ha, hm, hl]
    · obtain ⟨p, hp⟩ := Option.ne_none_iff_exists'.1 hm
      simp [ha, hp]
  · simp [ha]

theorem isLength_dot_bracket :
    (dot receiver name shape).isLength s fold = (bracket receiver name shape).isLength s fold := by
  unfold isLength
  rcases landing?_dot_bracket receiver shape s fold h with ⟨hd, hb⟩ | ⟨hd | hd, hb | hb⟩
  all_goals rw [hd, hb]

theorem read_dot_bracket :
    Code.RunsAs ((dot receiver name shape).read s fold) ((bracket receiver name shape).read s fold) := by
  unfold read read?
  rcases landing?_dot_bracket receiver shape s fold h with ⟨hd, hb⟩ | ⟨hd | hd, hb | hb⟩
  · rw [hd, hb]
    exact .refl _
  · rw [hd, hb]
    exact .member receiver name
  · rw [hd, hb]
    exact .refl _
  · rw [hd, hb]
    exact .member receiver name
  · rw [hd, hb]
    exact .refl _

/-- Both forms of an access have one place, or the second form has the entry that is the field of the
first. -/
theorem place_dot_bracket :
    (dot receiver name shape).place s fold = .field receiver name ∧
      ((bracket receiver name shape).place s fold = .field receiver name ∨
        (bracket receiver name shape).place s fold = .entry receiver (.string name)) := by
  unfold place place?
  rcases landing?_dot_bracket receiver shape s fold h with ⟨hd, hb⟩ | ⟨hd | hd, hb | hb⟩
  · rw [hd, hb]
    exact ⟨rfl, .inr rfl⟩
  · rw [hd, hb]
    exact ⟨rfl, .inr rfl⟩
  · rw [hd, hb]
    exact ⟨rfl, .inl rfl⟩
  · rw [hd, hb]
    exact ⟨rfl, .inr rfl⟩
  · rw [hd, hb]
    exact ⟨rfl, .inl rfl⟩

end Landings

/-- Both accesses denote one place: what is lowered from them does the same in every state. -/
structure SamePlace (a a' : Access) : Prop where
  read : ∀ s fold call c, (a.read s fold).eval call c = (a'.read s fold).eval call c
  isLength : ∀ s fold, a.isLength s fold = a'.isLength s fold
  write : ∀ s fold room c (w : Write) use,
    w.run (callAt room) c (a.place s fold) use = w.run (callAt room) c (a'.place s fold) use
  delete : ∀ s fold room c,
    (a.delete s fold .statement).exec (callAt room) c =
      (a'.delete s fold .statement).exec (callAt room) c
  deleteValue : ∀ s fold room c,
    (a.delete s fold .value).eval (callAt room) c = (a'.delete s fold .value).eval (callAt room) c

theorem samePlace_dot_bracket {name : String} (h : isIndexText name = false) (receiver : Code)
    (shape : Shape) : SamePlace (dot receiver name shape) (bracket receiver name shape) where
  read s fold := (read_dot_bracket receiver shape s fold h).eval
  isLength s fold := isLength_dot_bracket receiver shape s fold h
  write s fold room c w use := by
    obtain ⟨hd, hb | hb⟩ := place_dot_bracket receiver shape s fold h
    · rw [hd, hb]
    · rw [hd, hb]
      exact write_runsAs receiver name w room c use
  delete s fold room c := by
    obtain ⟨hd, hb | hb⟩ := place_dot_bracket receiver shape s fold h
    · rw [Access.delete, Access.delete, hd, hb]
    · rw [Access.delete, Access.delete, hd, hb]
      exact (deletion_runsAs receiver name room c).1
  deleteValue s fold room c := by
    obtain ⟨hd, hb | hb⟩ := place_dot_bracket receiver shape s fold h
    · rw [Access.delete, Access.delete, hd, hb]
    · rw [Access.delete, Access.delete, hd, hb]
      exact (deletion_runsAs receiver name room c).2

end Access

section Calls

variable {ctx : Context} {callee callee' receiver key : NodeId} {name : String}
  {arguments : List NodeId} {room : Nat} {st : State}

/-- What comes after a look at the context. -/
theorem bind_read_run {α : Type} (next : Context → LowerM α) (st : State) :
    (read >>= next) ctx st = next ctx ctx st := rfl

/-- The type of a string literal is at hand. -/
theorem typeOf_string (hkey : ctx.arena.get? key = some (.string name)) (st : State) :
    ∃ t, typeOf key ctx st = (t, st) := by
  have htype : ∃ t, Typing.typeAt ctx.arena ctx.facts (499 + 1) key st.store = (t, st.store) := by
    cases hid : ctx.facts.nodes.get? key with
    | some t =>
      rw [Typing.typeAt_recorded hid]
      exact ⟨t, rfl⟩
    | none =>
      rw [Typing.typeAt_node hid hkey]
      exact ⟨.string, rfl⟩
  obtain ⟨t, ht⟩ := htype
  refine ⟨t, ?_⟩
  have hrun : typeOf key ctx st =
      let o := Typing.typeAt ctx.arena ctx.facts (499 + 1) key st.store
      (o.1, { st with store := o.2 }) := rfl
  rw [hrun, ht]

/-- The literal in brackets changes nothing but the form of the access. -/
theorem elementAccess_run (hkey : ctx.arena.get? key = some (.string name))
    (hlower : (expressionAt room key ctx st).1 = .string name) :
    ∃ t, elementAccess (expressionAt room) receiver key ctx st =
      let o := namedAccess (expressionAt room) receiver name ctx st
      (⟨o.1.receiver, .element (.string name) t, o.1.shape⟩, o.2) := by
  obtain ⟨room, rfl⟩ : ∃ r, room = r + 1 := by
    cases room with
    | zero => cases hlower
    | succ room => exact ⟨room, rfl⟩
  generalize ho : expressionAt (room + 1) receiver ctx (typeOf receiver ctx st).2 = o
  obtain ⟨t, ht⟩ := typeOf_string hkey o.2
  refine ⟨t, ?_⟩
  have hrun : elementAccess (expressionAt (room + 1)) receiver key ctx st =
      (do
        let keyType ← typeOf key
        let keyCode ← expressionAt (room + 1) key
        withTypes (Access.ofType o.1 (.element keyCode keyType) (typeOf receiver ctx st).1)) ctx o.2 := by
    rw [← ho]
    rfl
  have hnamed : namedAccess (expressionAt (room + 1)) receiver name ctx st =
      withTypes (Access.ofType o.1 (.named name) (typeOf receiver ctx st).1) ctx o.2 := by
    rw [← ho]
    rfl
  rw [hrun, hnamed, bind_run, ht, bind_run, expressionAt_string room hkey]
  rfl

/-- A declared member is called in one way, whichever form its access has. -/
theorem call_dot_bracket (hdot : ctx.arena.get? (ctx.arena.strip callee) = some (.property receiver name))
    (hbracket : ctx.arena.get? (ctx.arena.strip callee') = some (.element receiver key))
    (hkey : ctx.arena.get? key = some (.string name))
    (hlower : (expressionAt room key ctx st).1 = .string name)
    (hmember : (namedAccess (expressionAt room) receiver name ctx st).1.member?.isSome) :
    call (expressionAt room) callee arguments ctx st =
      call (expressionAt room) callee' arguments ctx st := by
  obtain ⟨code, shape, st', hnamed⟩ : ∃ code shape st',
      namedAccess (expressionAt room) receiver name ctx st = (⟨code, .named name, shape⟩, st') :=
    ⟨_, _, _, rfl⟩
  obtain ⟨t, helement⟩ := elementAccess_run hkey hlower
  rw [hnamed] at hmember helement
  obtain ⟨m, hm⟩ := Option.isSome_iff_exists.1 hmember
  have hd : Access.member? ⟨code, .named name, shape⟩ = some m := hm
  have hb : Access.member? ⟨code, .element (.string name) t, shape⟩ = some m := hm
  unfold call
  rw [bind_read_run, bind_read_run]
  simp only [hdot, hbracket, hkey]
  rw [bind_run (namedAccess (expressionAt room) receiver name),
    bind_run (elementAccess (expressionAt room) receiver key), hnamed, helement]
  simp only [hd, hb, Option.isNone_some, Bool.and_false, Bool.false_eq_true, if_false]

end Calls

/-- A name after a dot and the same name as a string in brackets denote one place, unless the name is
an index: reads, writes and deletions do the same, and a declared member is called in the same way. -/
theorem dot_eq_bracket {name : String} (h : isIndexText name = false) :
    (∀ receiver shape,
      Access.SamePlace (.dot receiver name shape) (.bracket receiver name shape)) ∧
    ∀ (ctx : Context) (st : State) (room : Nat) (callee callee' receiver key : NodeId)
      (arguments : List NodeId),
      ctx.arena.get? (ctx.arena.strip callee) = some (.property receiver name) →
      ctx.arena.get? (ctx.arena.strip callee') = some (.element receiver key) →
      ctx.arena.get? key = some (.string name) →
      (expressionAt room key ctx st).1 = .string name →
      (namedAccess (expressionAt room) receiver name ctx st).1.member?.isSome →
      call (expressionAt room) callee arguments ctx st =
        call (expressionAt room) callee' arguments ctx st :=
  ⟨fun receiver shape => Access.samePlace_dot_bracket h receiver shape,
    fun _ _ _ _ _ _ _ _ hdot hbracket hkey hlower hmember =>
      call_dot_bracket hdot hbracket hkey hlower hmember⟩

/-- The tag of a label. -/
theorem dot_eq_bracket_of_tag :
    Access.SamePlace (.dot (.name "e") "tag" (.array .string))
        (.bracket (.name "e") "tag" (.array .string)) ∧
      call expression ⟨3⟩ [⟨6⟩] labelContext labelState =
        call expression ⟨2⟩ [⟨6⟩] labelContext labelState ∧
      (call expression ⟨2⟩ [⟨6⟩] labelContext labelState).1 =
        .call (.member (.name "e") "tag") [.number "1"] := by
  obtain ⟨hplaces, hcalls⟩ := dot_eq_bracket (by decide : isIndexText "tag" = false)
  have hcall : call expression ⟨3⟩ [⟨6⟩] labelContext labelState =
      call expression ⟨2⟩ [⟨6⟩] labelContext labelState :=
    hcalls labelContext labelState maxNesting ⟨3⟩ ⟨2⟩ ⟨0⟩ ⟨1⟩ [⟨6⟩] rfl rfl rfl (by cbv) (by cbv)
  exact ⟨hplaces _ _, hcall, by cbv⟩

end Lowering

end ScriptToLua
