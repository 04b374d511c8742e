import Mathlib
import ScriptToLua.Proofs.Lowering.CallCount

/-!
Calls are neither lost nor repeated: a file that is lowered without an error calls each function as
often as its source does, `lowerFile_calls`.
-/

namespace ScriptToLua

open Lua (Code Field)
open Source (Arena Node NodeId)

namespace Lowering

/-- An error has been reported. -/
def State.Failed (st : State) : Prop := ∃ d ∈ st.reported, d.isError

/-- Nesting that is too deep is an error. -/
def State.Sound (st : State) : Prop := st.depthReported → st.Failed

/-- Errors stay reported, and where there is none in the end the result has `P`. -/
def Delivers {α : Type} (ctx : Context) (P : α → Prop) (act : LowerM α) : Prop :=
  ∀ st : State, st.Sound → (act ctx st).2.Sound ∧ (st.Failed → (act ctx st).2.Failed) ∧
    (¬ (act ctx st).2.Failed → P (act ctx st).1)

namespace Delivers

variable {ctx : Context} {α β : Type} {P : α → Prop} {Q : β → Prop}

theorem mono {P' : α → Prop} {act : LowerM α} (h : Delivers ctx P act) (hp : ∀ a, P a → P' a) :
    Delivers ctx P' act := by
  intro st hst
  obtain ⟨hsound, hfailed, hresult⟩ := h st hst
  exact ⟨hsound, hfailed, fun hok => hp _ (hresult hok)⟩

theorem pure {a : α} (h : P a) : Delivers ctx P (Pure.pure a) := fun _ hst => ⟨hst, id, fun _ => h⟩

/-- Without an error in the end there was none before, so the first result has `P`. -/
theorem bind {act : LowerM α} {next : α → LowerM β} (h : Delivers ctx P act)
    (hn : ∀ a, Delivers ctx (fun b => P a → Q b) (next a)) : Delivers ctx Q (act >>= next) := by
  intro st hst
  obtain ⟨hsound, hfailed, hresult⟩ := h st hst
  obtain ⟨hsound', hfailed', hresult'⟩ := hn (act ctx st).1 (act ctx st).2 hsound
  exact ⟨hsound', fun h => hfailed' (hfailed h),
    fun hok => hresult' hok (hresult fun h => hok (hfailed' h))⟩

theorem map {act : LowerM α} {g : α → β} (h : Delivers ctx P act) (hg : ∀ a, P a → Q (g a)) :
    Delivers ctx Q (g <$> act) := by
  intro st hst
  obtain ⟨hsound, hfailed, hresult⟩ := h st hst
  exact ⟨hsound, hfailed, fun hok => hg _ (hresult hok)⟩

theorem bind_read {next : Context → LowerM β} (h : Delivers ctx Q (next ctx)) :
    Delivers ctx Q (read >>= next) := h

theorem bind_node? {id : NodeId} {next : Option Node → LowerM β}
    (h : ∀ n, ctx.arena.get? id = n → Delivers ctx Q (next n)) :
    Delivers ctx Q (node? id >>= next) := h _ rfl

theorem askTypes {ask : TypeStore → α} (h : ∀ s, P (ask s)) : Delivers ctx P (askTypes ask) :=
  fun st hst => ⟨hst, id, fun _ => h st.store⟩

theorem withTypes {act : TypeM α} (h : ∀ s, P (act s).1) : Delivers ctx P (withTypes act) :=
  fun st hst => ⟨hst, id, fun _ => h st.store⟩

theorem typeOf (id : NodeId) : Delivers ctx (fun _ => True) (typeOf id) :=
  bind_read (withTypes fun _ => trivial)

theorem report (id : NodeId) (p : Problem) : Delivers ctx (fun _ => True) (report id p) := by
  intro st hst
  have hmono (h : st.Failed) : (Lowering.report id p ctx st).2.Failed := by
    obtain ⟨d, hd, herror⟩ := h
    exact ⟨d, List.mem_cons_of_mem _ hd, herror⟩
  exact ⟨fun h => hmono (hst h), hmono, fun _ => trivial⟩

/-- There is no good end after an error. -/
theorem report_error (id : NodeId) {p : Problem} (h : p.message.severity = .error) :
    Delivers ctx (fun _ => False) (Lowering.report id p) := by
  intro st hst
  obtain ⟨hsound, hfailed, -⟩ := report id p st hst
  refine ⟨hsound, hfailed, fun hok => hok ⟨_, List.mem_cons_self, ?_⟩⟩
  exact decide_eq_true h

theorem reportDepth (id : NodeId) : Delivers ctx (fun _ => False) (reportDepth id) := by
  rintro ⟨store, reported, depth⟩ hst
  cases depth with
  | false =>
    have herror : (Lowering.reportDepth id ctx ⟨store, reported, false⟩).2.Failed :=
      ⟨_, List.mem_cons_self, rfl⟩
    exact ⟨fun _ => herror, fun _ => herror, fun hok => hok herror⟩
  | true => exact ⟨hst, fun h => h, fun hok => hok (hst rfl)⟩

theorem mapM {γ : Type} {R : γ → α → Prop} {act : γ → LowerM α} {l : List γ}
    (h : ∀ c ∈ l, Delivers ctx (R c) (act c)) :
    Delivers ctx (fun as => List.Forall₂ R l as) (l.mapM act) := by
  induction l with
  | nil => exact .pure .nil
  | cons c l ih =>
    rw [List.mapM_cons]
    refine (h c List.mem_cons_self).bind fun a => ?_
    refine (ih fun d hd => h d (List.mem_cons_of_mem c hd)).bind fun as => ?_
    exact .pure fun has ha => .cons ha has

end Delivers

/-- The code calls `f` as often as the tree under the node, and it is a name where the node is one,
apart from parentheses and assertions. -/
structure Mirrors (a : Arena) (f : String) (id : NodeId) (c : Code) : Prop where
  calls : c.calls f = a.callsUnder f id
  name : c.name? = (a.nameOf? id).map Lua.rename

theorem sum_eq_of_forall₂ {α β : Type} {g : α → Nat} {h : β → Nat} {l : List α} {l' : List β}
    (hl : List.Forall₂ (fun a b => h b = g a) l l') : (l'.map h).sum = (l.map g).sum := by
  induction hl with
  | nil => rfl
  | cons hab _ ih => rw [List.map_cons, List.map_cons, List.sum_cons, List.sum_cons, hab, ih]

section Functions

variable {ctx : Context} {f : String} {lower : Lowerer} (ht : ctx.arena.IsTree)
  (hl : ∀ id, Delivers ctx (Mirrors ctx.arena f id) (lower id))

include hl

theorem lower_calls (id : NodeId) :
    Delivers ctx (fun c => c.calls f = ctx.arena.callsUnder f id) (lower id) :=
  (hl id).mono fun _ h => h.calls

theorem mapM_calls (ids : List NodeId) :
    Delivers ctx (fun cs => Code.callsAll f cs = (ids.map (ctx.arena.callsUnder f)).sum)
      (ids.mapM lower) := by
  refine (Delivers.mapM fun id _ => lower_calls hl id).mono fun cs h => ?_
  rw [Code.callsAll_eq]
  exact sum_eq_of_forall₂ h

theorem namedAccess_calls (receiver : NodeId) (name : String) :
    Delivers ctx (fun a => a.receiver.calls f = ctx.arena.callsUnder f receiver ∧ a.key.calls f = 0)
      (namedAccess lower receiver name) := by
  refine (Delivers.typeOf receiver).bind fun type => ?_
  exact (lower_calls hl receiver).bind fun code => .withTypes fun s hcode _ => ⟨hcode, rfl⟩

theorem elementAccess_calls (receiver key : NodeId) :
    Delivers ctx
      (fun a => a.receiver.calls f = ctx.arena.callsUnder f receiver ∧
        a.key.calls f = ctx.arena.callsUnder f key)
      (elementAccess lower receiver key) := by
  refine (Delivers.typeOf receiver).bind fun type => ?_
  refine (lower_calls hl receiver).bind fun code => ?_
  refine (Delivers.typeOf key).bind fun keyType => ?_
  exact (lower_calls hl key).bind fun keyCode => .withTypes fun s hkey _ hcode _ => ⟨hcode, hkey⟩

omit hl in
theorem readAccess_calls (a : Access) :
    Delivers ctx (fun c => c.calls f = a.calls f ∧ c.name? = none) (readAccess a) :=
  .bind_read (.askTypes fun s => ⟨a.read_calls s _, a.read_name? s _⟩)

theorem hybridProperty_calls (p : Source.Key × NodeId) :
    Delivers ctx (fun q => (q.field ctx.fold).calls f = propertyCalls ctx.arena f p)
      (hybridProperty lower p) := by
  obtain ⟨key, value⟩ := p
  have hslot (k v : Code) (fold : Bool) :
      ((HybridProperty.slot k v).field fold).calls f = k.calls f + v.calls f := by
    simp only [HybridProperty.field, Field.calls, Field.callsAll, oneBased_calls, Nat.add_zero]
  have hone : ([value].map (ctx.arena.callsUnder f)).sum = ctx.arena.callsUnder f value :=
    List.sum_singleton
  cases key with
  | name x => exact (lower_calls hl value).bind fun v => .pure fun hv => hv.trans hone.symm
  | string x =>
    refine (lower_calls hl value).bind fun v => .pure fun hv => ?_
    split
    · rw [hslot, Code.calls_number, Nat.zero_add]
      exact hv.trans hone.symm
    · exact hv.trans hone.symm
  | number text =>
    refine (lower_calls hl value).bind fun v => .pure fun hv => ?_
    rw [hslot, Code.calls_number, Nat.zero_add]
    exact hv.trans hone.symm
  | computed key =>
    have htwo : propertyCalls ctx.arena f (.computed key, value) =
        ctx.arena.callsUnder f key + ctx.arena.callsUnder f value := by
      simp [propertyCalls, Source.Key.node?]
    refine (Delivers.typeOf key).bind fun type => (lower_calls hl key).bind fun k => ?_
    refine (lower_calls hl value).bind fun v => ?_
    refine (Delivers.askTypes (P := fun _ => True) fun s => trivial).bind fun number => ?_
    split
    · refine .pure fun _ hv hk _ => ?_
      rw [hslot, hk, hv, htwo]
    · refine .pure fun _ hv hk _ => ?_
      rw [htwo, ← hk, ← hv]
      simp only [HybridProperty.field, Field.calls, Field.callsAll, Nat.add_zero]

theorem recordField_calls (p : Source.Key × NodeId) :
    Delivers ctx (fun field => field.calls f = propertyCalls ctx.arena f p)
      (recordField lower p) := by
  obtain ⟨key, value⟩ := p
  have hone : ([value].map (ctx.arena.callsUnder f)).sum = ctx.arena.callsUnder f value :=
    List.sum_singleton
  cases key with
  | name x => exact (lower_calls hl value).bind fun v => .pure fun hv => hv.trans hone.symm
  | string x => exact (lower_calls hl value).bind fun v => .pure fun hv => hv.trans hone.symm
  | number text =>
    refine (lower_calls hl value).bind fun v => .pure fun hv => ?_
    refine Eq.trans ?_ (hv.trans hone.symm)
    simp only [Field.calls, Field.callsAll, Code.calls, Nat.add_zero, Nat.zero_add]
  | computed key =>
    refine (lower_calls hl key).bind fun k => (lower_calls hl value).bind fun v => ?_
    refine .pure fun hv hk => ?_
    simp [propertyCalls, Source.Key.node?, Field.calls, Field.callsAll, ← hk, ← hv]

theorem objectLiteral_calls (properties : List (Source.Key × NodeId)) (context : TypeId) :
    Delivers ctx
      (fun c => c.calls f = (properties.map (propertyCalls ctx.arena f)).sum ∧ c.name? = none)
      (objectLiteral lower properties context) := by
  refine (Delivers.withTypes (P := fun _ => True) fun s => trivial).bind fun shape => ?_
  split
  · refine .bind_read ((Delivers.mapM fun p _ => hybridProperty_calls hl p).bind fun ps => ?_)
    refine .pure fun hps _ => ⟨?_, rfl⟩
    rw [hybridLiteral, Code.calls, Field.callsAll_eq, List.map_map]
    exact sum_eq_of_forall₂ hps
  · refine (Delivers.mapM fun p _ => recordField_calls hl p).bind fun fields => ?_
    refine .pure fun hfields _ => ⟨?_, rfl⟩
    rw [Code.calls, Field.callsAll_eq]
    exact sum_eq_of_forall₂ hfields

theorem template_calls (hf : f ≠ "tostring") (head : String) (spans : List (NodeId × String)) :
    Delivers ctx
      (fun c => c.calls f = (spans.map fun p => ctx.arena.callsUnder f p.1).sum ∧ c.name? = none)
      (template lower head spans) := by
  have hpart (p : NodeId × String) : Delivers ctx
      (fun parts => Code.callsAll f parts = ctx.arena.callsUnder f p.1 ∧
        ∀ c ∈ parts, c.name? = none)
      (do return [textOf (← lower p.1), .string p.2]) := by
    refine (lower_calls hl p.1).bind fun c => .pure fun hc => ⟨?_, ?_⟩
    · simp only [Code.callsAll, textOf_calls f hf, Code.calls, Nat.add_zero]
      exact hc
    · intro d hd
      rcases List.mem_pair.1 hd with rfl | rfl <;> rfl
  refine (Delivers.mapM fun p _ => hpart p).bind fun parts => .pure fun hparts => ⟨?_, ?_⟩
  · rw [joinTexts_calls, Code.callsAll, Code.callsAll_flatten, Code.calls_string, Nat.zero_add]
    exact sum_eq_of_forall₂ (hparts.imp fun _ _ h => h.1)
  · apply joinTexts_name?
    intro c hc
    rcases List.mem_cons.1 hc with rfl | hc
    · rfl
    · obtain ⟨part, hpart, hc⟩ := List.mem_flatten.1 hc
      obtain ⟨i, hi, rfl⟩ := List.getElem_of_mem hpart
      exact (hparts.get (hparts.length_eq ▸ hi) hi).2 c hc

theorem concatOperand_calls (hf : f ≠ "tostring") (id : NodeId) (type : TypeId) :
    Delivers ctx (fun c => c.calls f = ctx.arena.callsUnder f id)
      (concatOperand lower id type) := by
  refine (lower_calls hl id).bind fun c => ?_
  refine (Delivers.askTypes (P := fun _ => True) fun s => trivial).bind fun joins => ?_
  split
  · exact .pure fun _ hc => hc
  · exact .pure fun _ hc => (textOf_calls f hf c).trans hc

theorem binary_calls (hf : f ≠ "tostring") (left : NodeId) (op : Source.BinaryOp)
    (right : NodeId) :
    Delivers ctx (fun c => c.calls f =
        ctx.arena.callsUnder f left + ctx.arena.callsUnder f right ∧ c.name? = none)
      (binary lower left op right) := by
  have hplain (op : Lua.BinaryOp) : Delivers ctx (fun c : Code => c.calls f =
        ctx.arena.callsUnder f left + ctx.arena.callsUnder f right ∧ c.name? = none)
      (do
        let l ← lower left
        let r ← lower right
        return Code.binary l op r) := by
    refine (lower_calls hl left).bind fun l => (lower_calls hl right).bind fun r => ?_
    refine .pure fun hr hl => ⟨?_, rfl⟩
    rw [Code.calls, hl, hr]
  unfold binary
  split
  · refine (Delivers.typeOf left).bind fun leftType => ?_
    refine (Delivers.typeOf right).bind fun rightType => ?_
    refine (Delivers.askTypes (P := fun _ => True) fun s => trivial).bind fun text => ?_
    split
    · refine (concatOperand_calls hl hf left leftType).bind fun l => ?_
      refine (concatOperand_calls hl hf right rightType).bind fun r => .pure ?_
      intro hr hl _ _ _
      refine ⟨?_, rfl⟩
      rw [Code.calls, hl, hr]
    · exact (hplain .add).mono fun c hc _ _ _ => hc
  · exact hplain _

include ht

/-- In its context an expression calls what it calls anywhere. -/
theorem lowerInContext_calls (id : NodeId) (context : TypeId) :
    Delivers ctx (Mirrors ctx.arena f id) (lowerInContext lower id context) := by
  obtain ⟨hcalls, hname⟩ := underParens_eq (f := f) ht ctx.arena.size id
  have hinner {act : LowerM Code}
      (h : Delivers ctx (Mirrors ctx.arena f (underParens ctx.arena ctx.arena.size id)) act) :
      Delivers ctx (Mirrors ctx.arena f id) act :=
    h.mono fun c hc => ⟨hc.calls.trans hcalls, hc.name.trans (congrArg _ hname)⟩
  refine .bind_read (hinner ?_)
  dsimp only
  split
  · next properties hn =>
    split
    · exact hl _
    · refine (objectLiteral_calls hl properties context).mono fun c hc => ⟨?_, ?_⟩
      · exact hc.1.trans (callsUnder_object ht hn).symm
      · rw [hc.2, nameOf?_eq (by simp only [Arena.peel?, hn]), hn]
        rfl
  · exact hl _

omit ht in
/-- A call of what is no member. -/
theorem plainCall_calls (callee : NodeId) (arguments : List NodeId) :
    Delivers ctx (fun c => c.calls f =
        (if (ctx.arena.nameOf? callee).map Lua.rename = some f then 1 else 0) +
          ctx.arena.callsUnder f callee + (arguments.map (ctx.arena.callsUnder f)).sum ∧
        c.name? = none)
      (call.plainCall lower callee arguments) := by
  refine (hl callee).bind fun c => (mapM_calls hl arguments).bind fun args => ?_
  refine .pure fun hargs hc => ⟨?_, rfl⟩
  rw [Code.calls, hc.name, hc.calls, hargs]

omit hl in
/-- The calls in a call of a member are those in its parts. -/
theorem callsUnder_memberCall {id callee inner : NodeId} {arguments : List NodeId} {n : Node}
    (hid : ctx.arena.get? id = some (.call callee arguments))
    (hinner : ctx.arena.strip callee = inner) (hn : ctx.arena.get? inner = some n)
    (hname : n.name? = none) (hcall : ∀ callee args, n ≠ .call callee args) :
    ctx.arena.callsUnder f id = (n.children.map (ctx.arena.callsUnder f)).sum +
      (arguments.map (ctx.arena.callsUnder f)).sum := by
  have hnone : ctx.arena.nameOf? callee = none := by
    rw [Arena.nameOf?, hinner, hn]
    exact hname
  rw [callsUnder_call ht hid, hnone, ← callsUnder_strip ht callee, hinner,
    callsUnder_eq ht hn hcall]
  simp only [Option.map_none, reduceCtorEq, if_false, Nat.zero_add]

theorem call_calls {id callee : NodeId} {arguments : List NodeId}
    (hid : ctx.arena.get? id = some (.call callee arguments)) :
    Delivers ctx (fun c => c.calls f = ctx.arena.callsUnder f id ∧ c.name? = none)
      (call lower callee arguments) := by
  have hplain := plainCall_calls hl callee arguments
  rw [← callsUnder_call ht hid] at hplain
  have hmember {receiver : Code} {name : String} {member : Option Property} {args : List Code}
      {inner : NodeId} {n : Node} (hn : ctx.arena.get? inner = some n)
      (hinner : ctx.arena.strip callee = inner) (hname : n.name? = none)
      (hcall : ∀ callee args, n ≠ .call callee args)
      (hr : receiver.calls f = (n.children.map (ctx.arena.callsUnder f)).sum)
      (hargs : Code.callsAll f args = (arguments.map (ctx.arena.callsUnder f)).sum) :
      (callMember receiver name member args).calls f = ctx.arena.callsUnder f id ∧
        (callMember receiver name member args).name? = none := by
    rw [callsUnder_memberCall ht hid hinner hn hname hcall, callMember_calls, hr, hargs]
    exact ⟨rfl, callMember_name? receiver name member args⟩
  refine .bind_read ?_
  dsimp only
  split
  · next receiver name hn =>
    have hone : ([receiver].map (ctx.arena.callsUnder f)).sum = ctx.arena.callsUnder f receiver :=
      List.sum_singleton
    refine (namedAccess_calls hl receiver name).bind fun a => ?_
    refine (mapM_calls hl arguments).bind fun args => ?_
    split
    · refine (Delivers.report _ _).bind fun _ => .pure fun _ hargs ha => ?_
      exact hmember hn rfl rfl (by rintro _ _ ⟨⟩) (ha.1.trans hone.symm) hargs
    · refine .pure fun hargs ha => ?_
      exact hmember hn rfl rfl (by rintro _ _ ⟨⟩) (ha.1.trans hone.symm) hargs
  · next receiver key hn =>
    split
    · next name hkey =>
      have hzero : ctx.arena.callsUnder f key = 0 := callsUnder_eq ht hkey (by rintro _ _ ⟨⟩)
      have hone : ([receiver, key].map (ctx.arena.callsUnder f)).sum =
          ctx.arena.callsUnder f receiver := by
        simp only [List.map_cons, List.map_nil, List.sum_cons, List.sum_nil, hzero, Nat.add_zero]
      refine (elementAccess_calls hl receiver key).bind fun a => ?_
      split
      · next m _ =>
        refine (mapM_calls hl arguments).bind fun args => .pure fun hargs ha => ?_
        exact hmember hn rfl rfl (by rintro _ _ ⟨⟩) (ha.1.trans hone.symm) hargs
      · refine (readAccess_calls (f := f) a).bind fun c => (mapM_calls hl arguments).bind fun args => ?_
        refine .pure fun hargs hc ha => ⟨?_, rfl⟩
        rw [callsUnder_memberCall ht hid rfl hn rfl (by rintro _ _ ⟨⟩), Source.Node.children, hone,
          Code.calls, hc.1, hc.2, hargs, Access.calls, ha.1, ha.2, hzero]
        simp only [reduceCtorEq, if_false, Nat.zero_add, Nat.add_zero]
    · exact hplain
  · exact hplain

omit hl ht in
theorem compoundOp_delivers (op : Source.AssignOp) (target value : NodeId) :
    Delivers ctx (fun _ => True) (compoundOp op target value) := by
  have hask (ask : TypeStore → Bool) : Delivers ctx (fun _ => True) (askTypes ask) :=
    .askTypes fun _ => trivial
  have hadds : Delivers ctx (fun _ => True) (addsToString target value) := by
    refine (Delivers.typeOf target).bind fun targetType => (hask _).bind fun text => ?_
    split
    · exact .pure fun _ _ => trivial
    · have hvalue : Delivers ctx (fun _ => True) (do
          let valueType ← typeOf value
          askTypes fun s => s.isStringLike valueType) :=
        (Delivers.typeOf value).bind fun _ => .askTypes fun _ _ => trivial
      exact hvalue.mono fun _ _ _ _ => trivial
  unfold compoundOp
  split
  · exact .pure trivial
  · exact hadds.bind fun text => .pure fun _ => trivial
  · exact .pure trivial

/-- The access at a node that is no name has the calls under the node. -/
theorem accessAt?_calls (id : NodeId) :
    Delivers ctx (fun o => ∀ a ∈ o, a.calls f = ctx.arena.callsUnder f id)
      (accessAt? lower id) := by
  refine .bind_node? fun n hn => ?_
  subst hn
  split
  · next receiver name hn =>
    refine (namedAccess_calls hl receiver name).map fun a ha => ?_
    rintro _ ⟨⟩
    rw [callsUnder_eq ht hn (by rintro _ _ ⟨⟩), Access.calls, ha.1, ha.2]
    exact List.sum_singleton.symm
  · next receiver key hn =>
    refine (elementAccess_calls hl receiver key).map fun a ha => ?_
    rintro _ ⟨⟩
    rw [callsUnder_eq ht hn (by rintro _ _ ⟨⟩), Access.calls, ha.1, ha.2]
    simp only [Source.Node.children, List.map_cons, List.map_nil, List.sum_cons, List.sum_nil,
      Nat.add_zero]
  · exact .pure fun _ h => by cases h

theorem placeAt?_calls (id target : NodeId) :
    Delivers ctx (fun o => ∃ p, o = some p ∧ p.code.calls f = ctx.arena.callsUnder f target)
      (placeAt? lower id target) := by
  have herror {P : Option Place → Prop} {p : Problem} (hp : p.message.severity = .error) :
      Delivers ctx P (do report id p; return none) :=
    (Delivers.report_error id hp).bind fun _ => .pure False.elim
  refine .bind_read ?_
  rw [← callsUnder_strip ht target]
  dsimp only
  split
  · next x hx => exact .pure ⟨_, rfl, (callsUnder_eq ht hx (by rintro _ _ ⟨⟩)).symm⟩
  · refine (accessAt?_calls ht hl _).bind fun o => ?_
    cases o with
    | none => exact (herror rfl).mono fun _ h _ => h
    | some a =>
      refine (Delivers.askTypes (P := fun _ => True) fun s => trivial).bind fun length => ?_
      split
      · exact (herror rfl).mono fun _ h _ _ => h
      · refine .askTypes fun s _ ha => ⟨_, rfl, ?_⟩
        rw [a.place_calls, ha a rfl]

/-- There is code, with the calls under the nodes, and as a value it is no name. -/
def HasCalls (ctx : Context) (f : String) (ids : List NodeId) (use : Use) (o : Option Code) : Prop :=
  ∃ c, o = some c ∧ c.calls f = (ids.map (ctx.arena.callsUnder f)).sum ∧
    (use = .value → c.name? = none)

theorem assignment?_calls (id target : NodeId) (op : Source.AssignOp) (value : NodeId) (use : Use) :
    Delivers ctx (HasCalls ctx f [target, value] use)
      (assignment? lower id target op value use) := by
  refine (compoundOp_delivers op target value).bind fun op => ?_
  refine (placeAt?_calls ht hl id target).bind fun o => (lower_calls hl value).bind fun code => ?_
  cases o with
  | none => exact .pure fun _ h => by obtain ⟨p, ⟨⟩, -⟩ := h
  | some p =>
    refine .pure fun hcode h _ => ⟨_, rfl, ?_, ?_⟩
    · obtain ⟨_, ⟨⟩, hp⟩ := h
      rw [Place.assign_calls, hp, hcode]
      simp only [List.map_cons, List.map_nil, List.sum_cons, List.sum_nil, Nat.add_zero]
    · rintro rfl
      rfl

theorem update?_calls (op : Source.UpdateOp) (before : Bool) (operand : NodeId) (use : Use) :
    Delivers ctx (HasCalls ctx f [operand] use) (update? lower op before operand use) := by
  refine (placeAt?_calls ht hl operand operand).bind fun o => .pure ?_
  rintro ⟨p, rfl, hp⟩
  refine ⟨_, rfl, ?_, ?_⟩
  · rw [Place.update_calls, hp]
    exact List.sum_singleton.symm
  · rintro rfl
    cases before <;> rfl

theorem deletion?_calls (id operand : NodeId) (use : Use) :
    Delivers ctx (HasCalls ctx f [operand] use) (deletion? lower id operand use) := by
  refine .bind_read ?_
  refine (accessAt?_calls ht hl _).bind fun o => ?_
  cases o with
  | none =>
    refine (Delivers.report_error id rfl).bind fun _ => .pure ?_
    exact False.elim
  | some a =>
    refine .askTypes fun s ha => ⟨_, rfl, ?_, ?_⟩
    · rw [Access.delete, deletion_calls, a.place_calls, ha a rfl, callsUnder_strip ht]
      exact List.sum_singleton.symm
    · rintro rfl
      rfl

omit hl in
/-- The code of an ordinary node has the calls under its children. -/
theorem mirrors_of_ordinary {id : NodeId} {n : Node} (hn : ctx.arena.get? id = some n)
    (ho : n.isOrdinary) {act : LowerM Code}
    (h : Delivers ctx (fun c => c.calls f = (n.children.map (ctx.arena.callsUnder f)).sum ∧
      c.name? = none) act) :
    Delivers ctx (Mirrors ctx.arena f id) act := by
  have hcall : ∀ callee args, n ≠ .call callee args := by
    rintro callee args rfl
    cases ho
  have hpeel : ctx.arena.peel? id = none := by
    unfold Arena.peel?
    rw [hn]
    cases n with
    | parenthesized i => cases ho
    | asserted e t => cases ho
    | _ => rfl
  have hname : n.name? = none := by
    cases n with
    | identifier x => cases ho
    | _ => rfl
  refine h.mono fun c hc => ⟨?_, ?_⟩
  · rw [hc.1, callsUnder_eq ht hn hcall]
  · rw [hc.2, nameOf?_eq hpeel, hn, Option.bind_some, hname, Option.map_none]

omit hl ht in
/-- Where there is code for a value, nothing has to stand for it. -/
theorem HasCalls.getD {ids : List NodeId} {act : LowerM (Option Code)} (d : Code)
    (h : Delivers ctx (HasCalls ctx f ids .value) act) :
    Delivers ctx (fun c => c.calls f = (ids.map (ctx.arena.callsUnder f)).sum ∧ c.name? = none)
      (do return (← act).getD d) := by
  refine h.bind fun o => .pure ?_
  rintro ⟨c, rfl, hcalls, hname⟩
  exact ⟨hcalls, hname rfl⟩

theorem expressionNode_mirrors (hf : f ≠ "tostring") {id : NodeId} {n : Node}
    (hn : ctx.arena.get? id = some n) :
    Delivers ctx (Mirrors ctx.arena f id) (expressionNode lower id n) := by
  have hsingle (c : NodeId) : ([c].map (ctx.arena.callsUnder f)).sum = ctx.arena.callsUnder f c :=
    List.sum_singleton
  have hread (a : Access) : Delivers ctx (fun c => c.calls f = a.calls f ∧ c.name? = none)
      (readAccess a) := readAccess_calls a
  cases n with
  | number text => exact mirrors_of_ordinary ht hn rfl (.pure ⟨rfl, rfl⟩)
  | string s => exact mirrors_of_ordinary ht hn rfl (.pure ⟨rfl, rfl⟩)
  | boolean b => exact mirrors_of_ordinary ht hn rfl (.pure ⟨rfl, rfl⟩)
  | null => exact mirrors_of_ordinary ht hn rfl (.pure ⟨rfl, rfl⟩)
  | undefined => exact mirrors_of_ordinary ht hn rfl (.pure ⟨rfl, rfl⟩)
  | identifier x =>
    refine .pure ⟨(callsUnder_eq ht hn (by rintro _ _ ⟨⟩)).symm, ?_⟩
    rw [nameOf?_eq (by simp only [Arena.peel?, hn]), hn]
    rfl
  | array elements =>
    refine mirrors_of_ordinary ht hn rfl ((mapM_calls hl elements).bind fun cs => .pure ?_)
    refine fun hcs => ⟨?_, rfl⟩
    rw [arrayLiteral, Code.calls, Field.callsAll_eq, List.map_map]
    exact (Code.callsAll_eq f cs).symm.trans hcs
  | object properties =>
    refine (Delivers.typeOf id).bind fun context => ?_
    refine (objectLiteral_calls hl properties context).mono fun c hc _ => ⟨?_, ?_⟩
    · exact hc.1.trans (callsUnder_object ht hn).symm
    · rw [hc.2, nameOf?_eq (by simp only [Arena.peel?, hn]), hn]
      rfl
  | property receiver name =>
    refine mirrors_of_ordinary ht hn rfl ((namedAccess_calls hl receiver name).bind fun a => ?_)
    refine (hread a).mono fun c hc ha => ⟨?_, hc.2⟩
    rw [hc.1, Access.calls, ha.1, ha.2]
    exact (hsingle receiver).symm
  | element receiver key =>
    refine mirrors_of_ordinary ht hn rfl ((elementAccess_calls hl receiver key).bind fun a => ?_)
    refine (hread a).mono fun c hc ha => ⟨?_, hc.2⟩
    rw [hc.1, Access.calls, ha.1, ha.2]
    simp only [Source.Node.children, List.map_cons, List.map_nil, List.sum_cons, List.sum_nil,
      Nat.add_zero]
  | call callee arguments =>
    refine (call_calls ht hl hn).mono fun c hc => ⟨hc.1, ?_⟩
    rw [hc.2, nameOf?_eq (by simp only [Arena.peel?, hn]), hn]
    rfl
  | binary left op right =>
    refine mirrors_of_ordinary ht hn rfl ((binary_calls hl hf left op right).mono fun c hc => ?_)
    refine ⟨hc.1.trans ?_, hc.2⟩
    simp only [Source.Node.children, List.map_cons, List.map_nil, List.sum_cons, List.sum_nil,
      Nat.add_zero]
  | assign target op value =>
    exact mirrors_of_ordinary ht hn rfl
      (HasCalls.getD .nil (assignment?_calls ht hl id target op value .value))
  | unary op operand =>
    refine mirrors_of_ordinary ht hn rfl ((lower_calls hl operand).bind fun c => .pure ?_)
    exact fun hc => ⟨hc.trans (hsingle operand).symm, rfl⟩
  | update op before operand =>
    exact mirrors_of_ordinary ht hn rfl
      (HasCalls.getD .nil (update?_calls ht hl op before operand .value))
  | delete operand =>
    exact mirrors_of_ordinary ht hn rfl
      (HasCalls.getD vacuousDeletion (deletion?_calls ht hl id operand .value))
  | template head spans =>
    refine mirrors_of_ordinary ht hn rfl ((template_calls hl hf head spans).mono fun c hc => ?_)
    refine ⟨hc.1.trans ?_, hc.2⟩
    rw [Source.Node.children, List.map_map]
    rfl
  | asserted expression type =>
    have hpeel : ctx.arena.peel? id = some expression := by simp only [Arena.peel?, hn]
    refine (lowerInContext_calls ht hl expression type).mono fun c hc => ⟨?_, ?_⟩
    · rw [hc.calls, callsUnder_of_peel? ht hpeel]
    · rw [hc.name, nameOf?_of_peel? ht hpeel]
  | parenthesized inner =>
    have hpeel : ctx.arena.peel? id = some inner := by simp only [Arena.peel?, hn]
    refine (hl inner).mono fun c hc => ⟨?_, ?_⟩
    · rw [hc.calls, callsUnder_of_peel? ht hpeel]
    · rw [hc.name, nameOf?_of_peel? ht hpeel]
  | _ => exact (Delivers.report_error id rfl).bind fun _ => .pure False.elim

end Functions

/-- The code of an expression has the calls of the expression. -/
theorem expressionAt_mirrors {ctx : Context} {f : String} (ht : ctx.arena.IsTree)
    (hf : f ≠ "tostring") (room : Nat) (id : NodeId) :
    Delivers ctx (Mirrors ctx.arena f id) (expressionAt room id) := by
  induction room generalizing id with
  | zero => exact (Delivers.reportDepth id).bind fun _ => .pure False.elim
  | succ room ih =>
    refine .bind_node? fun n hn => ?_
    cases n with
    | some n => exact expressionNode_mirrors ht ih hf hn
    | none =>
      refine .pure ⟨(callsUnder_of_get?_none ht hn).symm, ?_⟩
      rw [nameOf?_eq (by simp only [Arena.peel?, hn]), hn]
      rfl

theorem expression_mirrors {ctx : Context} {f : String} (ht : ctx.arena.IsTree)
    (hf : f ≠ "tostring") (id : NodeId) : Delivers ctx (Mirrors ctx.arena f id) (expression id) :=
  expressionAt_mirrors ht hf maxNesting id

section Statements

variable {ctx : Context} {f : String} (ht : ctx.arena.IsTree) (hf : f ≠ "tostring")

include ht hf

theorem expressionStatement_calls (id : NodeId) :
    Delivers ctx (fun cs => Code.callsAll f cs = ctx.arena.callsUnder f id)
      (expressionStatement id) := by
  have hl := expression_mirrors ht hf
  have hone {cs : List Code} {c : Code} (h : cs = [c]) : Code.callsAll f cs = c.calls f := by
    rw [h, Code.callsAll, Code.callsAll, Nat.add_zero]
  have hlist {ids : List NodeId} {act : LowerM (Option Code)}
      (h : Delivers ctx (HasCalls ctx f ids .statement) act) :
      Delivers ctx (fun cs => Code.callsAll f cs = (ids.map (ctx.arena.callsUnder f)).sum)
        (do return (← act).toList) := by
    refine h.bind fun o => .pure ?_
    rintro ⟨c, rfl, hcalls, -⟩
    exact (hone rfl).trans hcalls
  refine .bind_read ?_
  rw [← callsUnder_strip ht id]
  dsimp only
  split
  · next hn => exact .pure (callsUnder_of_get?_none ht hn).symm
  · next target op value hn =>
    rw [callsUnder_eq ht hn (by rintro _ _ ⟨⟩)]
    exact hlist (assignment?_calls ht hl _ target op value .statement)
  · next op before operand hn =>
    rw [callsUnder_eq ht hn (by rintro _ _ ⟨⟩)]
    exact hlist (update?_calls ht hl op before operand .statement)
  · next operand hn =>
    rw [callsUnder_eq ht hn (by rintro _ _ ⟨⟩)]
    exact hlist (deletion?_calls ht hl _ operand .statement)
  · refine (hl _).bind fun c => .pure fun hc => ?_
    rw [hone rfl, asStatement_calls, hc.calls]

omit ht hf in
theorem statements_calls {lower : NodeId → LowerM (List Code)} {ids : List NodeId}
    (h : ∀ id ∈ ids, Delivers ctx (fun cs => Code.callsAll f cs = ctx.arena.callsUnder f id)
      (lower id)) :
    Delivers ctx (fun cs => Code.callsAll f cs = (ids.map (ctx.arena.callsUnder f)).sum)
      (statements lower ids) := by
  refine (Delivers.mapM h).bind fun blocks => .pure fun hblocks => ?_
  rw [sealReturns_calls, Code.callsAll_flatten]
  exact sum_eq_of_forall₂ hblocks

theorem statementNode_calls {lower : NodeId → LowerM (List Code)} {id : NodeId} {n : Node}
    (hn : ctx.arena.get? id = some n)
    (h : ∀ c ∈ n.children, Delivers ctx (fun cs => Code.callsAll f cs = ctx.arena.callsUnder f c)
      (lower c)) :
    Delivers ctx (fun cs => Code.callsAll f cs = ctx.arena.callsUnder f id)
      (statementNode lower id n) := by
  have hl := expression_mirrors ht hf
  have hone (c : Code) : Code.callsAll f [c] = c.calls f := by
    rw [Code.callsAll, Code.callsAll, Nat.add_zero]
  have hsingle (c : NodeId) : ([c].map (ctx.arena.callsUnder f)).sum = ctx.arena.callsUnder f c :=
    List.sum_singleton
  cases n with
  | variableDecl x initializer =>
    rw [callsUnder_eq ht hn (by rintro _ _ ⟨⟩)]
    cases initializer with
    | none => exact .pure rfl
    | some e =>
      have hvalue : Delivers ctx (Mirrors ctx.arena f e) (initialValue x e) :=
        .bind_read (lowerInContext_calls ht hl e _)
      refine hvalue.bind fun c => .pure fun hc => ?_
      rw [hone, Code.bindLocal, Code.calls, hone, hc.calls]
      exact (hsingle e).symm
  | ambientDecl x =>
    rw [callsUnder_eq ht hn (by rintro _ _ ⟨⟩)]
    exact .pure rfl
  | expressionStatement e =>
    rw [callsUnder_eq ht hn (by rintro _ _ ⟨⟩), Source.Node.children, hsingle]
    exact expressionStatement_calls ht hf e
  | returns value =>
    rw [callsUnder_eq ht hn (by rintro _ _ ⟨⟩)]
    cases value with
    | none => exact .pure rfl
    | some value =>
      refine (hl value).bind fun c => .pure fun hc => ?_
      rw [hone, Code.yields, Code.calls, hone, hc.calls]
      exact (hsingle value).symm
  | block ids =>
    rw [callsUnder_eq ht hn (by rintro _ _ ⟨⟩)]
    refine (statements_calls h).bind fun body => .pure fun hbody => ?_
    rw [hone, Code.calls]
    exact hbody
  | functionDecl x parameters body =>
    rw [callsUnder_eq ht hn (by rintro _ _ ⟨⟩)]
    refine (statements_calls h).bind fun body => .pure fun hbody => ?_
    rw [hone, Code.calls]
    exact hbody
  | file name ids =>
    rw [callsUnder_eq ht hn (by rintro _ _ ⟨⟩)]
    exact statements_calls h
  | _ => exact (Delivers.report_error id rfl).bind fun _ => .pure False.elim

/-- Where there are as many levels as nodes up to a statement, all of it is lowered. -/
theorem statementAt_calls {room : Nat} {id : NodeId} (hid : ctx.arena.Has id → id.index < room) :
    Delivers ctx (fun cs => Code.callsAll f cs = ctx.arena.callsUnder f id)
      (statementAt room id) := by
  induction room generalizing id with
  | zero =>
    have hout : ¬ ctx.arena.Has id := fun h => absurd (hid h) (Nat.not_lt_zero _)
    exact .pure (callsUnder_of_get?_none ht (Arena.get?_of_not_has hout)).symm
  | succ room ih =>
    refine .bind_node? fun n hn => ?_
    cases n with
    | some n =>
      refine statementNode_calls ht hf hn fun c hc => ih fun hhas => ?_
      have hchild : ctx.arena.IsChild id c := ⟨Arena.children_of_get? hn ▸ hc, hhas⟩
      exact (ht.lt hchild).trans_le (Nat.lt_succ_iff.1 (hid (Arena.has_of_get? hn)))
    | none => exact .pure (callsUnder_of_get?_none ht hn).symm

end Statements

end Lowering

/-- In a file that is lowered without an error, a function is called by its name as often as calls
of that name are in the tree under the root. Only calls of `tostring` are added. -/
theorem lowerFile_calls {a : Arena} (ht : a.IsTree) (root : NodeId) (store : TypeStore)
    (facts : TypeFacts) (fold : Bool) {f : String} (hf : f ≠ "tostring")
    (hok : ∀ d ∈ (lowerFile a root store facts fold).2, ¬ d.isError) :
    Code.callsAll f (lowerFile a root store facts fold).1 =
      {id | a.Reaches root id ∧ a.callsName f id}.ncard := by
  let ctx : Lowering.Context := ⟨a, facts, fold, fileName a root⟩
  have hdelivers : Lowering.Delivers ctx
      (fun cs => Code.callsAll f cs = a.callsUnder f root) (Lowering.chunk root) :=
    .bind_read (Lowering.statementAt_calls ht hf id)
  obtain ⟨-, -, hresult⟩ := hdelivers ⟨store, [], false⟩ (by rintro ⟨⟩)
  have hfailed : ¬ (Lowering.chunk root ctx ⟨store, [], false⟩).2.Failed := by
    rintro ⟨d, hd, herror⟩
    exact hok d (List.mem_reverse.2 hd) herror
  exact (hresult hfailed).trans (ht.weigh_eq_ncard (Lowering.callsName_within a f) root)

/-- `a[f()] += (g)(f() as number)` -/
def callingArena : Arena :=
  let nodes : List Node :=
    [.identifier "a", .identifier "f", .call ⟨1⟩ [], .element ⟨0⟩ ⟨2⟩, .identifier "g",
      .parenthesized ⟨4⟩, .identifier "f", .call ⟨6⟩ [], .asserted ⟨7⟩ .number, .call ⟨5⟩ [⟨8⟩],
      .assign ⟨3⟩ .add ⟨9⟩, .expressionStatement ⟨10⟩, .file "main.ts" [⟨11⟩]]
  ⟨(nodes.map fun n => (n, ⟨0, 0⟩)).toArray⟩

/-- The written entry is read too, and its key calls `f`. -/
theorem lowerFile_calls_of_compound :
    callingArena.IsTree ∧ (lowerFile callingArena ⟨12⟩ .initial .empty true).2 = [] ∧
      Code.callsAll "f" (lowerFile callingArena ⟨12⟩ .initial .empty true).1 =
        {id | callingArena.Reaches ⟨12⟩ id ∧ callingArena.callsName "f" id}.ncard := by
  have ht : callingArena.IsTree := by decide +kernel
  have hnone : (lowerFile callingArena ⟨12⟩ .initial .empty true).2 = [] := by cbv
  refine ⟨ht, hnone, lowerFile_calls ht ⟨12⟩ .initial .empty true (by decide) ?_⟩
  rw [hnone]
  exact fun _ h => absurd h List.not_mem_nil

end ScriptToLua
