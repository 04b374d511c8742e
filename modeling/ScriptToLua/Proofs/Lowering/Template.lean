import Mathlib
import ScriptToLua.Proofs.Lowering.Compound

/-!
Templates. The code of a template leaves out the empty texts and groups the others to the right, so it
may be a single part or none; its value is the text of the template all the same, `template_eval`.
-/

namespace ScriptToLua.Lowering

open Lua
open Source (Node NodeId)

section Texts

variable {call : Caller} {c : Chain} {m : Machine} {e rest : Code} {act next : EvalM String}

/-- Evaluating the code from `m` computes a string, as `act` does. -/
def Says (call : Caller) (c : Chain) (m : Machine) (e : Code) (act : EvalM String) : Prop :=
  e.eval call c m = (Value.string <$> act) m

theorem Says.string (s : String) : Says call c m (.string s) (pure s) := rfl

/-- What an empty text says is empty. -/
theorem Says.of_isEmptyText (h : Says call c m e act) (he : isEmptyText e) : act m = (.ok "", m) := by
  have hs : e = .string "" := by
    cases e with
    | string s => rw [of_decide_eq_true he]
    | _ => cases he
  rw [Says, hs, EvalM.map_run] at h
  rcases hact : act m with ⟨fault | s, m'⟩
  · rw [hact] at h
    cases h
  · rw [hact] at h
    cases h
    rfl

/-- A concatenation says what its operands say one after the other. -/
theorem Says.concat (h : Says call c m e act)
    (hr : ∀ s m', act m = (.ok s, m') → Says call c m' rest next) :
    Says call c m (.binary e .concat rest) (do
      let s ← act
      let t ← next
      return s ++ t) := by
  rw [Says, EvalM.map_run] at h
  have hconcat : (Code.binary e .concat rest).eval call c = (do
      let a ← e.eval call c
      let b ← rest.eval call c
      EvalM.ofExcept (BinaryOp.concat.apply a b)) := rfl
  rw [Says, hconcat, EvalM.map_run, EvalM.bind_run, EvalM.bind_run, h]
  rcases hs : act m with ⟨fault | s, m'⟩
  · rfl
  · have hnext := hr s m' hs
    rw [Says, EvalM.map_run] at hnext
    simp only [Except.map, EvalM.bind_run, hnext]
    rcases next m' with ⟨fault | t, m''⟩ <;> rfl

theorem filter_eq_nil_iff_all (ps : List Code) :
    ps.filter (fun c => !isEmptyText c) = [] ↔ ps.all isEmptyText := by
  simp [List.filter_eq_nil_iff]

theorem joinTexts_of_all {ps : List Code} (h : ps.all isEmptyText) : joinTexts ps = .string "" := by
  rw [joinTexts, (filter_eq_nil_iff_all ps).2 h, concatenated]

/-- A part stands before the others unless it is empty, and alone if all others are. -/
theorem joinTexts_cons (p : Code) (ps : List Code) :
    joinTexts (p :: ps) = if isEmptyText p then joinTexts ps
      else if ps.all isEmptyText then p else .binary p .concat (joinTexts ps) := by
  rw [joinTexts, List.filter_cons]
  cases isEmptyText p with
  | true => rfl
  | false =>
    simp only [Bool.not_false, if_true, Bool.false_eq_true, if_false]
    split
    · next hall => rw [(filter_eq_nil_iff_all ps).2 hall, concatenated]
    · next hall =>
      have hne := mt (filter_eq_nil_iff_all ps).1 hall
      rw [concatenated, joinTexts]
      exact hne

/-- Joined parts say what the parts say one after the other, the empty ones included. -/
theorem Says.joinTexts_cons {ps : List Code} (h : Says call c m e act)
    (hr : ∀ s m', act m = (.ok s, m') → Says call c m' (joinTexts ps) next) :
    Says call c m (joinTexts (e :: ps)) (do
      let s ← act
      let t ← next
      return s ++ t) := by
  rw [Lowering.joinTexts_cons]
  split
  · next he =>
    have hact := h.of_isEmptyText he
    have hnext := hr "" m hact
    rw [Says, EvalM.map_run] at hnext ⊢
    rw [hnext, EvalM.bind_run_ok hact, EvalM.bind_run]
    rcases next m with ⟨fault | t, m'⟩
    · rfl
    · simp only [Except.map, EvalM.pure_run, String.empty_append]
  · split
    · next hall =>
      rw [Says, EvalM.map_run] at h ⊢
      rw [h, EvalM.bind_run]
      rcases hs : act m with ⟨fault | s, m'⟩
      · rfl
      · have hempty := hr s m' hs
        rw [joinTexts_of_all hall] at hempty
        have hnext := hempty.of_isEmptyText rfl
        simp only [Except.map, EvalM.bind_run, hnext, EvalM.pure_run, String.append_empty]
    · exact h.concat hr

end Texts

section Spans

variable {room : Nat} {c : Chain}

/-- Where the code of a span comes up, `tostring` has not been redeclared by the code before it. -/
def KeepsTostring (room : Nat) (c : Chain) (m : Machine) (es : List Code) : Prop :=
  ∀ i < es.length, ∀ vs m', Code.evalAll (callAt room) c (es.take i) m = (.ok vs, m') →
    m'.lookup? c "tostring" = some (.builtin .tostring)

variable {m m' : Machine} {e : Code} {es : List Code} {v : Value}

theorem KeepsTostring.head (h : KeepsTostring room c m (e :: es)) :
    m.lookup? c "tostring" = some (.builtin .tostring) :=
  h 0 (Nat.zero_lt_succ _) [] m rfl

theorem KeepsTostring.tail (h : KeepsTostring room c m (e :: es))
    (he : e.eval (callAt room) c m = (.ok v, m')) : KeepsTostring room c m' es := by
  intro i hi vs m'' hvs
  refine h (i + 1) (Nat.succ_lt_succ hi) (v :: vs) m'' ?_
  rw [List.take_succ_cons, Code.evalAll, EvalM.bind_run_ok he, EvalM.bind_run_ok hvs]
  rfl

/-- The parts of a template after its head. -/
def spanParts (es : List Code) (texts : List String) : List Code :=
  (List.zipWith (fun e text => [textOf e, .string text]) es texts).flatten

/-- The text of a template after its head. -/
def spanText (vs : List Value) (texts : List String) : String :=
  String.join (List.zipWith (fun v text => v.text ++ text) vs texts)

theorem spanText_cons (v : Value) (vs : List Value) (text : String) (texts : List String) :
    spanText (v :: vs) (text :: texts) = v.text ++ (text ++ spanText vs texts) := by
  rw [spanText, List.zipWith_cons_cons, String.join_cons, String.append_assoc]
  rfl

/-- The parts of the spans say the text of the spans. -/
theorem spanParts_say {texts : List String} (hlength : es.length = texts.length)
    (h : KeepsTostring room c m es) :
    Says (callAt room) c m (joinTexts (spanParts es texts)) (do
      let vs ← Code.evalAll (callAt room) c es
      return spanText vs texts) := by
  induction es generalizing m texts with
  | nil =>
    cases texts with
    | nil => rfl
    | cons => cases hlength
  | cons e es ih =>
    cases texts with
    | nil => cases hlength
    | cons text texts =>
      have hvalue : Says (callAt room) c m (textOf e) (Value.text <$> e.eval (callAt room) c) := by
        rw [Says, textOf_eval h.head, Functor.map_map]
      -- The spans that follow start where the value of this one leaves the machine.
      have hrest (s : String) (m' : Machine)
          (hs : (Value.text <$> e.eval (callAt room) c) m = (.ok s, m')) :
          Says (callAt room) c m' (joinTexts (.string text :: spanParts es texts)) (do
            let literal ← pure text
            let t ← (do
              let vs ← Code.evalAll (callAt room) c es
              return spanText vs texts)
            return literal ++ t) := by
        refine (Says.string text).joinTexts_cons fun _ m'' hm => ?_
        cases hm
        rw [EvalM.map_run] at hs
        rcases he : e.eval (callAt room) c m with ⟨fault | v, m''⟩
        · rw [he] at hs
          cases hs
        · rw [he] at hs
          cases hs
          exact ih (Nat.succ.inj hlength) (h.tail he)
      have hspans := hvalue.joinTexts_cons hrest
      simp only [map_eq_pure_bind, bind_assoc, pure_bind] at hspans
      simp only [Code.evalAll, bind_assoc, pure_bind, spanText_cons]
      exact hspans

end Spans

section Lowered

variable {lower : Lowerer} {ctx : Context}

/-- The codes of the spans, which are lowered from left to right. -/
def spanCodes (lower : Lowerer) (spans : List (NodeId × String)) : LowerM (List Code) :=
  spans.mapM fun p => lower p.1

theorem spanCodes_cons_run (p : NodeId × String) (spans : List (NodeId × String)) (st : State) :
    spanCodes lower (p :: spans) ctx st =
      let e := lower p.1 ctx st
      let es := spanCodes lower spans ctx e.2
      (e.1 :: es.1, es.2) := by
  rw [spanCodes, List.mapM_cons]
  rfl

theorem spanCodes_length (spans : List (NodeId × String)) (st : State) :
    (spanCodes lower spans ctx st).1.length = spans.length := by
  induction spans generalizing st with
  | nil => rfl
  | cons p spans ih =>
    rw [spanCodes_cons_run]
    exact congrArg Nat.succ (ih _)

theorem template_run (head : String) (spans : List (NodeId × String)) (st : State) :
    template lower head spans ctx st =
      let es := spanCodes lower spans ctx st
      (joinTexts (.string head :: spanParts es.1 (spans.map Prod.snd)), es.2) := by
  let spanPair (p : NodeId × String) : LowerM (List Code) := do
    return [textOf (← lower p.1), .string p.2]
  have hpairs : (spans.mapM spanPair) ctx st =
      let es := spanCodes lower spans ctx st
      (List.zipWith (fun e text => [textOf e, .string text]) es.1 (spans.map Prod.snd), es.2) := by
    induction spans generalizing st with
    | nil => rfl
    | cons p spans ih =>
      rw [List.mapM_cons, bind_run, bind_run, ih, spanCodes_cons_run]
      rfl
  have htemplate : template lower head spans =
      (do return joinTexts (.string head :: (← spans.mapM spanPair).flatten)) := rfl
  rw [htemplate, bind_run, hpairs]
  rfl

/-- Evaluating a template evaluates the code of its spans from left to right, and then gives the head
followed by the text of each value and its literal, as long as no span redeclares `tostring` for the
spans after it. -/
theorem template_eval (lower : Lowerer) (head : String) (spans : List (NodeId × String))
    (ctx : Context) (st : State) {room : Nat} {c : Chain} {m : Machine}
    (h : KeepsTostring room c m (spanCodes lower spans ctx st).1) :
    let es := spanCodes lower spans ctx st
    let t := template lower head spans ctx st
    t.2 = es.2 ∧ t.1.eval (callAt room) c m = (do
      let vs ← Code.evalAll (callAt room) c es.1
      return Value.string (head ++ spanText vs (spans.map Prod.snd))) m := by
  intro es t
  have ht : t = (joinTexts (.string head :: spanParts es.1 (spans.map Prod.snd)), es.2) :=
    template_run head spans st
  have hlength : es.1.length = (spans.map Prod.snd).length := by
    rw [spanCodes_length, List.length_map]
  refine ⟨by rw [ht], ?_⟩
  rw [ht]
  have hjoined := (Says.string head).joinTexts_cons fun _ m' hm => by
    cases hm
    exact spanParts_say hlength h
  rw [Says] at hjoined
  simpa only [map_eq_pure_bind, bind_assoc, pure_bind] using hjoined

end Lowered

section Greeting

/-- `a`, `true` and `f()`. -/
def greetingContext : Context where
  arena :=
    let nodes : List Node := [.identifier "a", .boolean true, .identifier "f", .call ⟨2⟩ []]
    ⟨(nodes.map fun n => (n, ⟨0, 0⟩)).toArray⟩
  facts := .empty
  fold := true
  file := "a.ts"

/-- The variable `a` is a word, and the function `f` returns it and forgets `tostring`. -/
def forgetful : Machine :=
  { Machine.initial with
    globals := .ofList [("tostring", .builtin .tostring), ("a", .string "hi"),
      ("f", .function ⟨0, [], [.store (.name "tostring") .nil, .yields (.name "a")], []⟩)]
    nextClosure := 1 }

/-- `${a}, ${true}` -/
theorem template_eval_of_word :
    (template expression "" [(⟨0⟩, ", "), (⟨1⟩, "")] greetingContext ⟨.initial, [], false⟩).1.eval
      (callAt 1) [] forgetful = (.ok (.string "hi, true"), forgetful) := by
  have hcodes : (spanCodes expression [(⟨0⟩, ", "), (⟨1⟩, "")] greetingContext
      ⟨.initial, [], false⟩).1 = [.name "a", .boolean true] := rfl
  have hkeeps : KeepsTostring 1 [] forgetful [.name "a", .boolean true] := by
    intro i hi vs m' hvs
    match i, hi with
    | 0, _ =>
      cases hvs
      rfl
    | 1, _ =>
      cases hvs
      rfl
  rw [← hcodes] at hkeeps
  rw [(template_eval expression "" [(⟨0⟩, ", "), (⟨1⟩, "")] greetingContext _ hkeeps).2, hcodes]
  rfl

/-- It is not enough that `tostring` is the builtin at the start: in `${f()}${true}` it is none when the
second span comes up. -/
theorem not_template_eval :
    let st : State := ⟨.initial, [], false⟩
    let spans : List (NodeId × String) := [(⟨3⟩, ""), (⟨1⟩, "")]
    let es := (spanCodes expression spans greetingContext st).1
    forgetful.lookup? [] "tostring" = some (.builtin .tostring) ∧
      ((Code.evalAll (callAt 1) [] es forgetful).1.map fun vs => spanText vs ["", ""]) = .ok "hitrue" ∧
      ((template expression "" spans greetingContext st).1.eval (callAt 1) [] forgetful).1 =
        .error (.notCallable .nil) :=
  ⟨rfl, rfl, rfl⟩

end Greeting

end ScriptToLua.Lowering
