import Mathlib
import ScriptToLua.Proofs.Lowering.WriteRun

/-!
Deletions. The code of a deletion evaluates the table and the key of the slot and then clears it; where
the value is needed, a function around that adds nothing but the value: `deletion_agrees`.
-/

namespace ScriptToLua

namespace Lua

/-- The table and the key of an access. -/
def Code.slot? : Code → Option (Code × Code)
  | .index t k => some (t, k)
  | .member t x => some (t, .string x)
  | _ => none

/-- The second machine is the first, except that nothing is left under the key in the table. -/
structure Machine.Cleared (m m' : Machine) (id : TableId) (k : Key) : Prop where
  slot : (m'.table id).read k = .nil
  others : ∀ id' k', (id', k') ≠ (id, k) → (m'.table id').get? k' = (m.table id').get? k'
  rest : m' = { m with tables := m'.tables }

section Slots

variable {slot t k : Code} {c : Chain} {m m' : Machine}

theorem Code.locate_of_slot? (h : slot.slot? = some (t, k)) (call : Caller) (c : Chain) :
    slot.locate call c = (do
      let v ← t.eval call c
      let w ← k.eval call c
      return .entry v w) := by
  cases slot with
  | index _ _ =>
    cases h
    simp only [Code.locate]
  | member _ _ =>
    cases h
    simp only [Code.locate, Code.eval, pure_bind]
  | _ => cases h

/-- Only a slot of a table can be cleared. -/
theorem store_nil_ok {v w : Value} {u : Unit} (h : store c (.entry v w) .nil m = (.ok u, m')) :
    ∃ id key, v = .table id ∧ Key.ofValue w = .ok key ∧ m.Cleared m' id key := by
  cases v with
  | table id =>
    have hrun : store c (.entry (.table id) w) .nil m = EvalM.setEntry id w .nil m := rfl
    rw [hrun, EvalM.setEntry_run, Table.set] at h
    cases hk : Key.ofValue w with
    | error e =>
      rw [hk] at h
      cases h
    | ok key =>
      rw [hk] at h
      obtain rfl : m.setTable id ((m.table id).erase key) = m' := congrArg Prod.snd h
      refine ⟨id, key, rfl, rfl, ?_, fun id' k' hne => ?_, rfl⟩
      · rw [Table.read, Machine.table_setTable_eq]
        split
        · rw [OrderedMap.get?_erase, if_pos rfl, Option.getD_none]
        · next hid =>
          have hout : m.tables[id]? = none := Array.getElem?_eq_none (by simpa using hid)
          rw [Machine.table, hout]
          rfl
      · rw [Machine.table_setTable_eq]
        split
        · next hid =>
          obtain ⟨rfl, -⟩ := hid
          have hkey : k' ≠ key := fun he => hne (he ▸ rfl)
          rw [OrderedMap.get?_erase, if_neg hkey]
        · rfl
  | _ => cases h

end Slots

end Lua

namespace Lowering

open Lua

section Deletion

variable {slot t k : Code} {c : Chain} {m : Machine} {room : Nat}

theorem deletion_statement_exec (call : Caller) (c : Chain) (slot : Code) :
    (deletion slot .statement).exec call c = (do
      let l ← slot.locate call c
      let v ← Code.nil.eval call c
      store c l v
      return .next) := by
  simp only [deletion, Code.store, Code.exec, Code.locateAll, Code.evalAll, storeAll, bind_assoc,
    pure_bind]

theorem deletion_statement_inOrder (h : slot.slot? = some (t, k)) (call : Caller) (c : Chain) :
    (deletion slot .statement).exec call c = (do
      let v ← t.eval call c
      let w ← k.eval call c
      store c (.entry v w) .nil
      return .next) := by
  simp only [deletion_statement_exec, Code.locate_of_slot? h, Code.eval, bind_assoc, pure_bind]

/-- The statements in the function around a deletion beside the deletion in a statement. -/
theorem deletion_ends {f : ScopeMap} {s : ScopeMap.Surplus} {n : Nat} {call call' : Caller}
    (hcall : f.Callers call call') (hc : f.Chains true c (n :: c)) (hslot : slot.Avoids f.reserved) :
    f.EndsIn s (fun w v => w = .next ∧ v = .boolean true) ((deletion slot .statement).exec call c)
      (runBody call' (n :: c) [.store slot .nil, .yields (.boolean true)]) := by
  rw [deletion_statement_exec, runBody_eq]
  refine ScopeMap.store_ends hc (ScopeMap.locate_simulates hcall hc slot (fun _ => hslot) s)
    (fun _ => ScopeMap.eval_simulates hcall hc .nil (fun _ => trivial) s) fun _ => ?_
  have hyield : (Code.execAll call' (n :: c) [.yields (.boolean true)] >>= finish) =
      pure (.boolean true) := by
    simp only [Code.yields, Code.execAll, Code.exec, Code.eval, finish, pure_bind]
  rw [hyield]
  exact (ScopeMap.Simulates.pure ⟨rfl, rfl⟩ s).ends

/-- A deletion that ends without a fault has evaluated the table and then the key, and has cleared the
slot between them. -/
theorem deletion_statement_ok (hslot : slot.slot? = some (t, k)) {call : Caller} {w : Flow}
    {m' : Machine} (h : (deletion slot .statement).exec call c m = (.ok w, m')) :
    w = .next ∧ ∃ id b m₁ m₂ key, t.eval call c m = (.ok (.table id), m₁) ∧
      k.eval call c m₁ = (.ok b, m₂) ∧ Key.ofValue b = .ok key ∧ m₂.Cleared m' id key := by
  rw [deletion_statement_inOrder hslot] at h
  obtain ⟨v, m₁, hv, h⟩ := EvalM.of_bind_ok h
  obtain ⟨b, m₂, hb, h⟩ := EvalM.of_bind_ok h
  obtain ⟨u, m₃, hu, h⟩ := EvalM.of_bind_ok h
  cases h
  obtain ⟨id, key, rfl, hkey, hcleared⟩ := store_nil_ok hu
  exact ⟨rfl, id, b, m₁, m₂, key, hv, hb, hkey, hcleared⟩

/-- Evaluated as a value, a deletion ends like the same deletion in a statement, with the same fault or
with `true`: all scopes that were there and all tables hold the same, up to the scope that the function
around it opens. In a statement it evaluates the table and then the key, once each, and where it ends
without a fault the slot is `nil` in the end and no other entry has changed since the key was evaluated,
in both positions. The function around the value has taken the number of a closure when the parts of the
slot start to run. -/
theorem deletion_agrees (hslot : slot.slot? = some (t, k)) (hm : m.Sound)
    (hc : ∀ i ∈ c, i < m.scopes.size)
    (ho : ((deletion slot .value).eval (callAt room) c m).1 ≠ .error .stackOverflow) :
    let m₀ := Write.start m .value
    let o := (deletion slot .statement).exec (callAt room) c m₀
    let o' := (deletion slot .value).eval (callAt room) c m
    (deletion slot .statement).exec (callAt room) c = (do
      let v ← t.eval (callAt room) c
      let w ← k.eval (callAt room) c
      store c (.entry v w) .nil
      return .next) ∧
    ∃ (f : ScopeMap) (s : ScopeMap.Surplus),
      (∀ i < m.scopes.size, f.image i = i) ∧ s.calls = 0 ∧ f.Machines s o.2 o'.2 ∧
      ScopeMap.Results (fun w v => w = .next ∧ v = .boolean true) o.1 o'.1 ∧
      (o.1 = .ok .next → ∃ id b m₁ m₂ key,
        t.eval (callAt room) c m₀ = (.ok (.table id), m₁) ∧
        k.eval (callAt room) c m₁ = (.ok b, m₂) ∧ Key.ofValue b = .ok key ∧
        m₂.Cleared o.2 id key ∧ (o'.2.table id).read key = .nil ∧
        ∀ id' k', (id', k') ≠ (id, key) →
          Option.Rel f.Values ((m₂.table id').get? k') ((o'.2.table id').get? k')) := by
  intro m₀ o o'
  refine ⟨deletion_statement_inOrder hslot _ _, ?_⟩
  have hn : (ScopeMap.gap m.scopes.size []).Extra m.scopes.size := ScopeMap.gap_extra_iff.2 rfl
  have hcs := ScopeMap.Chains.extra hn (ScopeMap.gap_chains hc).loosen
  obtain ⟨s, hcalls, hms, hr⟩ := Write.immediate_ends hm (fun room' hroom =>
    deletion_ends (ScopeMap.callAt_simulates hroom) hcs slot.avoids_nil) ho
  refine ⟨_, s, fun i hi => ScopeMap.gap_image_of_lt hi, hcalls, hms, hr, fun hok => ?_⟩
  obtain ⟨-, id, b, m₁, m₂, key, ht, hk, hkey, hcleared⟩ :=
    deletion_statement_ok hslot (Prod.ext hok rfl : o = (.ok .next, o.2))
  refine ⟨id, b, m₁, m₂, key, ht, hk, hkey, hcleared, ?_, fun id' k' hne => ?_⟩
  · have hvalues : (ScopeMap.gap m.scopes.size []).Values ((o.2.table id).read key)
        ((o'.2.table id).read key) := (hms.tables id).getD key
    rw [hcleared.slot] at hvalues
    generalize (o'.2.table id).read key = v at hvalues
    cases hvalues
    rfl
  · rw [← hcleared.others id' k' hne]
    exact (hms.tables id').get? k'

/-- The key is what a function returns that is called for it. -/
theorem deletion_agrees_at_called_key :
    let slot := (Write.slot [.yields (.string "k")]).code
    let o := (deletion slot .statement).exec (callAt maxCallDepth) [] (Write.start Write.holder .value)
    let o' := (deletion slot .value).eval (callAt maxCallDepth) [] Write.holder
    o.1 = .ok .next ∧ o'.1 = .ok (.boolean true) ∧
      ∃ (f : ScopeMap) (s : ScopeMap.Surplus) (id : TableId) (key : Key),
        f.Machines s o.2 o'.2 ∧ (o'.2.table id).read key = .nil := by
  intro slot o o'
  have hok : o.1 = .ok .next := by cbv
  have htrue : o'.1 = .ok (.boolean true) := by cbv
  have ho : o'.1 ≠ .error .stackOverflow := fun h => by cases htrue.symm.trans h
  have hparts : slot.slot? = some (.name "a", .immediate [.yields (.string "k")]) := rfl
  have hc : ∀ i ∈ ([] : Chain), i < Write.holder.scopes.size := List.forall_mem_nil _
  obtain ⟨-, f, s, -, -, hms, -, hslot⟩ :=
    deletion_agrees hparts Write.holder_sound hc ho
  obtain ⟨id, -, -, -, key, -, -, -, -, hread, -⟩ := hslot hok
  exact ⟨hok, htrue, f, s, id, key, hms, hread⟩

end Deletion

end Lowering

end ScriptToLua
