import Mathlib
import ScriptToLua.Lowering.Literal
import ScriptToLua.Proofs.Lua.Filling

/-!
Array literals. Their elements run from left to right and end up in the slots of a new table, which keeps
the border at its first hole: `arrayLiteral_eval`.
-/

namespace ScriptToLua.Lowering

open Lua (Code Chain Machine Table Value callAt)

/-- An array literal evaluates its elements from left to right, with an empty table beside all others
that none of them can reach, and gives this table. It then holds the values of the elements in its
slots and nothing else. Whatever is written to it later, no entry is `nil`, and its border is its first
hole. -/
theorem arrayLiteral_eval (room : Nat) (c : Chain) {m : Machine} (hm : m.Linked) {es : List Code}
    (hlength : es.length ≤ 2 ^ 53) :
    let id := m.tables.size
    let o := Code.evalAll (callAt room) c es { m with tables := m.tables.push .empty }
    let o' := (arrayLiteral es).eval (callAt room) c m
    o'.1 = o.1.map (fun _ => .table id) ∧
    ∃ t, o'.2 = o.2.setTable id t ∧ o'.2.Fits (.hiding id t) ∧
      ∀ vs, o.1 = .ok vs → t.IsArray vs ∧
        ∀ t', Relation.ReflTransGen Table.Writes t t' →
          (t'.AllValues fun v => v.isNil = false) ∧
          (∀ n, t'.border = n ↔ (∀ i, 1 ≤ i → i ≤ n → (t'.read (.int i)).isNil = false) ∧
            (t'.read (.int (n + 1 : Nat))).isNil) ∧
          ∀ i < 9000000000000000, t'.get (.number (Float.ofNat i)) = t'.read (.int i) := by
  intro id o o'
  have hhidden : ({ m with tables := m.tables.push .empty } : Machine).Fits (.hiding id .empty) :=
    hm.hiding
  obtain ⟨t, hfill, ht⟩ := Lua.fillAll_items_hidden room c hhidden es 1
  have ho' : o' = (o.1.map fun _ => .table id, o.2.setTable id t) := by
    have htable : (arrayLiteral es).eval (callAt room) c = (do
        let id ← Lua.EvalM.newTable
        (fun _ => .table id) <$> Lua.Field.fillAll (callAt room) c id 1 (es.map Lua.Field.item)) := by
      simp only [arrayLiteral, Code.eval, map_eq_pure_bind]
    have hresult : (o.1.map fun _ => ()).map (fun _ => Value.table id) =
        o.1.map fun _ => Value.table id := by
      cases o.1 <;> rfl
    change (arrayLiteral es).eval (callAt room) c m = _
    rw [htable, Lua.EvalM.bind_run, Lua.EvalM.newTable_run]
    dsimp only
    rw [Lua.EvalM.map_run, hfill]
    exact congrArg (Prod.mk · (o.2.setTable id t)) hresult
  have ho : o.2.Fits (.hiding id .empty) := Lua.evalAll_hidden room c hhidden es
  rw [ho']
  refine ⟨rfl, t, rfl, ho.setHidden t, fun vs hvs => ?_⟩
  have hvalues : vs.length = es.length := Lua.evalAll_length (Prod.ext hvs rfl : o = (.ok vs, o.2))
  have harray := Table.isArray_fill (hvalues ▸ hlength)
  rw [← ht vs hvs] at harray
  refine ⟨harray, fun t' hwrites => ?_⟩
  have hreached : t.Reached := ht vs hvs ▸ Table.Reached.fill .empty 1 vs
  have hsound := (hreached.of_writes hwrites).sound
  refine ⟨hsound.values, hsound.border_eq_iff, fun i hi => ?_⟩
  rw [Table.get_of_key (Lua.Key.ofValue_slot i), Lua.Key.slot_eq_int hi]

/-- The border of `{"a", nil, "b"}` is 1, and once its first slot has been cleared it is 0. -/
theorem arrayLiteral_eval_of_hole :
    let o := (arrayLiteral [.string "a", .nil, .string "b"]).eval (callAt 0) [] .initial
    o.1 = .ok (.table 0) ∧ (o.2.table 0).get (.number (Float.ofNat 3)) = .string "b" ∧
      (o.2.table 0).border = 1 ∧
      ∃ t, (o.2.table 0).set (.number (Float.ofNat 1)) .nil = .ok t ∧ t.border = 0 := by
  intro o
  have hlength : [Code.string "a", .nil, .string "b"].length ≤ 2 ^ 53 := by norm_num
  obtain ⟨hresult, t, -, hfits, hvalues⟩ := arrayLiteral_eval 0 [] Machine.initial_linked hlength
  have htable : o.2.table 0 = t := hfits.content 0 rfl
  obtain ⟨harray, hlater⟩ := hvalues [.string "a", .nil, .string "b"] rfl
  obtain ⟨-, hborder, hslots⟩ := hlater t .refl
  have hset := Table.set_of_key (Lua.Key.ofValue_slot 1) t .nil
  obtain ⟨-, hborder', -⟩ := hlater _ (.single ⟨_, _, hset⟩)
  rw [htable]
  refine ⟨hresult, harray.slots 2 (by decide), (hborder 1).2 ⟨fun i hi hi' => ?_, ?_⟩, _, hset,
    (hborder' 0).2 ⟨fun i hi hi' => by omega, ?_⟩⟩
  · obtain rfl : i = 1 := by omega
    rw [← hslots 1 (by norm_num), harray.slots 0 (by decide)]
    rfl
  · rw [← hslots 2 (by norm_num), harray.slots 1 (by decide)]
    rfl
  · rw [Lua.Key.slot_eq_int (by norm_num), Table.read_write, if_pos rfl]
    rfl

end ScriptToLua.Lowering
