import Mathlib
import ScriptToLua.Proofs.Lua.Simulation

/-!
Code that keeps values in a scope of its own. The statements of such a scope are followed one by one
beside a computation that has the values at hand.
-/

namespace ScriptToLua.Lua

/-- The value leads only to scopes below `n`. -/
def Value.Within (n : Nat) : Value → Prop
  | .function f => ∀ i ∈ f.chain, i < n
  | _ => True

/-- All closures in the machine lead to scopes that exist. -/
structure Machine.Sound (m : Machine) : Prop where
  globals : ∀ e ∈ m.globals.entries, e.2.Within m.scopes.size
  scopes : ∀ i, ∀ e ∈ (m.scope i).entries, e.2.Within m.scopes.size
  tables : ∀ id, ∀ e ∈ (m.table id).entries, e.2.Within m.scopes.size

namespace ScopeMap

/-- The map that leaves out the scope `n`. -/
def gap (n : Nat) (reserved : List String) : ScopeMap where
  image i := if i < n then i else i + 1
  strictMono i j h := by
    dsimp only
    split <;> split <;> omega
  reserved

section Gap

variable {n : Nat} {reserved : List String}

theorem gap_image_of_lt {i : Nat} (h : i < n) : (gap n reserved).image i = i := if_pos h

theorem gap_image_of_le {i : Nat} (h : n ≤ i) : (gap n reserved).image i = i + 1 :=
  if_neg (Nat.not_lt.2 h)

theorem gap_extra_iff {i : Nat} : (gap n reserved).Extra i ↔ i = n := by
  constructor
  · intro h
    rcases Nat.lt_trichotomy i n with hi | hi | hi
    · exact absurd (gap_image_of_lt hi) (h i)
    · exact hi
    · obtain ⟨j, rfl⟩ : ∃ j, i = j + 1 := ⟨i - 1, by omega⟩
      exact absurd (gap_image_of_le (by omega)) (h j)
  · intro h j hj
    subst h
    by_cases hl : j < i
    · rw [gap_image_of_lt hl] at hj
      omega
    · rw [gap_image_of_le (by omega)] at hj
      omega

theorem gap_chains {c : Chain} (h : ∀ i ∈ c, i < n) : (gap n reserved).Chains false c c := by
  induction c with
  | nil => exact .nil
  | cons i c ih =>
    have hc := Chains.cons i (ih fun j hj => h j (List.mem_cons_of_mem _ hj))
    rwa [gap_image_of_lt (h i List.mem_cons_self)] at hc

theorem gap_values {v : Value} (h : v.Within n) : (gap n reserved).Values v v := by
  cases v with
  | function g => exact .closure (gap_chains h) nofun
  | _ => exact .plain _ nofun

theorem gap_maps {κ : Type} {m : OrderedMap κ Value} (h : ∀ e ∈ m.entries, e.2.Within n) :
    (gap n reserved).Maps m m := by
  unfold Maps
  rw [List.forall₂_same]
  intro e he
  exact ⟨rfl, gap_values (h e he)⟩

/-- A machine beside the same machine in which one more scope is open. -/
theorem Machines.open {m : Machine} (h : m.Sound) (reserved : List String) (calls : Nat) :
    (gap m.scopes.size reserved).Machines ⟨fun _ => .empty, m.depth, calls⟩ m
      { m with scopes := m.scopes.push .empty, depth := m.depth + calls } where
  globals := gap_maps h.globals
  scopes i := by
    by_cases hi : i < m.scopes.size
    · have hs : (gap m.scopes.size reserved).Maps (m.scope i) (m.scope i) := gap_maps (h.scopes i)
      rw [gap_image_of_lt hi]
      simpa only [Machine.scope, Array.getElem?_push_lt hi, Array.getElem?_eq_getElem hi] using hs
    · have hle : m.scopes.size ≤ i := Nat.not_lt.1 hi
      rw [gap_image_of_le hle]
      have h1 : m.scopes[i]? = none := Array.getElem?_eq_none hle
      have h2 : (m.scopes.push .empty)[i + 1]? = none :=
        Array.getElem?_eq_none (by rw [Array.size_push]; omega)
      simp only [Machine.scope, h1, h2]
      exact Maps.empty
  fresh k := by
    rw [gap_image_of_le (Nat.le_add_right _ _), Array.size_push]
    omega
  extra i hi := by
    rw [gap_extra_iff.1 hi]
    simp [Machine.scope]
  reserved i x hx := by
    cases hx
  tables_size := rfl
  tables id := gap_maps (h.tables id)
  nextClosure := rfl
  depth := rfl
  depth_add := rfl

end Gap

/-- The surplus after a declaration in the extra scope `n`. -/
def Surplus.declare (s : Surplus) (n : Nat) (x : String) (v : Value) : Surplus :=
  { s with scopes := fun i => if n = i then (s.scopes i).insert x v else s.scopes i }

variable {f : ScopeMap} {s : Surplus} {α α' β β' : Type} {V : α → α' → Prop}
  {W : β → β' → Prop}

theorem Machines.extra_lt {m m' : Machine} (h : f.Machines s m m') {n : Nat}
    (hn : f.Extra n) : n < m'.scopes.size := by
  by_contra hl
  apply hn (m.scopes.size + (n - m'.scopes.size))
  rw [h.fresh]
  omega

theorem Machines.declareExtra {m m' : Machine} (h : f.Machines s m m') {n : Nat}
    (hn : f.Extra n) (c : Chain) {x : String} (hx : x ∈ f.reserved) (v : Value) :
    f.Machines (s.declare n x v) m (m'.declare (n :: c) x v) where
  globals := h.globals
  scopes j := by
    rw [Machine.declare, Machine.scope_modify, if_neg fun e => hn j e.1.symm]
    exact h.scopes j
  fresh k := by simpa [Machine.declare] using h.fresh k
  extra i hi := by
    simp only [Machine.declare, Machine.scope_modify, Surplus.declare, h.extra i hi, h.extra_lt hi, and_true]
  reserved i y hy := by
    simp only [Surplus.declare] at hy
    split at hy
    · by_cases hxy : x = y
      · exact hxy ▸ hx
      · apply h.reserved i
        simpa only [OrderedMap.contains, OrderedMap.get?_insert, if_neg hxy] using hy
    · exact h.reserved i y hy
  tables_size := h.tables_size
  tables := h.tables
  nextClosure := h.nextClosure
  depth := h.depth
  depth_add := h.depth_add

/-- As `SimulatesIn`, but the extra scopes may hold something else in the end. -/
def EndsIn (f : ScopeMap) (s : Surplus) (V : α → α' → Prop) (act : EvalM α)
    (act' : EvalM α') : Prop :=
  ∀ m m', f.Machines s m m' → ∃ scopes, f.Outcomes { s with scopes } V (act m) (act' m')

theorem SimulatesIn.ends {act : EvalM α} {act' : EvalM α'} (h : f.SimulatesIn s V act act') :
    f.EndsIn s V act act' :=
  fun m m' hm => ⟨s.scopes, h m m' hm⟩

theorem SimulatesIn.bindEnds {act : EvalM α} {act' : EvalM α'} {next : α → EvalM β}
    {next' : α' → EvalM β'} (h : f.SimulatesIn s V act act')
    (hn : ∀ a a', V a a' → f.EndsIn s W (next a) (next' a')) :
    f.EndsIn s W (act >>= next) (act' >>= next') := by
  intro m m' hm
  have ho := h m m' hm
  rw [EvalM.bind_run, EvalM.bind_run]
  generalize act m = o at ho ⊢
  generalize act' m' = o' at ho ⊢
  obtain ⟨r, n⟩ := o
  obtain ⟨r', n'⟩ := o'
  rcases ho with rfl | ⟨hm, hr⟩
  · exact ⟨s.scopes, .inl rfl⟩
  · cases hr with
    | ok ha => exact hn _ _ ha _ _ hm
    | error e => exact ⟨s.scopes, .inr ⟨hm, .error e⟩⟩

theorem EndsIn.congr {act₁ act₂ : EvalM α} {act₁' act₂' : EvalM α'} (h : f.EndsIn s V act₁ act₁')
    (h₁ : act₁ = act₂) (h₂ : act₁' = act₂') : f.EndsIn s V act₂ act₂' := by
  rwa [← h₁, ← h₂]

section Steps

variable {call' : Caller} {n : Nat} {c c' : Chain} {fin : Flow → EvalM α'} {rest : List Code}
  {e target : Code} {x : String}

/-- A declaration gives the extra scope a value, and the rest of its statements runs with it. -/
theorem bindLocal_ends {act : EvalM Value} {next : Value → EvalM α} (hn : f.Extra n)
    (hx : x ∈ f.reserved) (he : f.SimulatesIn s f.Values act (e.eval call' (n :: c')))
    (hr : ∀ v v', f.Values v v' → f.EndsIn (s.declare n x v') V (next v)
      (Code.execAll call' (n :: c') rest >>= fin)) :
    f.EndsIn s V (act >>= next) (Code.execAll call' (n :: c') (.bindLocal x e :: rest) >>= fin) := by
  have hd (v v' : Value) (hv : f.Values v v') :
      f.EndsIn s V (next v)
        (modify (fun m => m.declare (n :: c') x v') >>= fun _ =>
          Code.execAll call' (n :: c') rest >>= fin) := by
    intro m m' hm
    rw [EvalM.bind_run_ok (EvalM.modify_run _ _)]
    obtain ⟨scopes, ho⟩ := hr v v' hv m _ (hm.declareExtra hn c' hx v')
    exact ⟨scopes, ho⟩
  refine (he.bindEnds hd).congr rfl ?_
  simp only [Code.bindLocal, Code.execAll, Code.exec, Code.evalAll, Machine.declareAll, bind_assoc,
    pure_bind]

theorem store_ends {act : EvalM Location} {act₂ : Location → EvalM Value}
    {next : Value → EvalM α} (hc : f.Chains true c (n :: c'))
    (hl : f.SimulatesIn s (f.Locations true) act (target.locate call' (n :: c')))
    (he : ∀ l, f.SimulatesIn s f.Values (act₂ l) (e.eval call' (n :: c')))
    (hr : ∀ v, f.EndsIn s V (next v) (Code.execAll call' (n :: c') rest >>= fin)) :
    f.EndsIn s V
      (do
        let l ← act
        let v ← act₂ l
        store c l v
        next v)
      (Code.execAll call' (n :: c') (.store target e :: rest) >>= fin) := by
  have ht := hl.bindEnds fun l l' hl => (he l).bindEnds fun v v' hv =>
    (store_simulates hc hl hv s).bindEnds fun _ _ _ => hr v
  refine ht.congr rfl ?_
  simp only [Code.store, Code.execAll, Code.exec, Code.evalAll, Code.locateAll, storeAll, bind_assoc,
    pure_bind]

theorem yields_ends {act : EvalM Value} {next : Value → EvalM α}
    (he : f.SimulatesIn s f.Values act (e.eval call' (n :: c')))
    (hr : ∀ v v', f.Values v v' → f.EndsIn s V (next v) (fin (.returned v'))) :
    f.EndsIn s V (act >>= next) (Code.execAll call' (n :: c') (.yields e :: rest) >>= fin) := by
  refine (he.bindEnds hr).congr rfl ?_
  simp only [Code.yields, Code.execAll, Code.exec, bind_assoc, pure_bind]

/-- A name that the extra scope declares stands for the value there. -/
theorem name_simulatesIn {v v' : Value} (hn : f.Extra n) (hs : (s.scopes n).get? x = some v')
    (hv : f.Values v v') : f.SimulatesIn s f.Values (pure v) (Code.eval call' (n :: c') (.name x)) := by
  intro m m' hm
  have ho : m'.owner? (n :: c') x = some n := by
    have hx : (m'.scope n).contains x = true := by
      rw [hm.extra n hn, OrderedMap.contains, hs]
      rfl
    simp only [Machine.owner?, List.find?_cons, hx]
  have hl : m'.lookup? (n :: c') x = some v' := by
    simp only [Machine.lookup?, ho, hm.extra n hn, hs]
  simp only [Code.eval, EvalM.bind_run, EvalM.get_run, EvalM.pure_run, hl]
  exact .inr ⟨hm, .ok hv⟩

end Steps

section Same

variable {reserved : List String}

/-- The map that leaves out nothing. -/
def same (reserved : List String) : ScopeMap := ⟨id, strictMono_id, reserved⟩

theorem same_chains (c : Chain) : (same reserved).Chains false c c := by
  induction c with
  | nil => exact .nil
  | cons i c ih => exact .cons i ih

theorem same_values (v : Value) : (same reserved).Values v v := by
  cases v with
  | function g => exact .closure (same_chains g.chain) nofun
  | _ => exact .plain _ nofun

theorem same_maps {κ : Type} (m : OrderedMap κ Value) : (same reserved).Maps m m := by
  unfold Maps
  rw [List.forall₂_same]
  exact fun e _ => ⟨rfl, same_values e.2⟩

theorem same_machines (m : Machine) :
    (same reserved).Machines ⟨fun _ => .empty, m.depth, 0⟩ m m where
  globals := same_maps _
  scopes i := same_maps _
  fresh k := rfl
  extra i hi := absurd rfl (hi i)
  reserved i x hx := by
    change false = true at hx
    exact absurd hx nofun
  tables_size := rfl
  tables id := same_maps _
  nextClosure := rfl
  depth := rfl
  depth_add := rfl

theorem same_flows (w : Flow) : (same reserved).Flows w w := by
  cases w with
  | next => exact .next
  | returned v => exact .returned (same_values v)

end Same

end ScopeMap

/-- Two runs end alike for all who know the first `n` scopes: same result, same variables, same
tables. -/
def Agree (n : Nat) (o o' : Except Fault Flow × Machine) : Prop :=
  ∃ (f : ScopeMap) (s : ScopeMap.Surplus), (∀ i < n, f.image i = i) ∧ s.calls = 0 ∧
    f.Machines s o.2 o'.2 ∧ ScopeMap.Results f.Flows o.1 o'.1

theorem Agree.refl (n : Nat) (o : Except Fault Flow × Machine) : Agree n o o := by
  refine ⟨.same [], _, fun _ _ => rfl, rfl, ScopeMap.same_machines _, ?_⟩
  cases o.1 with
  | ok w => exact .ok (ScopeMap.same_flows w)
  | error e => exact .error e

end ScriptToLua.Lua
