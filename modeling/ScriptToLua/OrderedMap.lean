/-!
Finite maps that remember the order in which their keys arrived. Writing to a key that is already
present replaces the value and keeps the position. The main statements say how a lookup sees each
operation: `get?_insert`, `get?_erase` and `get?_filter`.
-/

namespace ScriptToLua

/-- Distinct keys with their values, in the order of arrival. -/
structure OrderedMap (κ υ : Type) where
  entries : List (κ × υ)
  nodup : (entries.map Prod.fst).Nodup

namespace OrderedMap

variable {κ υ : Type} [DecidableEq κ]

/-- The value that a list of entries pairs with `k` first. -/
def find? (k : κ) : List (κ × υ) → Option υ
  | [] => none
  | (k', v) :: rest => if k' = k then some v else find? k rest

/-- The entries with `k` bound to `v`, in place if `k` is present and at the end otherwise. -/
def put (k : κ) (v : υ) : List (κ × υ) → List (κ × υ)
  | [] => [(k, v)]
  | (k', w) :: rest => if k' = k then (k, v) :: rest else (k', w) :: put k v rest

theorem mem_keys_put {k x : κ} {v : υ} {l : List (κ × υ)} :
    x ∈ (put k v l).map Prod.fst ↔ x = k ∨ x ∈ l.map Prod.fst := by
  induction l with
  | nil => simp [put]
  | cons e l ih =>
    by_cases h : e.1 = k
    · simp [put, h]
    · simp only [put, if_neg h, List.map_cons, List.mem_cons, ih]
      exact ⟨fun h => by rcases h with h | h | h <;> simp [h],
        fun h => by rcases h with h | h | h <;> simp [h]⟩

theorem nodup_put {k : κ} {v : υ} {l : List (κ × υ)} (h : (l.map Prod.fst).Nodup) :
    ((put k v l).map Prod.fst).Nodup := by
  induction l with
  | nil => simp [put]
  | cons e l ih =>
    rw [List.map_cons, List.nodup_cons] at h
    by_cases hk : e.1 = k
    · simpa [put, hk] using ⟨by simpa [hk] using h.1, h.2⟩
    · rw [put, if_neg hk, List.map_cons, List.nodup_cons, mem_keys_put]
      exact ⟨fun hm => hm.elim hk h.1, ih h.2⟩

theorem find?_put {k x : κ} {v : υ} {l : List (κ × υ)} :
    find? x (put k v l) = if k = x then some v else find? x l := by
  induction l with
  | nil => simp [put, find?]
  | cons e l ih =>
    by_cases hk : e.1 = k
    · by_cases hx : k = x <;> simp [put, find?, hk, hx]
    · by_cases hx : e.1 = x
      · have : k ≠ x := fun h => hk (hx.trans h.symm)
        simp only [put, if_neg hk, find?, if_pos hx, if_neg this]
      · simp only [put, if_neg hk, find?, if_neg hx, ih]

theorem find?_filter {p : κ → Bool} {x : κ} {l : List (κ × υ)} :
    find? x (l.filter fun e => p e.1) = if p x then find? x l else none := by
  induction l with
  | nil => simp [find?]
  | cons e l ih =>
    by_cases hp : p e.1 <;> by_cases hx : e.1 = x
    · subst hx
      simp [find?, hp]
    · simp [find?, hp, hx, ih]
    · subst hx
      simp [hp, ih]
    · simp [find?, hp, hx, ih]

theorem find?_isSome {x : κ} {l : List (κ × υ)} :
    (find? x l).isSome ↔ x ∈ l.map Prod.fst := by
  induction l with
  | nil => simp [find?]
  | cons e l ih =>
    by_cases hx : e.1 = x
    · simp [find?, hx]
    · have hx' : x ≠ e.1 := fun h => hx h.symm
      simpa [find?, hx, hx'] using ih

/-- The map without entries. -/
def empty : OrderedMap κ υ := ⟨[], List.nodup_nil⟩

instance : Inhabited (OrderedMap κ υ) := ⟨empty⟩

/-- The value bound to `k`. -/
def get? (m : OrderedMap κ υ) (k : κ) : Option υ := find? k m.entries

def contains (m : OrderedMap κ υ) (k : κ) : Bool := (m.get? k).isSome

def size (m : OrderedMap κ υ) : Nat := m.entries.length

def isEmpty (m : OrderedMap κ υ) : Bool := m.entries.isEmpty

/-- The values in the order of their keys. -/
def values (m : OrderedMap κ υ) : List υ := m.entries.map Prod.snd

def insert (m : OrderedMap κ υ) (k : κ) (v : υ) : OrderedMap κ υ :=
  ⟨put k v m.entries, nodup_put m.nodup⟩

/-- The entries whose key satisfies `p`. -/
def filter (p : κ → Bool) (m : OrderedMap κ υ) : OrderedMap κ υ :=
  ⟨m.entries.filter fun e => p e.1,
    m.nodup.sublist (List.filter_sublist.map Prod.fst)⟩

def erase (m : OrderedMap κ υ) (k : κ) : OrderedMap κ υ := m.filter fun x => x ≠ k

/-- Inserts the entries of `l` from left to right. -/
def insertAll (m : OrderedMap κ υ) (l : List (κ × υ)) : OrderedMap κ υ :=
  l.foldl (fun m e => m.insert e.1 e.2) m

/-- The later of two entries for one key gives the value, the earlier one the position. -/
def ofList (l : List (κ × υ)) : OrderedMap κ υ := empty.insertAll l

@[simp]
theorem get?_empty (k : κ) : (empty : OrderedMap κ υ).get? k = none := rfl

@[simp]
theorem get?_insert (m : OrderedMap κ υ) (k x : κ) (v : υ) :
    (m.insert k v).get? x = if k = x then some v else m.get? x := find?_put

@[simp]
theorem get?_filter (m : OrderedMap κ υ) (p : κ → Bool) (x : κ) :
    (m.filter p).get? x = if p x then m.get? x else none := find?_filter

@[simp]
theorem get?_erase (m : OrderedMap κ υ) (k x : κ) :
    (m.erase k).get? x = if x = k then none else m.get? x := by
  by_cases h : x = k <;> simp [erase, h]

theorem contains_iff_mem (m : OrderedMap κ υ) (k : κ) :
    m.contains k ↔ k ∈ m.entries.map Prod.fst := find?_isSome

end OrderedMap

end ScriptToLua
