import ScriptToLua.Types.Basic

/-!
The store of types. Equal data has one id, so types are compared by id; unions and intersections are
brought to a normal form on the way in.
-/

namespace ScriptToLua

/-- Types in the order in which they were first stored. -/
structure TypeStore where
  types : Array TypeData
  deriving Repr

namespace TypeStore

/-- The store that holds the intrinsic types only. -/
def initial : TypeStore := ⟨(Intrinsic.all.map TypeData.intrinsic).toArray⟩

instance : Inhabited TypeStore := ⟨initial⟩

def size (s : TypeStore) : Nat := s.types.size

/-- The data behind an id, if the id was handed out. -/
def get? (s : TypeStore) (t : TypeId) : Option TypeData := s.types[t.index]?

/-- The id under which `d` is stored. -/
def idOf? (s : TypeStore) (d : TypeData) : Option TypeId :=
  (s.types.findIdx? fun d' => d' = d).map TypeId.mk

end TypeStore

/-- A computation that may store further types. -/
abbrev TypeM := StateM TypeStore

/-- The id of `d`, storing it if it is new. -/
def intern (d : TypeData) : TypeM TypeId := fun s =>
  match s.idOf? d with
  | some t => (t, s)
  | none => (⟨s.size⟩, ⟨s.types.push d⟩)

/-- Puts an id into a strictly increasing list of ids. -/
def insertId (t : TypeId) : List TypeId → List TypeId
  | [] => [t]
  | u :: rest =>
    if t.index < u.index then t :: u :: rest
    else if t = u then u :: rest
    else u :: insertId t rest

/-- The ids of a list in increasing order, each once. -/
def sortIds (ts : List TypeId) : List TypeId := ts.foldr insertId []

namespace TypeStore

/-- The members of the unions in `ts`, and the other types of `ts` themselves. -/
def unionMembers (s : TypeStore) (ts : List TypeId) : List TypeId :=
  ts.flatMap fun t =>
    match s.get? t with
    | some (.union members) => members
    | _ => [t]

/-- The members of the intersections in `ts`, and the other types of `ts` themselves. -/
def intersectionMembers (s : TypeStore) (ts : List TypeId) : List TypeId :=
  ts.flatMap fun t =>
    match s.get? t with
    | some (.intersection members) => members
    | _ => [t]

end TypeStore

/-- The union of `ts`. `any`, then `unknown`, absorbs the rest; `never` is dropped; the union of no
types is `never` and that of one type is the type. -/
def unionOf (ts : List TypeId) : TypeM TypeId := do
  let flat := (← get).unionMembers ts
  if TypeId.any ∈ flat then return .any
  if TypeId.unknown ∈ flat then return .unknown
  match sortIds (flat.filter (· ≠ .never)) with
  | [] => return .never
  | [t] => return t
  | members => intern (.union members)

/-- The intersection of `ts`. `never` absorbs the rest; the intersection of no types is `unknown`
and that of one type is the type. -/
def intersectionOf (ts : List TypeId) : TypeM TypeId := do
  let flat := (← get).intersectionMembers ts
  if TypeId.never ∈ flat then return .never
  match sortIds flat with
  | [] => return .unknown
  | [t] => return t
  | members => intern (.intersection members)

end ScriptToLua
