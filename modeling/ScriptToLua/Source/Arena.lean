import ScriptToLua.Source.Syntax

/-!
The arena that holds the nodes of a source file together with their places in the file.
-/

namespace ScriptToLua.Source

/-- From `start` up to `stop`. -/
structure Span where
  start : Nat
  stop : Nat
  deriving DecidableEq, Repr, Inhabited

/-- A span that ends before it starts has length zero. -/
def Span.length (s : Span) : Nat := s.stop - s.start

structure Arena where
  entries : Array (Node × Span)
  deriving Repr

namespace Arena

def empty : Arena := ⟨#[]⟩

def size (a : Arena) : Nat := a.entries.size

def get? (a : Arena) (id : NodeId) : Option Node := a.entries[id.index]?.map Prod.fst

/-- The place of a node; nodes without a place are at the start of the file. -/
def span (a : Arena) (id : NodeId) : Span := (a.entries[id.index]?.map Prod.snd).getD ⟨0, 0⟩

/-- The arena with one more node, and the id of that node. -/
def push (a : Arena) (n : Node) : NodeId × Arena := (⟨a.size⟩, ⟨a.entries.push (n, ⟨0, 0⟩)⟩)

/-- Places a node; an id outside the arena is ignored. -/
def setSpan (a : Arena) (id : NodeId) (s : Span) : Arena :=
  ⟨a.entries.modify id.index fun e => (e.1, s)⟩

/-- The expression under a pair of parentheses or an assertion. -/
def peel? (a : Arena) (id : NodeId) : Option NodeId :=
  match a.get? id with
  | some (.parenthesized inner) => some inner
  | some (.asserted expression _) => some expression
  | _ => none

/-- Takes off at most `layers` parentheses and assertions. -/
def stripLayers (a : Arena) : (layers : Nat) → NodeId → NodeId
  | 0, id => id
  | layers + 1, id =>
    match a.peel? id with
    | some inner => stripLayers a layers inner
    | none => id

/-- The expression under all parentheses and assertions. No chain of different nodes is longer than
the arena. -/
def strip (a : Arena) (id : NodeId) : NodeId := a.stripLayers a.size id

end Arena

end ScriptToLua.Source
