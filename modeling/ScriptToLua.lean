import ScriptToLua.Compile
import ScriptToLua.LogSettings
import ScriptToLua.Lua.Eval
import ScriptToLua.Proofs.Lua.Computation
import ScriptToLua.Proofs.Lua.Scoping
import ScriptToLua.Proofs.Lua.Simulation
import ScriptToLua.Proofs.Lua.Frame
import ScriptToLua.Proofs.Lua.Purity
import ScriptToLua.Proofs.Lowering.WriteOrder
import ScriptToLua.Proofs.Lowering.WriteRun
import ScriptToLua.Proofs.Decimal.Integers
import ScriptToLua.Proofs.Lua.Slot
import ScriptToLua.Proofs.Lua.Keys
import ScriptToLua.Proofs.Lowering.ArrayProgram
import ScriptToLua.Proofs.Lowering.ArrayRun
import ScriptToLua.Proofs.Lua.Lexer
import ScriptToLua.Proofs.Lua.Parser
import ScriptToLua.Proofs.Lua.Grammar
import ScriptToLua.Proofs.Lua.Reading.Expression
import ScriptToLua.Proofs.Lua.Reading.Statement
import ScriptToLua.Proofs.Lua.Rereading.Block
import ScriptToLua.Proofs.Lua.Spacing.Statement
import ScriptToLua.Proofs.Lua.Roundtrip
import ScriptToLua.Proofs.Lua.Invariant
import ScriptToLua.Proofs.Lowering.WellFormed
import ScriptToLua.Proofs.Lowering.Reread
import ScriptToLua.Proofs.OrderedMap
import ScriptToLua.Proofs.Types.Primitive
import ScriptToLua.Proofs.Types.Expression
import ScriptToLua.Proofs.Lowering.Growth
import ScriptToLua.Proofs.Lua.Constructor
import ScriptToLua.Proofs.Lowering.HybridLiteral
import ScriptToLua.Proofs.Lowering.Calls
import ScriptToLua.Proofs.Lowering.AccessType
import ScriptToLua.Proofs.Types.ArrayLike
import ScriptToLua.Proofs.Types.Elements
import ScriptToLua.Proofs.Types.Interning
import ScriptToLua.Proofs.Types.Groups
import ScriptToLua.Proofs.Types.Members
import ScriptToLua.Proofs.Types.Independence
import ScriptToLua.Proofs.Lowering.Scalar
import ScriptToLua.Proofs.Decimal.Signed
import ScriptToLua.Proofs.Lowering.FoldedChunk
import ScriptToLua.Proofs.Lua.Termination
import ScriptToLua.Proofs.Lua.Quoting
import ScriptToLua.Proofs.Lowering.Hygiene
import ScriptToLua.Proofs.Lowering.Compound
import ScriptToLua.Proofs.Types.Recursion
import ScriptToLua.Proofs.Types.IndexKinds
import ScriptToLua.Proofs.Lowering.InvalidTarget
import ScriptToLua.Proofs.Lowering.Depth
import ScriptToLua.Proofs.Lowering.Parentheses
import ScriptToLua.Proofs.Lua.Fence
import ScriptToLua.Proofs.Lowering.Temporaries
import ScriptToLua.Proofs.Lowering.Deletion
import ScriptToLua.Proofs.Lowering.SelfCall
import ScriptToLua.Proofs.Lowering.AccessForms
import ScriptToLua.Proofs.Lowering.Views
import ScriptToLua.Proofs.Lowering.Template
import ScriptToLua.Proofs.Lua.Hiding
import ScriptToLua.Proofs.Lua.Filling
import ScriptToLua.Proofs.Lowering.ArrayLiteral
import ScriptToLua.Proofs.Lowering.StringCall
import ScriptToLua.Proofs.Lowering.IntegerLiteral
import ScriptToLua.Proofs.Text.Template
import ScriptToLua.Proofs.Options.Preservation
import ScriptToLua.Proofs.Options.Acceptance
import ScriptToLua.Proofs.Lowering.Index
import ScriptToLua.Proofs.Lowering.Names
import ScriptToLua.Proofs.Lua.Assignment
import ScriptToLua.Proofs.Lua.Printing
