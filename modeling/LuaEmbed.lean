import LuaEmbed.CommandLine
import LuaEmbed.Main
import LuaEmbed.Proofs.Syntax.Soundness
import LuaEmbed.Proofs.Syntax.Completeness.Passing
import LuaEmbed.Proofs.Syntax.Completeness.Expressions
import LuaEmbed.Proofs.Syntax.Completeness.Productions
import LuaEmbed.Proofs.Syntax.Completeness
import LuaEmbed.Proofs.Lexing.Classes
import LuaEmbed.Proofs.Lexing.Progress
import LuaEmbed.Proofs.Syntax.Acceptance
import LuaEmbed.Proofs.Syntax.Grouping
import LuaEmbed.Proofs.Syntax.Climbing
import LuaEmbed.Proofs.Syntax.Nesting
import LuaEmbed.Proofs.Syntax.Levels
import LuaEmbed.Proofs.Syntax.WellFormed
import LuaEmbed.Proofs.Tables.Keys
import LuaEmbed.Proofs.Runs.After
import LuaEmbed.Proofs.Runs.Logic
import LuaEmbed.Proofs.Runs.Logic.Operations
import LuaEmbed.Proofs.Runs.Logic.Libraries
import LuaEmbed.Proofs.Runs.Hooked
import LuaEmbed.Proofs.Runs.Logic.Evaluation
import LuaEmbed.Proofs.Runs.Regular
import LuaEmbed.Proofs.Runs.Frames
import LuaEmbed.Proofs.Lexing.Sources
import LuaEmbed.Proofs.Syntax.Towers
import LuaEmbed.Proofs.Tables.Traversal
import LuaEmbed.Proofs.Lexing.LineBreaks
import LuaEmbed.Proofs.Text.Decoding
import LuaEmbed.Proofs.Lexing.Literals
import LuaEmbed.Proofs.Runs.Literals
import LuaEmbed.Proofs.Scoping.Framed
import LuaEmbed.Proofs.Scoping.Agreement
import LuaEmbed.Proofs.Scoping.Lexical
import LuaEmbed.Proofs.Numbers.Rounding
import LuaEmbed.Proofs.Numbers.Hexadecimal
import LuaEmbed.Proofs.Lexing.Boundaries
import LuaEmbed.Proofs.Lexing.Layout
import LuaEmbed.Proofs.Lexing.Respacing
import LuaEmbed.Proofs.Lexing.LongBrackets
import LuaEmbed.Proofs.Lexing.Slices
import LuaEmbed.Proofs.Lexing.Advancing
import LuaEmbed.Proofs.Lexing.Numerals
import LuaEmbed.Proofs.Runs.Lockstep
import LuaEmbed.Proofs.Runs.Strays
import LuaEmbed.Proofs.Runs.Isolation
import LuaEmbed.Proofs.Runs.Modules
import LuaEmbed.Proofs.Host.Registry
import LuaEmbed.Proofs.Host.Installation
import LuaEmbed.Proofs.Runs.Evaluator
import LuaEmbed.Proofs.Runs.Comparison
import LuaEmbed.Proofs.Runs.Depth
import LuaEmbed.Proofs.Runs.Raising
import LuaEmbed.Proofs.Runs.Reads
import LuaEmbed.Proofs.Runs.Protection
import LuaEmbed.Proofs.Numbers.Order
import LuaEmbed.Proofs.Numbers.Checked
import LuaEmbed.Proofs.Numbers.Overflow
import LuaEmbed.Proofs.Tables.Assignments
import LuaEmbed.Proofs.Tables.Sequences
import LuaEmbed.Proofs.Tables.Sorting
import LuaEmbed.Proofs.Tables.Shifting
import LuaEmbed.Proofs.Tables.Chains
import LuaEmbed.Proofs.Host.Paths
import LuaEmbed.Proofs.Syntax.Contexts
import LuaEmbed.Proofs.Numbers.Exact
import LuaEmbed.Proofs.Numbers.Shown
import LuaEmbed.Proofs.Host.Arguments
import LuaEmbed.Proofs.Runs.Lines
import LuaEmbed.Proofs.Runs.CallSites
import LuaEmbed.Proofs.Numbers.Bases
import LuaEmbed.Proofs.Calendar.RoundTrips
import LuaEmbed.Proofs.Text.Positions
import LuaEmbed.Proofs.Text.Bytes
import LuaEmbed.Proofs.Text.Directives
import LuaEmbed.Proofs.Text.Printed
import LuaEmbed.Proofs.Text.Reversal
import LuaEmbed.Proofs.Loops.Turns
import LuaEmbed.Proofs.Scoping.Homes
import LuaEmbed.Proofs.Loops.Separation
import LuaEmbed.Proofs.Loops.Sequences
import LuaEmbed.Proofs.Confinement.Evaluation
import LuaEmbed.Proofs.Files.Conservation
import LuaEmbed.Proofs.Files.Handles
import LuaEmbed.Proofs.Files.Reading
import LuaEmbed.Proofs.Files.Supplies
import LuaEmbed.Proofs.Files.Trees
import LuaEmbed.Proofs.Files.Updating
import LuaEmbed.Proofs.Files.Writing
import LuaEmbed.Proofs.Lists.Order
import LuaEmbed.Proofs.Lists.Assignments
import LuaEmbed.Proofs.Lists.Constructors
import LuaEmbed.Proofs.Lists.Varargs
