import ScriptTree.Main
import ScriptTree.Grammar.Levels
import ScriptTree.Grammar.Program
import ScriptTree.Proofs.Program.Completeness
import ScriptTree.Proofs.Scan.LongestMatch
import ScriptTree.Proofs.Source.RoundTrip
import ScriptTree.Source
import ScriptTree.Tree.Relabel
import ScriptTree.Proofs.Program.Account
import ScriptTree.Proofs.Program.Unfolding
import ScriptTree.Proofs.Expression.Failure
import ScriptTree.Proofs.Program.Predictive
import ScriptTree.Proofs.Program.FirstFault
import ScriptTree.Proofs.Outline.Depth
import ScriptTree.Proofs.Outline.Normal
import ScriptTree.Proofs.Outline.Expression
import ScriptTree.Proofs.Outline.UniqueReading
import ScriptTree.Proofs.Scan.Boundary
import ScriptTree.Proofs.Scan.Lines
import ScriptTree.Proofs.Scan.Blanking
import ScriptTree.Proofs.Scan.Separation
import ScriptTree.Proofs.Kinds.Alike
import ScriptTree.Proofs.Kinds.Automaton
import ScriptTree.Proofs.Kinds.Parsers
import ScriptTree.Proofs.Kinds.Results
import ScriptTree.Proofs.Position.Walk
import ScriptTree.Proofs.Position.Parsers
import ScriptTree.Proofs.Position.Calls
import ScriptTree.Proofs.Position.Progress
import ScriptTree.Proofs.Expression.Room
import ScriptTree.Proofs.Position.Anchors
import ScriptTree.Proofs.Command.Lines
import ScriptTree.Proofs.Command.Verbosity
import ScriptTree.Proofs.Expression.Parentheses
import ScriptTree.Proofs.Program.Blocks
import ScriptTree.Proofs.Program.Halting
import ScriptTree.Proofs.Expression.Blame
import ScriptTree.Proofs.Program.Culprit
import ScriptTree.Proofs.Program.Spans
import ScriptTree.Proofs.Lines
import ScriptTree.Proofs.Scan.Comments
import ScriptTree.Proofs.Outline.Indentation
import ScriptTree.Proofs.Program.Openings
import ScriptTree.Proofs.Reuse
import ScriptTree.Proofs.Program.Heads
import ScriptTree.Proofs.Command.Trace
import ScriptTree.Proofs.Command.Dump
import ScriptTree.Proofs.Expression.Groups
import ScriptTree.Proofs.Expression.Tasks
import ScriptTree.Proofs.Program.Unreached
