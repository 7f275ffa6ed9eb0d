import Frontend.Span.GlobAdjust
import Frontend.DiagTemplate.Variants
import Frontend.DiagTemplate.References
import Frontend.TokenStream.FlatSimulation
import Frontend.TokenStream.SourceCursor
import Frontend.Symbol.InternerSolo
import Frontend.Query.NoDeadlock
import Frontend.Sync.OwnedStageResult
import Frontend.Parse.BumpCount
import Frontend.Sync.Pool
import Frontend.Lexer.IdentCache
import Frontend.Lexer.Swar
import Frontend.TokenStream.Desugar
import Frontend.Parse.AllOrNothing
import Frontend.Arena.Growth
import Frontend.Span.SourceLines
import Frontend.Obligation.Completed
import Frontend.Scc.Merge
import Frontend.Facts.Breaks
import Frontend.Facts.Casing
import Frontend.Facts.Divergence
import Frontend.Facts.Docs
import Frontend.Names.Exhaustive
import Frontend.RangeSet.Difference
import Frontend.RangeSet.Add
import Frontend.FlowGraph.Exact
import Frontend.Dataflow.Least
import Frontend.Dataflow.Cursor
import Frontend.Coverage.Spans
import Frontend.Transmute.Answer
import Frontend.Abi.CoroutineSound
import Frontend.Abi.EnumSound
import Frontend.Abi.RangeExact
import Frontend.DataStructures.FlatMapInPlace
import Frontend.DataStructures.VecGraph
import Frontend.BitSet.IntervalSet
import Frontend.BitSet.Ranges
import Frontend.Expand.Count
import Frontend.Transmute.Denotes
