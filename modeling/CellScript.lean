import CellScript.Main
import CellScript.Text.BreakClass
import CellScript.Text.Cluster
import CellScript.Text.LineReader
import CellScript.Proofs.DepthBound
import CellScript.Proofs.Writing
import CellScript.Proofs.Numeral
import CellScript.Proofs.ReadBack
import CellScript.Proofs.CanonicalText
import CellScript.Proofs.Accounting
import CellScript.Proofs.RoundTrip
import CellScript.Proofs.StoreValues
import CellScript.Proofs.ReturnSignals
import CellScript.Proofs.ReturnPlacement
import CellScript.Proofs.ScopeIsolation
import CellScript.Proofs.CallDepth
import CellScript.Proofs.CyclicRendering
import CellScript.Proofs.SignalNesting
import CellScript.Proofs.TokenCover
import CellScript.Proofs.KeyFiling
import CellScript.Proofs.DatumEvaluation
import CellScript.Proofs.CellChanges
import CellScript.Proofs.CodeKept
import CellScript.Proofs.UnusedNames
import CellScript.Proofs.Termination
import CellScript.Proofs.CanonicalReader
import CellScript.Proofs.CodeKeys
import CellScript.Proofs.ErrorOrder
import CellScript.Proofs.PopOrder
import CellScript.Proofs.PriorityQueue
import CellScript.Proofs.Utf8
import CellScript.Proofs.FiniteMaps
import CellScript.Proofs.OrderedMap
import CellScript.Proofs.StatementRuns
import CellScript.Proofs.ConsoleLines
import CellScript.Proofs.BesideCells
import CellScript.Proofs.ConsoleRuns
import CellScript.Proofs.IntegerArithmetic
import CellScript.Proofs.BlankSeams
import CellScript.Proofs.Searching
import CellScript.Proofs.AccessOrder
import CellScript.Proofs.Dispatch
import CellScript.Proofs.FailureReports
import CellScript.Proofs.IntegerLiterals
import CellScript.Proofs.ScopeChains
