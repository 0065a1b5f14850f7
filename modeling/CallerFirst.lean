import CallerFirst.Main
import CallerFirst.Session.FileTree
import CallerFirst.Proofs.Rewriting
import CallerFirst.Proofs.RoundTrip
import CallerFirst.Proofs.Shape
import CallerFirst.Proofs.InPlace
import CallerFirst.Proofs.TestOrder
import CallerFirst.Proofs.CallGrammar
import CallerFirst.Proofs.StackMeaning
import CallerFirst.Proofs.Discovery
import CallerFirst.Proofs.Analysis
import CallerFirst.Proofs.Findings
import CallerFirst.Proofs.MapCalls
import CallerFirst.Proofs.SymbolicStack
import CallerFirst.Proofs.Origins
import CallerFirst.Proofs.ClassUse
import CallerFirst.Proofs.NestedCalls
import CallerFirst.Proofs.ProgramOrder
import CallerFirst.Proofs.UsedClasses
import CallerFirst.Proofs.ClassDrawing
import CallerFirst.Proofs.Arities
import CallerFirst.Proofs.Selection
import CallerFirst.Proofs.DotText
import CallerFirst.Proofs.Json.Scalars
import CallerFirst.Proofs.Json.Containers
import CallerFirst.Proofs.ReportJson
import CallerFirst.Proofs.ScanState
import CallerFirst.Proofs.WithoutMethods
import CallerFirst.Proofs.Json.Values
import CallerFirst.Proofs.OperandJson
import CallerFirst.Proofs.Moments
import CallerFirst.Proofs.Feeding
