import Lisp.Host
import Lisp.Main
import Lisp.Proofs.LineBuffering
import Lisp.Proofs.ReaderGrammar
import Lisp.Proofs.Decimals
import Lisp.Proofs.SymbolTables
import Lisp.Proofs.WrittenTokens
import Lisp.Proofs.PrintRead
import Lisp.Proofs.EvaluationFrame
import Lisp.Proofs.EndingRuns
import Lisp.Proofs.EvaluationDepth
import Lisp.Proofs.Termination
import Lisp.Proofs.Completions
import Lisp.Proofs.TokenConservation
import Lisp.Proofs.PrimitiveEffects
import Lisp.Proofs.EvaluationInvariants
import Lisp.Proofs.ScopeStructure
import Lisp.Proofs.SymbolOwnership
import Lisp.Proofs.SourceRuns
import Lisp.Proofs.TaskMoves
import Lisp.Proofs.PrintTraces
import Lisp.Proofs.Likeness
import Lisp.Proofs.ParallelRuns
import Lisp.Proofs.PrimitiveRuns
import Lisp.Proofs.Twins
import Lisp.Proofs.TwinScopes
import Lisp.Proofs.TwinRuns
import Lisp.Proofs.TwinEvaluation
import Lisp.Proofs.TwinSessions
import Lisp.Proofs.SideBySide
import Lisp.Proofs.Interning
import Lisp.Proofs.UppercaseForms
import Lisp.Proofs.TextLayout
import Lisp.Proofs.LongestMatch
import Lisp.Proofs.CaseFolding
import Lisp.Proofs.EvaluationErrors
import Lisp.Proofs.SourceSequencing
import Lisp.Proofs.SessionTurns
import Lisp.Proofs.CodeProvenance
import Lisp.Proofs.SourceProvenance
import Lisp.Proofs.ParameterMatching
import Lisp.Proofs.DefiningForms
import Lisp.Proofs.ConditionalForm
import Lisp.Proofs.ScopeWrites
import Lisp.Proofs.Chains
import Lisp.Proofs.WordArithmetic
import Lisp.Proofs.StructuralEquality
import Lisp.Proofs.PrimitiveCongruence
import Lisp.Proofs.RepeatedRuns
import Lisp.Proofs.RepeatedEvaluation
import Lisp.Proofs.Repeatability
import Lisp.Proofs.StringLiterals
import Lisp.Proofs.TruncatedDivision
import Lisp.Proofs.IntegerLiterals
import Lisp.Proofs.ReaderImage
import Lisp.Proofs.LoopSteps
import Lisp.Proofs.PendingInput
import Lisp.Proofs.Prompts
import Lisp.Proofs.InputOutputFailures
import Lisp.Proofs.EvaluationRules
import Lisp.Proofs.SilentCalls
import Lisp.Proofs.RecursiveFunctions
import Lisp.Proofs.ListViews
