import AtpEngine.Fuelled
import AtpEngine.TriangularSubstitution
import AtpEngine.SymbolTable
import AtpEngine.TermBank
import AtpEngine.ClauseLogic
import AtpEngine.ClauseStore
import AtpEngine.Substitution
import AtpEngine.Unification
import AtpEngine.Renaming
import AtpEngine.Resolution
import AtpEngine.PriorityQueue
import AtpEngine.Prover
import AtpEngine.ProverRuns
import AtpEngine.Provenance
import AtpEngine.DepthFirst
import AtpEngine.ProofTrace
import AtpEngine.ProofFormat
import AtpEngine.ProofExtraction
import AtpEngine.ProofOrder
import AtpEngine.RefutationSoundness
import AtpEngine.SaturationClosed
import AtpEngine.Completeness
import AtpEngine.TptpParser
import AtpEngine.TptpLexing
import AtpEngine.TptpSyntax
import AtpEngine.ParserExact
import AtpEngine.MainProgram
import AtpEngine.AcyclicUnification
import AtpEngine.InferenceReturns
import AtpEngine.FunctionFree
import AtpEngine.SearchReturns
import AtpEngine.FreshNames
import AtpEngine.VerdictSoundness
import AtpEngine.Irredundant
import AtpEngine.StoreHistory
import AtpEngine.LevelOrder
import AtpEngine.MostGeneralUnifier
import AtpEngine.UncheckedUnification
import AtpEngine.InferenceExact
import AtpEngine.Variants
import AtpEngine.ResolutionSymmetry
import AtpEngine.HashConsing
import AtpEngine.CheckedAccess
import AtpEngine.RunBounds
import AtpEngine.LockStep
import AtpEngine.Coupling
import AtpEngine.CoupledInference
import AtpEngine.OrderIndependence
import AtpEngine.ResolvedTerms
import AtpEngine.TautologyExact
import AtpEngine.FreshVariants
import AtpEngine.BindingChains
import AtpEngine.Conjectures
import AtpEngine.RecordedArity
import AtpEngine.PrettyTerms
import AtpEngine.ClausePrinting
import AtpEngine.LaterCalls
import AtpEngine.Interruption
import AtpEngine.CallHistories
import AtpEngine.Exhaustion
import AtpEngine.SearchSettles
import AtpEngine.GroundSearch
import AtpEngine.InfiniteTrees
import AtpEngine.UncheckedSearch
import AtpEngine.CommandLine
import AtpEngine.Derivations
import AtpEngine.PrintedProof
import AtpEngine.ProofReadback
import AtpEngine.ParserRuns
import AtpEngine.BanksInUse
import AtpEngine.TermPrinting
import AtpEngine.Reducts
import AtpEngine.TextVerdicts
import AtpEngine.RepeatedSearch
