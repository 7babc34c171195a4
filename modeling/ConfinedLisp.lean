import ConfinedLisp.Engine
import ConfinedLisp.Limits.Json
import ConfinedLisp.Value.Dump
import ConfinedLisp.Proofs.Activations
import ConfinedLisp.Proofs.BudgetExactness
import ConfinedLisp.Proofs.Composition
import ConfinedLisp.Proofs.Confinement
import ConfinedLisp.Proofs.FaultLocation
import ConfinedLisp.Proofs.GenericCall
import ConfinedLisp.Proofs.GrammarExactness
import ConfinedLisp.Proofs.InertScopes
import ConfinedLisp.Proofs.Isolation
import ConfinedLisp.Proofs.ListIdentities
import ConfinedLisp.Proofs.StoreHistory
import ConfinedLisp.Proofs.Termination
import ConfinedLisp.Proofs.VectorLoops
import ConfinedLisp.Proofs.Wrappers
import ConfinedLisp.Proofs.JsonTokens
import ConfinedLisp.Proofs.TableIndex
import ConfinedLisp.Proofs.JsonTexts
import ConfinedLisp.Proofs.KeyTexts
import ConfinedLisp.Proofs.JsonValues
import ConfinedLisp.Proofs.JsonRoundTrip
import ConfinedLisp.Proofs.JsonRelisting
import ConfinedLisp.Proofs.ErrorKinds
import ConfinedLisp.Proofs.Appending
import ConfinedLisp.Proofs.KeysReadBack
import ConfinedLisp.Proofs.TidyStores
import ConfinedLisp.Proofs.LooseSymmetry
import ConfinedLisp.Proofs.EqualityOrder
import ConfinedLisp.Proofs.EqualityLaws
import ConfinedLisp.Proofs.Quotients
import ConfinedLisp.Proofs.Extrema
import ConfinedLisp.Proofs.ChainedOrder
import ConfinedLisp.Proofs.Assignment
import ConfinedLisp.Proofs.ImportEffects
import ConfinedLisp.Proofs.Renumbering
import ConfinedLisp.Proofs.PrintedForms
import ConfinedLisp.Proofs.PegReading
import ConfinedLisp.Proofs.Substrings
import ConfinedLisp.Proofs.IndexedAccess
import ConfinedLisp.Proofs.CallFrames
import ConfinedLisp.Proofs.Folding
import ConfinedLisp.Proofs.IntegerPowers
