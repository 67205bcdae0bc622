import Clausal.Main
import Clausal.CommandLine.Run
import Clausal.Dimacs.Writer
import Clausal.Fuzzy
import Clausal.KnowledgeBase.Model
import Clausal.Strategy
import Clausal.Proofs.Entailment
import Clausal.Proofs.Invariant
import Clausal.Proofs.Layout
import Clausal.Proofs.Rereading
import Clausal.Proofs.Names
import Clausal.Proofs.Counting
import Clausal.Proofs.Spelling
import Clausal.Proofs.Sources
import Clausal.Proofs.Registration
import Clausal.Proofs.Zeros
import Clausal.Proofs.Values
import Clausal.Proofs.Verdict
import Clausal.Proofs.Typing
import Clausal.Proofs.Allocation
import Clausal.Proofs.Closure
import Clausal.Proofs.Balance
import Clausal.Proofs.Order
import Clausal.Proofs.Interning
import Clausal.Proofs.Caching
import Clausal.Proofs.Period
import Clausal.Proofs.Ranges
import Clausal.Proofs.Faults
import Clausal.Proofs.Forcing
import Clausal.Proofs.Definitions
import Clausal.Proofs.Retracing
import Clausal.Proofs.Display
