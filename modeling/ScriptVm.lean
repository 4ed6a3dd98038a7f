import ScriptVm.Code.Assembler
import ScriptVm.Session.Arrays
import ScriptVm.Session.Collector
import ScriptVm.Session.Machine
import ScriptVm.Proofs.EdgeCheck
import ScriptVm.Proofs.EdgeIntegrity
import ScriptVm.Proofs.ValueSessions
import ScriptVm.Proofs.Walks
import ScriptVm.Proofs.MachineCollection
import ScriptVm.Proofs.OrdinaryFaults
import ScriptVm.Proofs.Forms
import ScriptVm.Proofs.Footprints
import ScriptVm.Proofs.Pieces
import ScriptVm.Proofs.Bearings
import ScriptVm.Proofs.Dispatch
import ScriptVm.Proofs.Assembly
import ScriptVm.Proofs.Transcripts
import ScriptVm.Proofs.Persistence
import ScriptVm.Proofs.Invisibility
import ScriptVm.Proofs.FreeRuns
import ScriptVm.Proofs.Placement
import ScriptVm.Proofs.AssembledRuns
import ScriptVm.Proofs.Crashes
import ScriptVm.Proofs.Operands
import ScriptVm.Proofs.StackEffects
import ScriptVm.Proofs.Activations
import ScriptVm.Proofs.Reclamation
import ScriptVm.Proofs.RootAccounting
import ScriptVm.Proofs.Discarding
import ScriptVm.Proofs.Stranding
import ScriptVm.Proofs.NestedFailures
import ScriptVm.Proofs.Relocation
import ScriptVm.Proofs.Wakefulness
import ScriptVm.Proofs.Lockstep
import ScriptVm.Proofs.Suspension
import ScriptVm.Proofs.CallDepth
import ScriptVm.Proofs.Attire
import ScriptVm.Proofs.Attendance
import ScriptVm.Proofs.Passages
import ScriptVm.Proofs.Iterations
import ScriptVm.Proofs.Counting
import ScriptVm.Proofs.Retrieval
import ScriptVm.Proofs.Spots
import ScriptVm.Proofs.Addressing
import ScriptVm.Proofs.LoadAfterStore
import ScriptVm.Proofs.NativeCalls
import ScriptVm.Proofs.Grammar
import ScriptVm.Proofs.Debuggers
import ScriptVm.Proofs.Lifecycle
import ScriptVm.Proofs.Alarms
import ScriptVm.Proofs.Lines
import ScriptVm.Proofs.Strides
import ScriptVm.Proofs.Roll
import ScriptVm.Proofs.ErrorTraces
import ScriptVm.Proofs.Prefixes
import ScriptVm.Proofs.FailedLoads
import ScriptVm.Proofs.DistantWrites
import ScriptVm.Proofs.Wrought
import ScriptVm.Proofs.PathStores
import ScriptVm.Proofs.Rounding
import ScriptVm.Proofs.ExactCasts
import ScriptVm.Proofs.WordArithmetic
import ScriptVm.Proofs.OperatorFaults
import ScriptVm.Proofs.MixedArithmetic
import ScriptVm.Proofs.Coercions
import ScriptVm.Proofs.NumericOrder
import ScriptVm.Proofs.Display
import ScriptVm.Proofs.Serialization
import ScriptVm.Proofs.InstanceTable
