import ManagedC.Main
import ManagedC.Syntax.Construct
import ManagedC.Proofs.Emit.Calls
import ManagedC.Proofs.Emit.StarterCode
import ManagedC.Proofs.Program.CallTargets
import ManagedC.Proofs.Program.Consistency
import ManagedC.Proofs.Run.Termination
import ManagedC.Proofs.Run.Straight
import ManagedC.Proofs.Run.Reaches
import ManagedC.Proofs.Run.InnerFaults
import ManagedC.Proofs.Stack.WellFormed
import ManagedC.Proofs.Kinds.WellTyped
import ManagedC.Proofs.Cleanup.ExitPaths
import ManagedC.Proofs.Pins.Sessions
import ManagedC.Proofs.Startup.Main
import ManagedC.Proofs.Unwinding.TryFinally
import ManagedC.Proofs.Unwinding.Unskipped
import ManagedC.Proofs.Unwinding.Compiled
import ManagedC.Proofs.Meaning.Operators
import ManagedC.Proofs.Meaning.Evaluation
import ManagedC.Proofs.Unwinding.Circles
import ManagedC.Proofs.Returns.Compiled
import ManagedC.Proofs.Documents.RoundTrip
import ManagedC.Proofs.Isolation.Runs
import ManagedC.Proofs.Isolation.StepLimits
import ManagedC.Proofs.Meaning.Points
import ManagedC.Proofs.Meaning.Statements
import ManagedC.Proofs.Meaning.Loops
import ManagedC.Proofs.Meaning.Functions
import ManagedC.Proofs.Meaning.Preservation
import ManagedC.Proofs.Meaning.Coercions
import ManagedC.Proofs.Scoping.History
import ManagedC.Proofs.Scoping.Slots
import ManagedC.Proofs.Scoping.Outside
import ManagedC.Proofs.Scoping.Lexical
import ManagedC.Proofs.Run.Passages
import ManagedC.Proofs.Run.Cells
import ManagedC.Proofs.Stack.Frames
import ManagedC.Proofs.Assembly.Regions
import ManagedC.Proofs.Assembly.Refusals
import ManagedC.Proofs.Program.Faultless
import ManagedC.Proofs.Run.Assignments
import ManagedC.Proofs.Pointers.Settings
import ManagedC.Proofs.Pointers.Pieces
import ManagedC.Proofs.Pointers.Operators
import ManagedC.Proofs.Pointers.Outcomes
import ManagedC.Proofs.Pointers.Elements
import ManagedC.Proofs.Declarations.BaseType
import ManagedC.Proofs.Memory.Bytes
import ManagedC.Proofs.Memory.Services
import ManagedC.Proofs.Memory.Statistics
import ManagedC.Proofs.Declarations.Declarators
import ManagedC.Proofs.Declarations.Parameters
import ManagedC.Proofs.Program.EntrySlot
import ManagedC.Proofs.Pins.Slips
import ManagedC.Proofs.Emit.Elsewhere
import ManagedC.Proofs.Pointers.Updates
