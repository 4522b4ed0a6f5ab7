import Pup.Lib.Machine
import Pup.Lib.Chain
import Pup.Lib.Bytes
import Pup.Lib.Words
import Pup.Lib.Scopes
import Pup.Lib.Numbering
import Pup.Lib.Leb128
import Pup.Lib.Ownership
import Pup.Lib.Except
import Pup.Lib.Marking
import Pup.Lib.Peg
import Pup.Lib.PegReads
import Pup.Lib.PegPairs
import Pup.Lib.PegEnds
import Pup.Lib.Commands
import Pup.Object
import Pup.Symtable
import Pup.Heap.Threads
import Pup.Heap.Handshake
import Pup.Heap.Safepoint
import Pup.Heap.Attach
import Pup.Heap.Regions
import Pup.Heap.RegionPlaces
import Pup.Gc.Map
import Pup.Gc.FindSafepoint
import Pup.Gc.RefQueue
import Pup.Gc.Mark
import Pup.Gc.ScanHeap
import Pup.Gc.Walk
import Pup.Gc.Enumerated
import Pup.Gc.PushRoots
import Pup.Heap.Blocks
import Pup.Heap.PupHeap
import Pup.Heap.Allocation
import Pup.Gc.AllocForCopy
import Pup.Gc.CopyInstance
import Pup.Gc.CopyClass
import Pup.Heap.Attributes
import Pup.Heap.Layout
import Pup.Heap.Sound
import Pup.Heap.PerformGc
import Pup.Heap.Destroy
import Pup.Heap.Graph
import Pup.Heap.MarkValue
import Pup.Runtime.Class
import Pup.Runtime.Methods
import Pup.Runtime.Layouts
import Pup.Runtime.Attributes
import Pup.Runtime.Hierarchy
import Pup.Runtime.Constants
import Pup.Runtime.Kept
import Pup.Runtime.Stringify
import Pup.Runtime.Fixnum
import Pup.Raise.Encoded
import Pup.Raise.IntShift
import Pup.Raise.Lsda
import Pup.Raise.Foreign
import Pup.Raise.Uncaught
import Pup.Parse.Ast
import Pup.Parse.Grammar
import Pup.Parse.Strings
import Pup.Parse.Tokens
import Pup.Parse.Lexer
import Pup.Parse.Balance
import Pup.Parse.Pairs
import Pup.Parse.Inside
import Pup.Parse.Levels
import Pup.Parse.Names
import Pup.Parse.Chains
import Pup.Parse.Binary
import Pup.Parse.Spaced
import Pup.Parse.Indentation
import Pup.Parse.Sums
import Pup.Parse.Written
import Pup.Parse.Printed
import Pup.Parse.Driver
import Pup.Parse.Ensure
import Pup.Codegen.Context
import Pup.Codegen.Generate
import Pup.Codegen.Grow
import Pup.Codegen.Pieces
import Pup.Codegen.Frames
import Pup.Codegen.Numbered
import Pup.Codegen.Scope
import Pup.Codegen.Terminators
import Pup.Codegen.LandingPads
import Pup.Codegen.Finished
import Pup.Codegen.EntryBlock
import Pup.Lib.Flow
import Pup.Codegen.Paths
import Pup.Codegen.Assigned
import Pup.Codegen.BeginParts
import Pup.Codegen.Operators
import Pup.Codegen.Accepted
import Pup.Codegen.Added
import Pup.Codegen.Types
import Pup.Codegen.Arguments
import Pup.Codegen.Execute
import Pup.Codegen.Interpret
import Pup.Codegen.InStep
import Pup.Codegen.Simulation
import Pup.Codegen.Refinement
import Pup.Codegen.Unwinding
import Pup.Codegen.Located
import Pup.Codegen.Dispatch
import Pup.Codegen.Raising
import Pup.Codegen.Exceptions
import Pup.Codegen.Guarded
import Pup.Codegen.Branching
import Pup.Codegen.Rescued
import Pup.Codegen.Handled
import Pup.Sums
import Pup.Parse.WellFormed
import Pup.Codegen.Missing
import Pup.Compile
import Pup.Integers.Language
import Pup.Integers.Calls
import Pup.Integers.Runs
import Pup.Integers.Programs
import Pup.Runtime.Builtins
import Pup.Runtime.Raised
