import Jmm.Cli.FileTree
import Jmm.Cli.Run
import Jmm.Compile
import Jmm.Config.OfToml
import Jmm.Main
import Jmm.Report.Snippet
import Jmm.Proofs.GeneratedNames
import Jmm.Proofs.Semantics.Eval
import Jmm.Proofs.Semantics.Ollir
import Jmm.Proofs.Semantics.Source
import Jmm.Proofs.Semantics.Jasmin
import Jmm.Proofs.Lowering.Fresh
import Jmm.Proofs.Lowering.Placement
import Jmm.Proofs.Lowering.Labels
import Jmm.Proofs.Lowering.Regular
import Jmm.Proofs.Lowering.Runs
import Jmm.Proofs.Lowering.Expressions
import Jmm.Proofs.Lowering.Structured
import Jmm.Proofs.Lowering.Statements
import Jmm.Proofs.Lowering.Jumps
import Jmm.Proofs.Lowering.Capture
import Jmm.Proofs.Lowering.Renaming
import Jmm.Proofs.Lowering.Temporaries
import Jmm.Proofs.Lowering.Returns
import Jmm.Proofs.Emission.Slots
import Jmm.Proofs.Emission.Runs
import Jmm.Proofs.Emission.Values
import Jmm.Proofs.Emission.Instructions
import Jmm.Proofs.Emission.Labels
import Jmm.Proofs.Emission.Methods
import Jmm.Proofs.Emission.Flow
import Jmm.Proofs.Emission.Operations
import Jmm.Proofs.Emission.SlotAssignment
import Jmm.Proofs.Emission.Fusion
import Jmm.Proofs.Emission.Jumps
import Jmm.Proofs.Emission.StackDepth
import Jmm.Proofs.Emission.Success
import Jmm.Proofs.Emission.Domain
import Jmm.Proofs.Emission.Locals
import Jmm.Proofs.Typing.LoweredTypes
import Jmm.Proofs.Typing.Receiver
import Jmm.Proofs.Typing.Packing
import Jmm.Proofs.Typing.Kinds
import Jmm.Proofs.Typing.Resolution
import Jmm.Proofs.Typing.Agreement
import Jmm.Proofs.Typing.Parentheses
import Jmm.Proofs.Typing.Independence
import Jmm.Proofs.Typing.Rules
import Jmm.Proofs.Typing.ReturnedValues
import Jmm.Proofs.Typing.VariableTypes
import Jmm.Proofs.Typing.Linkage
import Jmm.Proofs.Lowering.Calls
import Jmm.Proofs.Lowering.Events
import Jmm.Proofs.Typing.FieldAccess
import Jmm.Proofs.Conversion.ImportPaths
import Jmm.Proofs.Conversion.NormalForm
import Jmm.Proofs.Lowering.Arrays
import Jmm.Proofs.Typing.ClassPaths
import Jmm.Proofs.Emission.Events
import Jmm.Proofs.Emission.Arrays
import Jmm.Proofs.Emission.Families
import Jmm.Proofs.Emission.Listings
import Jmm.Proofs.Emission.Bindings
