import JvmCalls.Assembly.Class
import JvmCalls.Assembly.Code
import JvmCalls.Binary.Format
import JvmCalls.Binary.Shortest
import JvmCalls.CallGraph.Basic
import JvmCalls.CallGraph.Call
import JvmCalls.CallGraph.Dot
import JvmCalls.ClassFile.Access
import JvmCalls.ClassFile.Address
import JvmCalls.ClassFile.Basic
import JvmCalls.ClassFile.Code
import JvmCalls.ClassFile.Constant
import JvmCalls.ClassFile.Error
import JvmCalls.ClassFile.Instruction
import JvmCalls.ClassFile.Pool
import JvmCalls.Descriptor.Basic
import JvmCalls.Descriptor.Document
import JvmCalls.Descriptor.Parser
import JvmCalls.Flow.Dominance
import JvmCalls.Flow.NodeSet
import JvmCalls.Flow.Successors
import JvmCalls.Hierarchy.Basic
import JvmCalls.Hierarchy.Dot
import JvmCalls.Hierarchy.Repository
import JvmCalls.Hierarchy.Search
import JvmCalls.Journal.Basic
import JvmCalls.Journal.Counter
import JvmCalls.Method.Document
import JvmCalls.Method.Signature
import JvmCalls.Pattern.Basic
import JvmCalls.Pattern.Parser
import JvmCalls.Pattern.Token
import JvmCalls.Proofs.Flow.Paths
import JvmCalls.Proofs.Flow.Relaxation
import JvmCalls.Reach
import JvmCalls.Resolver.Basic
import JvmCalls.Resolver.Calls
import JvmCalls.Resolver.Dispatch
import JvmCalls.Resolver.Graph
import JvmCalls.Resolver.Operands
import JvmCalls.Resolver.Options
import JvmCalls.Selection.Invocation
import JvmCalls.Selection.Lookup
import JvmCalls.Settings.Document
import JvmCalls.Settings.Logging
import JvmCalls.Sorted
import JvmCalls.Text.Numeral
import JvmCalls.Text.Quoted
import JvmCalls.Value.Basic
import JvmCalls.Value.Evaluation
import JvmCalls.Value.Frames
import JvmCalls.Proofs.Flow.Dominance
import JvmCalls.Proofs.Resolver.Visit
import JvmCalls.Proofs.Journal.Interleaving
import JvmCalls.Proofs.Resolver.Pipeline
import JvmCalls.Proofs.Hierarchy.Inheritance
import JvmCalls.Proofs.Resolver.Dispatch
import JvmCalls.Proofs.Hierarchy.View
import JvmCalls.Proofs.Hierarchy.Superclass
import JvmCalls.Proofs.Descriptor.Grammar
import JvmCalls.Proofs.Flow.Exit
import JvmCalls.Proofs.Resolver.Events
import JvmCalls.Proofs.Resolver.ControlFlow
import JvmCalls.Proofs.Except
import JvmCalls.Proofs.Assembly.Layout
import JvmCalls.Proofs.Assembly.Labels
import JvmCalls.Proofs.Hierarchy.Agreement
import JvmCalls.Proofs.Selection.Agreement
import JvmCalls.Proofs.Hierarchy.Registration
import JvmCalls.Proofs.Resolver.Agreement
import JvmCalls.Proofs.ClassFile.Interning
import JvmCalls.Proofs.ClassFile.References
import JvmCalls.Proofs.CallGraph.Representation
import JvmCalls.Proofs.Breadth
import JvmCalls.Proofs.CallGraph.Walks
import JvmCalls.Proofs.CallGraph.Filtering
import JvmCalls.Proofs.CallGraph.Merging
import JvmCalls.Proofs.Hierarchy.History
import JvmCalls.Proofs.Hierarchy.Closing
import JvmCalls.Proofs.Journal.Tally
import JvmCalls.Proofs.Resolver.Accounting
import JvmCalls.Proofs.Hierarchy.Queries
import JvmCalls.Proofs.Resolver.Targets
import JvmCalls.Proofs.Resolver.Restriction
import JvmCalls.Proofs.Selection.Lineage
import JvmCalls.Proofs.Selection.Specificity
import JvmCalls.Proofs.Selection.Invocation
import JvmCalls.Proofs.Resolver.Postprocessing
import JvmCalls.Proofs.Flow.Failure
import JvmCalls.Proofs.Flow.Exceptions
import JvmCalls.Proofs.Flow.Termination
import JvmCalls.Proofs.Resolver.Nullness
import JvmCalls.Proofs.Resolver.Operands
import JvmCalls.Proofs.ClassFile.Numbers
import JvmCalls.Proofs.Assembly.Demands
import JvmCalls.Proofs.Resolver.QuickSignature
import JvmCalls.Proofs.Resolver.StaticCalls
import JvmCalls.Proofs.Assembly.Addresses
import JvmCalls.Proofs.Assembly.Lines
