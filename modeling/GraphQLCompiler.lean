import GraphQLCompiler.Compiled.Lookup
import GraphQLCompiler.Main
import GraphQLCompiler.Proofs.FirstOccurrence
import GraphQLCompiler.Proofs.Linking
import GraphQLCompiler.Proofs.Reading
import GraphQLCompiler.Proofs.Computation
import GraphQLCompiler.Proofs.Gathering
import GraphQLCompiler.Proofs.Containment
import GraphQLCompiler.Proofs.Execution
import GraphQLCompiler.Proofs.Enclosures
import GraphQLCompiler.Proofs.Application
import GraphQLCompiler.Proofs.Repetitions
import GraphQLCompiler.Proofs.UsedTypes
import GraphQLCompiler.Proofs.Faults
import GraphQLCompiler.Proofs.Outcomes
import GraphQLCompiler.Proofs.Attribution
import GraphQLCompiler.Proofs.Sites
import GraphQLCompiler.Proofs.References
import GraphQLCompiler.Proofs.Tree
import GraphQLCompiler.Proofs.Agreement
import GraphQLCompiler.Proofs.Skipping
import GraphQLCompiler.Proofs.History
import GraphQLCompiler.Proofs.Truthfulness
import GraphQLCompiler.Proofs.Cycles
import GraphQLCompiler.Proofs.Closure
import GraphQLCompiler.Proofs.Compilation
import GraphQLCompiler.Proofs.Consistency
import GraphQLCompiler.Proofs.Conditions
import GraphQLCompiler.Proofs.Scoping
import GraphQLCompiler.Proofs.Compilability
import GraphQLCompiler.Proofs.Determinacy
import GraphQLCompiler.Proofs.Spreading
import GraphQLCompiler.Proofs.ResolvedAt
import GraphQLCompiler.Proofs.Inheritance
import GraphQLCompiler.Proofs.FieldTypes
import GraphQLCompiler.Proofs.Recasting
import GraphQLCompiler.Proofs.Relocation
import GraphQLCompiler.Proofs.Locality
import GraphQLCompiler.Proofs.Nesting
import GraphQLCompiler.Proofs.Bounded
import GraphQLCompiler.Proofs.Branches
import GraphQLCompiler.Proofs.Lookup
import GraphQLCompiler.Proofs.Termination
import GraphQLCompiler.Proofs.Typenames
import GraphQLCompiler.Proofs.Recording
import GraphQLCompiler.Proofs.Coverage
import GraphQLCompiler.Proofs.Rewording
import GraphQLCompiler.Proofs.RewordedResolution
import GraphQLCompiler.Proofs.RewordedDocument
import GraphQLCompiler.Proofs.Merging
import GraphQLCompiler.Proofs.Outlines
import GraphQLCompiler.Proofs.RootTypenames
import GraphQLCompiler.Proofs.Blame
import GraphQLCompiler.Proofs.Justification
import GraphQLCompiler.Proofs.PossibleTypes
import GraphQLCompiler.Proofs.AddedTypes
import GraphQLCompiler.Proofs.Overflow
import GraphQLCompiler.Proofs.NumberLiterals
import GraphQLCompiler.Proofs.ArgumentKinds
import GraphQLCompiler.Proofs.TypeNotation
import GraphQLCompiler.Proofs.MemberOrder
import GraphQLCompiler.Proofs.Decoding
import GraphQLCompiler.Proofs.RoundTrip
import GraphQLCompiler.Proofs.ObjectTypes
