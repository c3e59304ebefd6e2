import GuidedGrammar.Grammar.Call
import GuidedGrammar.Artifact.Json
import GuidedGrammar.Compile.Writer
import GuidedGrammar.Engine.Transcript
import GuidedGrammar.Proofs.Graph.Reachability
import GuidedGrammar.Proofs.Regex.Sharing
import GuidedGrammar.Proofs.Regex.Circularity
import GuidedGrammar.Proofs.Grammar.Following
import GuidedGrammar.Proofs.Grammar.Frame
import GuidedGrammar.Proofs.Compile.Faithful
import GuidedGrammar.Proofs.Compile.Closed
import GuidedGrammar.Proofs.Compile.Renaming
import GuidedGrammar.Proofs.Compile.ExplicitStop
import GuidedGrammar.Proofs.Regex.Sorted
import GuidedGrammar.Proofs.Compile.References
import GuidedGrammar.Proofs.Json.Token
import GuidedGrammar.Proofs.Binary.Range
import GuidedGrammar.Proofs.Json.Decode
import GuidedGrammar.Proofs.Artifact.Json
import GuidedGrammar.Proofs.Compile.Numbering
import GuidedGrammar.Proofs.Compile.Properties
import GuidedGrammar.Proofs.Engine.Collecting
import GuidedGrammar.Proofs.Engine.Reassembly
import GuidedGrammar.Proofs.Engine.EventJson
import GuidedGrammar.Proofs.Grammar.FrontierOrder
import GuidedGrammar.Proofs.Grammar.Boundaries
import GuidedGrammar.Proofs.Grammar.Atomic
import GuidedGrammar.Proofs.Grammar.Adequacy
import GuidedGrammar.Proofs.Grammar.Repetition
import GuidedGrammar.Proofs.Grammar.Bracketing
import GuidedGrammar.Proofs.Grammar.EmptyElements
import GuidedGrammar.Proofs.Grammar.Alternatives
import GuidedGrammar.Proofs.Grammar.Confirmation
import GuidedGrammar.Proofs.Compile.NodeLimit
import GuidedGrammar.Proofs.Compile.StopPolicy
import GuidedGrammar.Proofs.Compile.Copy
import GuidedGrammar.Proofs.Engine.Log
import GuidedGrammar.Proofs.Regex.ByteSet
import GuidedGrammar.Proofs.Regex.Consistency
import GuidedGrammar.Proofs.Grammar.Labels
import GuidedGrammar.Proofs.Compile.Narrowing
