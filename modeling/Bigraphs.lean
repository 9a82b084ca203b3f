import Bigraphs.LazyList
import Bigraphs.Construction.Action
import Bigraphs.Graph.Interface
import Bigraphs.Hash.Identity
import Bigraphs.Control
import Bigraphs.Bipartite.Maximum
import Bigraphs.Bipartite.Matcher
import Bigraphs.Matching.Hits
import Bigraphs.Matching.Embedding
import Bigraphs.Matching.Cursor
import Bigraphs.Matching.Occurrence
import Bigraphs.Matching.Odometer
import Bigraphs.Matching.Pass
import Bigraphs.Proofs.Matching.Soundness
import Bigraphs.Proofs.Matching.PlaceRoundTrip
import Bigraphs.Proofs.Matching.LinkRoundTrip
import Bigraphs.Proofs.Matching.Completeness
import Bigraphs.Proofs.Bipartite.Matcher
import Bigraphs.Proofs.Construction.Rules
import Bigraphs.Proofs.Matching.Interfaces
import Bigraphs.Proofs.Matching.ClosedLinks
import Bigraphs.Proofs.Matching.Renumbered
import Bigraphs.Proofs.Matching.Cursor
import Bigraphs.Proofs.Matching.Repeated
import Bigraphs.Proofs.Matching.Candidates
import Bigraphs.Proofs.Construction.Refusals
import Bigraphs.Proofs.Matching.Odometer
import Bigraphs.Proofs.Matching.Pass
import Bigraphs.Proofs.Matching.ChildlessRoots
import Bigraphs.Proofs.Hash.Separation
import Bigraphs.Proofs.Graph.Traversals
import Bigraphs.Proofs.Matching.Planner
import Bigraphs.Proofs.Matching.Filters
import Bigraphs.Proofs.Matching.SubtreeIso
import Bigraphs.Proofs.Matching.Interchange
import Bigraphs.Proofs.Construction.Labels
