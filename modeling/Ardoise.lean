import Ardoise.Command
import Ardoise.Desk
import Ardoise.Main
import Ardoise.Proofs.Blur
import Ardoise.Proofs.Simulation.Store
import Ardoise.Proofs.Simulation.Run
import Ardoise.Proofs.Simulation.Evaluation
import Ardoise.Proofs.Effects
import Ardoise.Proofs.Moments
import Ardoise.Proofs.Curtailed
import Ardoise.Proofs.Holdings
import Ardoise.Proofs.Regime
import Ardoise.Proofs.Provenance
import Ardoise.Proofs.Sessions.Shape
import Ardoise.Proofs.Sessions.Hygiene
import Ardoise.Proofs.Sessions.Isolation
import Ardoise.Proofs.Scoping
import Ardoise.Proofs.Layout
import Ardoise.Proofs.Sessions.CallDepth
import Ardoise.Proofs.Sessions.Dialogue
import Ardoise.Proofs.Sessions.Returns
import Ardoise.Proofs.Sessions.Endings
import Ardoise.Proofs.Scanning.Tiling
import Ardoise.Proofs.Scanning.Lexemes
import Ardoise.Proofs.Scanning.Longest
import Ardoise.Proofs.Scanning.Spacing
import Ardoise.Proofs.Scanning.Breaks
import Ardoise.Proofs.Parsing.Grammar
import Ardoise.Proofs.Parsing.Soundness
import Ardoise.Proofs.Parsing.Derivation
import Ardoise.Proofs.Parsing.Tracking
import Ardoise.Proofs.Parsing.Depth
import Ardoise.Proofs.Parsing.Composition
import Ardoise.Proofs.Parsing.Spans
import Ardoise.Proofs.Parsing.Printing
import Ardoise.Proofs.Parsing.Reading
import Ardoise.Proofs.Parsing.Slots
import Ardoise.Proofs.Parsing.RoundTrip
import Ardoise.Proofs.Parsing.Counter
import Ardoise.Proofs.Parsing.Nesting
import Ardoise.Proofs.Parsing.Allowance
import Ardoise.Proofs.Parsing.Locality
import Ardoise.Proofs.Parsing.Termination
import Ardoise.Proofs.Parsing.Parts
import Ardoise.Proofs.Parsing.Extents
import Ardoise.Proofs.Sessions.Pointing
import Ardoise.Proofs.Sessions.Checks
import Ardoise.Proofs.Sessions.Blame
import Ardoise.Proofs.Diagnostics.Excerpts
import Ardoise.Proofs.Diagnostics.Coordinates
import Ardoise.Proofs.Diagnostics.Carets
import Ardoise.Proofs.Loops.Conditional
import Ardoise.Proofs.Custody
import Ardoise.Proofs.Sessions.Grounds
import Ardoise.Proofs.Values.Identity
import Ardoise.Proofs.Values.Equality
import Ardoise.Proofs.Numbers.Doubles
import Ardoise.Proofs.Loops.Counting
import Ardoise.Proofs.Loops.OwnScopes
import Ardoise.Proofs.Numbers.Printing
import Ardoise.Proofs.Listings.Readability
import Ardoise.Proofs.Listings.Nodes
import Ardoise.Proofs.Listings.Programs
import Ardoise.Proofs.Sessions.Estates
import Ardoise.Proofs.Sessions.Cycles
