import Blockscript.Main
import Blockscript.Proofs.Session.Frames
import Blockscript.Proofs.Session.Refinement
import Blockscript.Proofs.Scope.Order
import Blockscript.Proofs.Scope.WellFormed
import Blockscript.Proofs.Scope.Client
import Blockscript.Proofs.Scope.Registry
import Blockscript.Proofs.Scope.Identity
import Blockscript.Proofs.Grammar.Derivation
import Blockscript.Proofs.Grammar.Yields
import Blockscript.Proofs.Grammar.Expressions
import Blockscript.Proofs.Grammar.Segments
import Blockscript.Proofs.Grammar.Programs
import Blockscript.Proofs.Scan.Excerpts
import Blockscript.Proofs.Grammar.Nodes
import Blockscript.Proofs.Session.Joined
import Blockscript.Proofs.Session.Balance
import Blockscript.Proofs.Scope.Lookup
import Blockscript.Proofs.Scope.Shadowing
import Blockscript.Proofs.Grammar.Moved
import Blockscript.Proofs.Session.Scoping
import Blockscript.Proofs.Session.Places
import Blockscript.Proofs.Scan.Refusals
import Blockscript.Proofs.Scan.Lines
import Blockscript.Proofs.Scan.Continued
import Blockscript.Proofs.Scan.Spacing
import Blockscript.Proofs.Grammar.Anchors
import Blockscript.Proofs.Session.Causes
import Blockscript.Proofs.Session.Writes
import Blockscript.Proofs.Session.Written
import Blockscript.Proofs.Session.Renaming
import Blockscript.Proofs.Session.Footprint
import Blockscript.Proofs.Session.Related
import Blockscript.Proofs.Session.Dependence
import Blockscript.Proofs.Session.Transparency
import Blockscript.Proofs.Session.Single
import Blockscript.Proofs.Output.Channels
import Blockscript.Proofs.Output.Shown
import Blockscript.Proofs.Output.Exit
import Blockscript.Proofs.Text.Lines
import Blockscript.Proofs.Output.Dialogue
import Blockscript.Proofs.Number.Rounding
import Blockscript.Proofs.Number.Digits
import Blockscript.Proofs.Number.Bits
import Blockscript.Proofs.Number.ReadBack
import Blockscript.Proofs.Arguments
import Blockscript.Proofs.Scope.Slots
import Blockscript.Proofs.Grammar.Progress
