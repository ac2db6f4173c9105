import ClassLift.Command.Logging
import ClassLift.Command.Run
import ClassLift.Main
import ClassLift.Proofs.Convert.Abort
import ClassLift.Proofs.Convert.Bodies
import ClassLift.Proofs.Convert.Classes
import ClassLift.Proofs.Convert.Merging
import ClassLift.Proofs.Convert.Rejected
import ClassLift.Proofs.Convert.Made
import ClassLift.Proofs.Convert.Spared
import ClassLift.Proofs.Convert.Grammar
import ClassLift.Proofs.Convert.Segments
import ClassLift.Proofs.Convert.Forward
import ClassLift.Proofs.Convert.Methods
import ClassLift.Proofs.Convert.Converted
import ClassLift.Proofs.Convert.Rest
import ClassLift.Proofs.Convert.Left
import ClassLift.Proofs.Convert.Again
import ClassLift.Proofs.Convert.Stable
import ClassLift.Proofs.Convert.Findings
import ClassLift.Proofs.Convert.Frame
import ClassLift.Proofs.Convert.Scope
import ClassLift.Proofs.Tree.Assembly
import ClassLift.Proofs.Tree.Linked
import ClassLift.Proofs.Tree.RoundTrip
import ClassLift.Proofs.Tree.InPlace
import ClassLift.Proofs.Tree.Mirror
import ClassLift.Proofs.Convert.Lockstep
import ClassLift.Proofs.Convert.Hosted
import ClassLift.Proofs.Convert.Independence
import ClassLift.Proofs.Convert.Options
import ClassLift.Proofs.Convert.Counters
import ClassLift.Proofs.Command.Contract
import ClassLift.Proofs.Naming.RoundTrip
import ClassLift.Proofs.Naming.BaseType
import ClassLift.Proofs.Convert.Parts
import ClassLift.Proofs.Convert.Abandoned
import ClassLift.Proofs.Convert.StandsFor
import ClassLift.Proofs.Convert.History
import ClassLift.Proofs.Tree.Errors
import ClassLift.Proofs.Text.Substitution
import ClassLift.Proofs.Tree.Presentation
import ClassLift.Proofs.Convert.Halting
import ClassLift.Proofs.Tree.Dump
import ClassLift.Proofs.Convert.Switches
