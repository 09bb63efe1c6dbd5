import RealScript.Code.Workbench
import RealScript.Main
import RealScript.Pool
import RealScript.Proofs.Lowering.Transactions
import RealScript.Proofs.Optimize.Preservation
import RealScript.Stages
import RealScript.Text.Bytes
import RealScript.Proofs.Code.Typed
import RealScript.Proofs.Lowering.Blocks
import RealScript.Proofs.Lowering.Charting
import RealScript.Proofs.Lowering.Lawful
import RealScript.Proofs.Machine.Soundness
import RealScript.Proofs.Optimize.Lawful
import RealScript.Proofs.Session.Lawful
import RealScript.Proofs.Session.Natives
import RealScript.Proofs.Session.Reached
import RealScript.Proofs.Machine.Safety
import RealScript.Proofs.Code.Accepted
import RealScript.Proofs.Lowering.Acceptance
import RealScript.Proofs.Machine.Likeness
import RealScript.Proofs.Session.Frame
import RealScript.Proofs.Tree.Derivations
import RealScript.Proofs.Tree.Recognition
import RealScript.Proofs.Tree.Reparse
import RealScript.Proofs.Pool.Gather
import RealScript.Proofs.Session.Cancellation
import RealScript.Proofs.Session.Globals
import RealScript.Proofs.Tree.Precedence
import RealScript.Proofs.Machine.Depth
import RealScript.Proofs.Token.Layout
import RealScript.Proofs.Tree.Expressions
import RealScript.Proofs.Tree.Forms
import RealScript.Proofs.Code.BlockNames
import RealScript.Proofs.Session.Interactive
import RealScript.Proofs.Token.Joining
