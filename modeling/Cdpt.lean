import Cdpt.Proofs.TriColor
import Cdpt.Proofs.Tags
import Cdpt.Proofs.Registry
import Cdpt.Proofs.Slots
import Cdpt.Proofs.Unroot
import Cdpt.Proofs.Confirm
import Cdpt.Proofs.Sweep
import Cdpt.Proofs.Probe
import Cdpt.Proofs.Meta
import Cdpt.Proofs.EpochWord
import Cdpt.Proofs.Hazards
import Cdpt.Proofs.Pacing
import Cdpt.Proofs.Queue
import Cdpt.Proofs.Heartbeat
import Cdpt.Proofs.Collect
import Cdpt.Proofs.Overlap
import Cdpt.Proofs.Handover
import Cdpt.Proofs.Quiet
import Cdpt.Proofs.Finish
