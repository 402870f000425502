import VirtualGic.DeviceTree.Discovery
import VirtualGic.Machine.Step
import VirtualGic.Machine.View
import VirtualGic.Proofs.Board
import VirtualGic.Proofs.Line
import VirtualGic.Proofs.Places
import VirtualGic.Proofs.Order
import VirtualGic.Proofs.Presented
import VirtualGic.Proofs.Isolation
import VirtualGic.Proofs.Upkeep
import VirtualGic.Proofs.Conserved
import VirtualGic.Proofs.Owners
import VirtualGic.Proofs.Standing
import VirtualGic.Proofs.Requests
import VirtualGic.Proofs.Service
import VirtualGic.Proofs.Errand
import VirtualGic.Proofs.Outcome
import VirtualGic.Proofs.Anywhere
import VirtualGic.Proofs.Summons
import VirtualGic.Proofs.Fifo
import VirtualGic.Proofs.Coherence
import VirtualGic.Proofs.Settling
import VirtualGic.Proofs.WellFormed
import VirtualGic.Proofs.Served
import VirtualGic.Proofs.Shown
import VirtualGic.Proofs.Halves
import VirtualGic.Proofs.Selection
import VirtualGic.Proofs.Calls
import VirtualGic.Proofs.Eviction
import VirtualGic.Proofs.Refill
import VirtualGic.Proofs.Armed
import VirtualGic.Proofs.Located
import VirtualGic.Proofs.Width
import VirtualGic.Proofs.Bytes
import VirtualGic.Proofs.ReadBack
import VirtualGic.Proofs.Activity
import VirtualGic.Proofs.Unmatched
import VirtualGic.Proofs.Syndrome
import VirtualGic.Proofs.Creation
import VirtualGic.Proofs.Addressees
import VirtualGic.Proofs.Encoding
import VirtualGic.Proofs.Loaded
import VirtualGic.Proofs.Faithful
import VirtualGic.Proofs.Guarded.Step
