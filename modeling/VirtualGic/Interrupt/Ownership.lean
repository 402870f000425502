import VirtualGic.Interrupt.Basic
/-!
# Ownership

Only the owner of an interrupt puts it into list registers.  Anyone may claim a
free interrupt; the owner gives it up once it is neither resident nor active,
except that a banked interrupt never changes hands under version 2.
-/
namespace VirtualGic.Interrupt

def ownedBy (s : Interrupt) (vcpu : Nat) : Bool := s.owner == some vcpu

/-- Free, or already owned by `vcpu`. -/
def availableTo (s : Interrupt) (vcpu : Nat) : Bool := s.owner == none || s.owner == some vcpu

def claim (s : Interrupt) (vcpu : Nat) : Interrupt :=
  if s.availableTo vcpu then { s with owner := some vcpu } else s

def releasable (s : Interrupt) (version : GicVersion) (l : Line) (vcpu : Nat) : Bool :=
  s.ownedBy vcpu && !s.resident && !s.state.active && !(version == .v2 && l.isBanked)

def release (s : Interrupt) (version : GicVersion) (l : Line) (vcpu : Nat) : Interrupt :=
  if s.releasable version l vcpu then { s with owner := none } else s

/-- Releasing changes nothing but the owner. -/
theorem release_eq (s : Interrupt) (version : GicVersion) (l : Line) (vcpu : Nat) :
    s.release version l vcpu = s ∨ s.release version l vcpu = { s with owner := none } := by
  unfold release; split
  · exact .inr rfl
  · exact .inl rfl

end VirtualGic.Interrupt
