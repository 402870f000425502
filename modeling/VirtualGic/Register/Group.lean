/-!
# Register groups

The registers of a distributor come in groups.  Most groups are arrays of fields,
one field for each interrupt; the layout says where a group lies, how wide its
fields are and how it may be accessed.
-/
namespace VirtualGic

inductive RegisterGroup where
  /-- Control, type and implementer registers. -/
  | misc
  | group
  | setEnable
  | clearEnable
  | setPending
  | clearPending
  | setActive
  | clearActive
  | priority
  | targets
  | config
  | groupModifier
  | nonSecureAccess
  /-- The register that generates software interrupts under version 2. -/
  | softwareInterrupt
  | clearRequesters
  | setRequesters
  | route
  | identification
deriving DecidableEq, Repr

namespace RegisterGroup

/-- Every group, in the order of their codes. -/
def all : List RegisterGroup :=
  [misc, group, setEnable, clearEnable, setPending, clearPending, setActive, clearActive,
    priority, targets, config, groupModifier, nonSecureAccess, softwareInterrupt,
    clearRequesters, setRequesters, route, identification]

/-- The code that stands for the group in a message. -/
def code (g : RegisterGroup) : Nat := all.idxOf g

def ofCode? (n : Nat) : Option RegisterGroup := all[n]?

theorem ofCode?_code (g : RegisterGroup) : ofCode? g.code = some g := by cases g <;> rfl

/-- Writing zero to a field of this group has no effect. -/
def ignoresZero : RegisterGroup → Bool
  | setEnable | clearEnable | setPending | clearPending | setActive | clearActive
  | clearRequesters | setRequesters => true
  | _ => false

end RegisterGroup

/-- Where a group lies in the window of a distributor and how it may be accessed. -/
structure RegisterBlock where
  group : RegisterGroup
  base : Nat
  size : Nat
  /-- The access widths in bytes, added up. -/
  widths : Nat
  /-- The width of one interrupt's field, zero where the registers hold no fields. -/
  fieldBits : Nat
deriving DecidableEq, Repr

namespace RegisterBlock

def covers (b : RegisterBlock) (offset : Nat) : Bool :=
  decide (b.base ≤ offset) && decide (offset < b.base + b.size)

/-- Whether the block may be accessed with this many bytes at this address: the width is one of
its widths and the address is a multiple of it. -/
def allows (b : RegisterBlock) (addr : BitVec 64) (width : Nat) : Bool :=
  [1, 2, 4, 8].contains width && (b.widths &&& width) != 0 && addr.toNat % width == 0

end RegisterBlock

/-- The layout of a distributor.  Words everywhere, except that priorities, targets and
requesters also have bytes, and routes doublewords. -/
def registerLayout : List RegisterBlock :=
  [⟨.misc, 0x000, 0x80, 4, 0⟩,
    ⟨.group, 0x080, 0x80, 4, 1⟩,
    ⟨.setEnable, 0x100, 0x80, 4, 1⟩,
    ⟨.clearEnable, 0x180, 0x80, 4, 1⟩,
    ⟨.setPending, 0x200, 0x80, 4, 1⟩,
    ⟨.clearPending, 0x280, 0x80, 4, 1⟩,
    ⟨.setActive, 0x300, 0x80, 4, 1⟩,
    ⟨.clearActive, 0x380, 0x80, 4, 1⟩,
    ⟨.priority, 0x400, 0x400, 5, 8⟩,
    ⟨.targets, 0x800, 0x400, 5, 8⟩,
    ⟨.config, 0xC00, 0x100, 4, 2⟩,
    ⟨.groupModifier, 0xD00, 0x100, 4, 1⟩,
    ⟨.nonSecureAccess, 0xE00, 0x100, 4, 2⟩,
    ⟨.softwareInterrupt, 0xF00, 0x4, 4, 0⟩,
    ⟨.clearRequesters, 0xF10, 0x10, 5, 8⟩,
    ⟨.setRequesters, 0xF20, 0x10, 5, 8⟩,
    ⟨.route, 0x6000, 0x2000, 12, 64⟩,
    ⟨.identification, 0xFFD0, 0x30, 4, 0⟩]

def blockAt? (offset : Nat) : Option RegisterBlock := registerLayout.find? (·.covers offset)

end VirtualGic
