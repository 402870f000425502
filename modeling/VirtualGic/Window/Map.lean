import VirtualGic.Guest.Access
import VirtualGic.Window.Redistributor
/-!
# Address maps

The windows of a VM's devices.  An access goes to the first window that contains its
address and is refused where there is none.
-/
namespace VirtualGic

inductive Window where
  | distributor (base : BitVec 64)
  | redistributors (base : BitVec 64) (count : Nat)
deriving DecidableEq, Repr

namespace Window

def base : Window → BitVec 64
  | distributor base => base
  | redistributors base _ => base

def size : Window → Nat
  | distributor _ => distributorSize
  | redistributors _ count => redistributorStride * count

/-- The address after the window.  It is zero or more once the window has reached the last address. -/
def limit (w : Window) : BitVec 64 := w.base + BitVec.ofNat 64 w.size

/-- A window that reaches the last address has its limit below its base and contains nothing. -/
def contains (w : Window) (addr : BitVec 64) : Bool := decide (w.base ≤ addr) && decide (addr < w.limit)

end Window

/-- Windows in the order in which they are tried. -/
abbrev AddressMap := List Window

namespace AddressMap

/-- The most windows that a map holds; what is registered beyond them is ignored. -/
def capacity : Nat := 4

def register (m : AddressMap) (w : Window) : AddressMap :=
  if m.length < capacity then m ++ [w] else m

/-- Register the windows of an interrupt controller, with redistributors if there are any. -/
def attach (m : AddressMap) (distributor redistributor : BitVec 64) (frames : Nat) : AddressMap :=
  let m := m.register (.distributor distributor)
  if frames == 0 then m else m.register (.redistributors redistributor frames)

end AddressMap

/-- The windows of a VM: only version 3 has redistributors. -/
def Vm.addressMap (vm : Vm) : AddressMap :=
  let frames := match vm.version with
    | .v2 => 0
    | .v3 => vm.vcpuCount
  AddressMap.attach [] vm.partition.distributor vm.partition.redistributor frames

namespace Core

def loadWindow? (c : Core) (w : Window) (addr : BitVec 64) (width : Nat) : Option (BitVec 64) :=
  match w with
  | .distributor _ => (Distributor.place? c addr width).map (Distributor.load c)
  | .redistributors _ _ => (Redistributor.place? c addr width).map (Redistributor.load c)

def storeWindow? (c : Core) (w : Window) (addr : BitVec 64) (width : Nat) (v : BitVec 64) :
    Option Core :=
  match w with
  | .distributor _ => (Distributor.place? c addr width).map (Distributor.store c v)
  | .redistributors _ _ => (Redistributor.place? c addr width).map (Redistributor.store c v)

def load? (c : Core) (m : AddressMap) (addr : BitVec 64) (width : Nat) : Option (BitVec 64) :=
  (m.find? (·.contains addr)).bind fun w => c.loadWindow? w addr width

def store? (c : Core) (m : AddressMap) (addr : BitVec 64) (width : Nat) (v : BitVec 64) :
    Option Core :=
  (m.find? (·.contains addr)).bind fun w => c.storeWindow? w addr width v

/-- Carry out a guest access through a map. -/
def accessThrough (c : Core) (m : AddressMap) (a : Access) (f : RegisterFile) :
    Bool × RegisterFile × Core :=
  a.perform f c (c.load? m a.addr a.width) (c.store? m a.addr a.width)

/-- Carry out a guest access to the windows of the running VM. -/
def access (c : Core) (a : Access) (f : RegisterFile) : Bool × RegisterFile × Core :=
  c.accessThrough c.vm.addressMap a f

end Core
end VirtualGic
