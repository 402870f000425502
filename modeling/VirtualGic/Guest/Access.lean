import VirtualGic.Bits
import VirtualGic.Table
/-!
# Guest accesses

A trapped load or store, the guest's register file, and how a loaded value reaches the
register.
-/
namespace VirtualGic

/-- The general purpose registers 0 to 30.  Higher numbers read as zero and ignore writes. -/
structure RegisterFile where
  cells : Table (BitVec 64)

namespace RegisterFile

def constant (v : BitVec 64) : RegisterFile := ⟨.constant 31 v⟩

def get (f : RegisterFile) (n : Nat) : BitVec 64 := if n < 31 then f.cells.get n else 0

def set (f : RegisterFile) (n : Nat) (v : BitVec 64) : RegisterFile :=
  if n < 31 then ⟨f.cells.set n v⟩ else f

theorem get_set (f : RegisterFile) (n m : Nat) (v : BitVec 64) :
    (f.set n v).get m = if n = m ∧ n < 31 then v else f.get m := by
  unfold set get
  by_cases h : n < 31
  · by_cases e : n = m
    · subst e; simp [h]
    · simp [h, e]
  · simp [h]

end RegisterFile

structure Access where
  addr : BitVec 64
  width : Nat
  write : Bool
  register : Nat
  /-- A narrow load extends the sign. -/
  signed : Bool
  /-- The register is used with all its 64 bits. -/
  wide : Bool
deriving DecidableEq, Repr

namespace Access

/-- The register value of a load: the bytes moved, with the sign extended on request to the
width in which the register is used. -/
def extend (a : Access) (v : BitVec 64) : BitVec 64 :=
  let bits := 8 * a.width
  if a.signed && decide (bits < 64) then
    let v := (v.setWidth bits).signExtend 64
    if a.wide then v else lowBits 32 v
  else lowBits bits v

def finishLoad (a : Access) (f : RegisterFile) (v : BitVec 64) : RegisterFile :=
  f.set a.register (a.extend v)

/-- The value of a store: the low bytes of its register. -/
def stored (a : Access) (f : RegisterFile) : BitVec 64 := lowBits (8 * a.width) (f.get a.register)

/-- Carry out an access on a state.  A load gives a value, a store a new state, and either may be
refused: then nothing happens. -/
def perform {σ : Type} (a : Access) (f : RegisterFile) (s : σ) (load : Option (BitVec 64))
    (store : BitVec 64 → Option σ) : Bool × RegisterFile × σ :=
  if a.write then
    match store (a.stored f) with
    | some s => (true, f, s)
    | none => (false, f, s)
  else
    match load with
    | some v => (true, a.finishLoad f v, s)
    | none => (false, f, s)

end Access
end VirtualGic
