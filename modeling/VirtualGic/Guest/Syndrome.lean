import VirtualGic.Guest.Access
/-!
# Trap syndromes

A trapped load or store is described by its syndrome or, where that is not valid, by
the instruction itself.  A trapped access to a system register is always described by
its syndrome.
-/
namespace VirtualGic

/-- Exception class of a trapped system register access. -/
def systemRegisterClass : BitVec 32 := 0x18

/-- Exception class of a data abort from a lower level. -/
def dataAbortClass : BitVec 32 := 0x24

/-! ## Loads and stores -/

inductive Transfer where
  | load (register size : Nat) (signed wide : Bool)
  | store (register size : Nat)
deriving DecidableEq, Repr

namespace Transfer

def register : Transfer → Nat
  | load r _ _ _ => r
  | store r _ => r

def size : Transfer → Nat
  | load _ n _ _ => n
  | store _ n => n

def isStore : Transfer → Bool
  | load .. => false
  | store .. => true

def signed : Transfer → Bool
  | load _ _ s _ => s
  | store .. => false

/-- A store uses its whole register when it moves eight bytes. -/
def wide : Transfer → Bool
  | load _ _ _ w => w
  | store _ n => n == 8

/-- The transfer described by an instruction: a load or store of an integer register with an
unsigned immediate offset. -/
def ofInstruction? (insn : BitVec 32) : Option Transfer :=
  if insn &&& 0x3B000000 != 0x39000000 then none
  else
    let scale := (insn.extractLsb' 30 2).toNat
    let register := (insn.extractLsb' 0 5).toNat
    match (insn.extractLsb' 22 2).toNat with
    | 0 => some (.store register (1 <<< scale))
    | 1 => some (.load register (1 <<< scale) false (scale == 3))
    | 2 => if scale < 3 then some (.load register (1 <<< scale) true true) else none
    | _ => if scale < 2 then some (.load register (1 <<< scale) true false) else none

def ofSyndrome (iss : BitVec 32) : Transfer :=
  let size := 1 <<< (iss.extractLsb' 22 2).toNat
  let register := (iss.extractLsb' 16 5).toNat
  if iss.getLsbD 6 then .store register size
  else .load register size (iss.getLsbD 21) (iss.getLsbD 15)

def decode? (insn iss : BitVec 32) : Option Transfer :=
  if iss.getLsbD 24 then some (ofSyndrome iss) else ofInstruction? insn

def access (t : Transfer) (addr : BitVec 64) : Access where
  addr := addr
  width := t.size
  write := t.isStore
  register := t.register
  signed := t.signed
  wide := t.wide

end Transfer

/-! ## System registers -/

structure SystemRegister where
  op0 : Nat
  op1 : Nat
  crn : Nat
  crm : Nat
  op2 : Nat
deriving DecidableEq, Repr

namespace SystemRegister

/-- Generates software interrupts. -/
def softwareInterrupt : SystemRegister := ⟨3, 0, 12, 11, 5⟩

/-- Enables the system register interface. -/
def enable : SystemRegister := ⟨3, 0, 12, 12, 5⟩

end SystemRegister

structure SystemAccess where
  target : SystemRegister
  register : Nat
  read : Bool
deriving DecidableEq, Repr

def SystemAccess.decode (iss : BitVec 32) : SystemAccess where
  target :=
    { op0 := (iss.extractLsb' 20 2).toNat
      op1 := (iss.extractLsb' 14 3).toNat
      crn := (iss.extractLsb' 10 4).toNat
      crm := (iss.extractLsb' 1 4).toNat
      op2 := (iss.extractLsb' 17 3).toNat }
  register := (iss.extractLsb' 5 5).toNat
  read := iss.getLsbD 0

end VirtualGic
