/-!
# What a message says

A message asks another core for something.  Its event says what, its data holds a
`Payload` in 64 bits.
-/
namespace VirtualGic

inductive Request where
  /-- The distributor was enabled or disabled. -/
  | syncEnable
  /-- Present an interrupt if it is free. -/
  | route
  | inject
  /-- Redo a write to a register field. -/
  | writeField
deriving DecidableEq, Repr

namespace Request

def code : Request → BitVec 32
  | syncEnable => 0
  | route => 1
  | inject => 2
  | writeField => 3

def ofCode? (e : BitVec 32) : Option Request :=
  if e == 0 then some syncEnable
  else if e == 1 then some route
  else if e == 2 then some inject
  else if e == 3 then some writeField
  else none

theorem ofCode?_eq_some_iff (e : BitVec 32) (r : Request) : ofCode? e = some r ↔ r.code = e := by
  unfold ofCode?
  cases r <;> simp only [code] <;> grind

end Request

structure Payload where
  vm : BitVec 8
  /-- The vCPU whose bank holds the interrupt; for a shared one, a vCPU that takes part. -/
  bank : BitVec 8
  intid : BitVec 10
  group : BitVec 6
  /-- The value of a field write, or the requester of a software interrupt. -/
  value : BitVec 32
deriving DecidableEq, Repr

namespace Payload

def toWord (p : Payload) : BitVec 64 := p.vm ++ p.bank ++ p.intid ++ p.group ++ p.value

def ofWord (w : BitVec 64) : Payload where
  vm := w.extractLsb' 56 8
  bank := w.extractLsb' 48 8
  intid := w.extractLsb' 38 10
  group := w.extractLsb' 32 6
  value := w.extractLsb' 0 32

@[simp] theorem toWord_ofWord (w : BitVec 64) : (ofWord w).toWord = w := by
  apply BitVec.eq_of_getLsbD_eq
  intro i hi
  simp only [toWord, ofWord, BitVec.getLsbD_append, BitVec.getLsbD_extractLsb']
  repeat' split
  all_goals grind

@[simp] theorem ofWord_toWord (p : Payload) : ofWord p.toWord = p := by
  cases p with | mk vm bank intid group value =>
  simp only [ofWord, toWord, mk.injEq]
  refine ⟨?_, ?_, ?_, ?_, ?_⟩ <;>
  · apply BitVec.eq_of_getLsbD_eq
    intro i hi
    simp only [BitVec.getLsbD_append, BitVec.getLsbD_extractLsb']
    grind

end Payload
end VirtualGic
