import Mathlib.Logic.Relation
import VirtualGic.Core.Messages
import VirtualGic.Core.SystemRegisters
import VirtualGic.Proofs.Sound
import VirtualGic.Proofs.Window
/-!
# Composition

Accesses, injections and what messages ask for come down to a few pieces: a field is written, a hardware interrupt injected,
another core asked for a software interrupt, an offer accepted.  So what is composed of steps of one kind where each piece is
(`Core.Composes`), is composed of them throughout.  A store to the distributor's control register is told apart: not every kind
of step covers it.
-/
namespace VirtualGic.Core

open Relation (ReflTransGen)

/-- **A loop whose rounds are composed of steps** is composed of steps. -/
theorem foldl_composed {α : Type} {R : Core → Core → Prop} {f : Core → α → Core} (xs : List α) (c : Core)
    (h : ∀ d, ReflTransGen R c d → ∀ a ∈ xs, ReflTransGen R d (f d a)) : ReflTransGen R c (xs.foldl f c) := by
  induction xs generalizing c with
  | nil => exact .refl
  | cons a xs ih =>
    have first := h c .refl a List.mem_cons_self
    exact first.trans <| ih (f c a) fun d hd b hb => h d (first.trans hd) b (List.mem_cons_of_mem a hb)

/-- The pieces are composed of steps, at every core of which `P` is known. -/
structure Composes (P : Core → Prop) (R : Core → Core → Prop) : Prop where
  keeps : ∀ {c c'}, P c → ReflTransGen R c c' → P c' ∧ Same c c'
  writeField : ∀ {c l}, P c → c.vm.Has l → ∀ g v, ReflTransGen R c (c.writeField g l v)
  injectHardware : ∀ {c l}, P c → c.vm.Has l → (c.interrupt l).hardware = true → ReflTransGen R c (c.injectHardware l)
  /-- Another vCPU is asked for a software interrupt. -/
  ask : ∀ {c id v target}, P c → id < softwareInterrupts → v < c.vm.vcpuCount → v ≠ c.vcpu → c.vm.pcpuOf? v = some target →
    ReflTransGen R c (c.post target .inject { c.payload v id with value := BitVec.ofNat 32 c.vcpu })
  accept : ∀ {c l}, P c → c.vm.Has l → ReflTransGen R c (c.accept l)
  sleep : ∀ c vcpu asleep, ReflTransGen R c { c with vm := c.vm.setAsleep vcpu asleep }

namespace Composes

variable {P : Core → Prop} {R : Core → Core → Prop} {c c' : Core} {l : Line}

theorem has (w : Composes P R) (h : P c) (steps : ReflTransGen R c c') (hl : c.vm.Has l) : c'.vm.Has l :=
  (Vm.has_congr (w.keeps h steps).2.partition l).2 hl

/-! ## Fields and software interrupts -/

theorem writeFields (w : Composes P R) (g : RegisterGroup) (bits : Nat) (ls : List Line) (v : BitVec 64) (c : Core) (h : P c)
    (hl : ∀ l ∈ ls, c.vm.Has l) : ReflTransGen R c (writeFields g bits ls v c) := by
  induction ls generalizing v c with
  | nil => exact .refl
  | cons l ls ih =>
    have first : ReflTransGen R c
        (if (lowBits bits v == 0 && g.ignoresZero) = true then c else c.writeField g l (lowBits bits v)) := by
      split
      next => exact .refl
      next => exact w.writeField h (hl l List.mem_cons_self) g _
    exact first.trans <| ih _ _ (w.keeps h first).1 fun k hk => w.has h first (hl k (List.mem_cons_of_mem l hk))

theorem raise (w : Composes P R) (h : P c) (id requester : Nat) : ReflTransGen R c (c.raise id requester) := by
  unfold Core.raise
  split
  next => exact .refl
  next l hl =>
    have has := Vm.has_of_find? hl
    split <;> exact w.writeField h has ..

theorem inject (w : Composes P R) (h : P c) (id : Nat) : ReflTransGen R c (c.inject id) := by
  unfold Core.inject
  split
  next => exact .refl
  next l hl =>
    have has := Vm.has_of_find? hl
    split
    next hardware => exact w.injectHardware h has hardware
    next =>
      split
      next => exact w.raise h ..
      next => exact w.writeField h has ..

theorem sendTo (w : Composes P R) (h : P c) {id : Nat} (soft : id < softwareInterrupts) {v : Nat} (hv : v < c.vm.vcpuCount) :
    ReflTransGen R c (c.sendTo id v) := by
  unfold Core.sendTo
  split
  next => exact w.raise h ..
  next other =>
    split
    next => exact .refl
    next target ht => exact w.ask h soft hv (fun e => other (beq_iff_eq.2 e)) ht

theorem send (w : Composes P R) (h : P c) {id : Nat} (soft : id < softwareInterrupts) (vcpus : CpuSet) :
    ReflTransGen R c (c.send id vcpus) :=
  foldl_composed _ c fun d hd v hv => by
    obtain ⟨known, same⟩ := w.keeps h hd
    refine w.sendTo known soft ?_
    rw [Vm.vcpuCount_congr same.partition]
    exact List.mem_range.1 (List.mem_filter.1 hv).1

/-! ## Accesses -/

theorem storeWindow? (w : Composes P R) (h : P c) {win : Window} {addr v : BitVec 64} {width : Nat}
    (hs : c.storeWindow? win addr width v = some c') : ReflTransGen R c c' ∨ c' = Distributor.storeControl c v := by
  unfold Core.storeWindow? at hs
  cases win with
  | distributor base =>
    obtain ⟨p, hp, rfl⟩ := Option.map_eq_some_iff.1 hs
    have reach := Distributor.reaches_place? hp
    cases p with
    | control => exact .inr rfl
    | type | implementer | zero | identification => exact .inl .refl
    | softwareInterrupt => exact .inl (w.send h (v.setWidth 4).isLt _)
    | route id part => exact .inl (w.writeField h reach ..)
    | fields g bits ls => exact .inl (w.writeFields g bits ls v c h reach.has)
  | redistributors base count =>
    obtain ⟨p, hp, rfl⟩ := Option.map_eq_some_iff.1 hs
    have reach := Redistributor.reaches_place? hp
    left
    cases p with
    | implementer | type | identification | zero => exact .refl
    | wake vcpu => exact w.sleep c vcpu _
    | fields g bits ls => exact w.writeFields g bits ls v c h reach.has

theorem access (w : Composes P R) (h : P c) (a : Access) (f : RegisterFile) :
    ReflTransGen R c (c.access a f).2.2 ∨ (c.access a f).2.2 = Distributor.storeControl c (a.stored f) := by
  cases write : a.write with
  | false =>
    rw [access_of_read write]
    cases c.load? c.vm.addressMap a.addr a.width <;> exact .inl .refl
  | true =>
    rw [access_of_write write]
    cases hs : c.store? c.vm.addressMap a.addr a.width (a.stored f) with
    | none => exact .inl .refl
    | some c' =>
      obtain ⟨win, -, hw⟩ := Option.bind_eq_some_iff.1 hs
      exact w.storeWindow? h hw

theorem accessSystem (w : Composes P R) (h : P c) (a : SystemAccess) (f : RegisterFile) :
    ReflTransGen R c (c.accessSystem a f).2.2 := by
  unfold Core.accessSystem writeSystem?
  split
  next => split <;> exact .refl
  next =>
    by_cases ht : a.target = .softwareInterrupt
    · simp only [ht, if_true]
      exact w.send h (BitVec.isLt _) _
    · by_cases he : a.target = .enable <;> simp only [ht, he, if_true, if_false] <;> exact .refl

/-! ## Messages -/

/-- The message that follows from a switch of the distributor is told apart as well. -/
theorem handleRequest (w : Composes P R) (h : P c) {r : Request} (other : r ≠ .syncEnable) (p : Payload) :
    ReflTransGen R c (c.handleRequest r p) := by
  unfold Core.handleRequest
  cases r with
  | syncEnable => exact absurd rfl other
  | route =>
    simp only
    split
    next l hl => exact w.accept h (Vm.has_of_find? hl)
    next => exact .refl
  | inject =>
    simp only
    split
    next => exact w.raise h ..
    next => exact w.inject h _
  | writeField =>
    simp only
    split
    next hl => exact w.writeField h (Vm.has_of_find? hl) ..
    next => exact .refl

end Composes
end VirtualGic.Core
