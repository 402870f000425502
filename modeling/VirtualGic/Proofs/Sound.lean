import VirtualGic.Proofs.Custody
/-!
# Sound cores

`Core.Sound`: the records, spill lists and list registers that a core works on agree.  Each way in which a core
writes to a record or to a spill list keeps that: claiming and releasing, changing an interrupt that is in no list
register, parking and unparking it, and whatever touches none of these.
-/
namespace VirtualGic.Core

/-- A core that runs the vCPU which the table pins to it, on a board that has every CPU of the table. -/
structure Stationed (c : Core) : Prop where
  checked : c.vm.partition.Checked
  here : c.vm.pcpuOf? c.vcpu = some c.cpu
  reaches : ∀ vcpu cpu, c.vm.pcpuOf? vcpu = some cpu → cpu < c.bus.cpus

structure Sound (c : Core) : Prop where
  station : c.Stationed
  records : ∀ l, c.vm.Has l → (c.interrupt l).Lawful c.vm l
  lists : c.vm.Listed
  seated : c.vm.Seated c.vcpu c.interface

/-- What never changes about a core. -/
structure Same (c c' : Core) : Prop where
  cpu : c'.cpu = c.cpu
  vcpu : c'.vcpu = c.vcpu
  cpus : c'.bus.cpus = c.bus.cpus
  partition : c'.vm.partition = c.vm.partition

/-- What soundness looks at is the same in two cores. -/
structure Alike (c c' : Core) : Prop extends Same c c' where
  interrupt : ∀ l, c'.interrupt l = c.interrupt l
  spillList : ∀ home, c'.vm.spillList home = c.vm.spillList home
  occupant : ∀ vcpu n, c'.vm.occupant? vcpu n = c.vm.occupant? vcpu n
  registers : c'.interface.registers = c.interface.registers

section
variable {c c' c'' : Core} {l : Line} {s : Interrupt}

theorem Same.refl (c : Core) : Same c c := ⟨rfl, rfl, rfl, rfl⟩

theorem Same.trans (h : Same c c') (h' : Same c' c'') : Same c c'' :=
  ⟨h'.cpu.trans h.cpu, h'.vcpu.trans h.vcpu, h'.cpus.trans h.cpus, h'.partition.trans h.partition⟩

theorem same_setInterrupt (c : Core) (l : Line) (s : Interrupt) : Same c (c.setInterrupt l s) :=
  ⟨rfl, rfl, rfl, Vm.partition_setInterrupt ..⟩

theorem isCredited_iff (c : Core) (l : Line) (n : Nat) :
    c.isCredited l n = true ↔ c.vm.Credits c.vcpu l n := by
  unfold isCredited Vm.Credits Interrupt.ownedBy interrupt
  simp only [Bool.and_eq_true, beq_iff_eq, and_assoc]

theorem owns_iff (c : Core) (l : Line) : c.owns l = true ↔ (c.interrupt l).owner = some c.vcpu := by
  unfold owns Interrupt.ownedBy
  rw [beq_iff_eq]

theorem mayClaim_iff (c : Core) (l : Line) :
    c.mayClaim l = true ↔ (c.interrupt l).owner = none ∨ (c.interrupt l).owner = some c.vcpu := by
  unfold mayClaim Interrupt.availableTo
  rw [Bool.or_eq_true, beq_iff_eq, beq_iff_eq]

theorem mem_spilledIds (c : Core) (l : Line) (seen : l.SeenBy c.vcpu) (h : l.id ∈ c.vm.spillList l.home?) :
    l.id ∈ c.spilledIds := by
  unfold spilledIds
  rw [List.mem_append]
  cases hh : l.home? with
  | none => rw [hh] at h; exact .inr h
  | some home => rw [hh, seen home hh] at h; exact .inl h

theorem Stationed.same (h : c.Stationed) (e : Same c c') : c'.Stationed := by
  refine ⟨?_, ?_, fun vcpu cpu hv => ?_⟩
  · rw [e.partition]; exact h.checked
  · rw [Vm.pcpuOf?_congr e.partition, e.vcpu, e.cpu]; exact h.here
  · rw [Vm.pcpuOf?_congr e.partition] at hv
    rw [e.cpus]
    exact h.reaches vcpu cpu hv

theorem Stationed.vcpu_lt (h : c.Stationed) : c.vcpu < c.vm.vcpuCount :=
  (List.getElem?_eq_some_iff.1 h.here).1

/-- Every vCPU has every software interrupt. -/
theorem Stationed.has_banked (h : c.Stationed) {id v : Nat} (hid : id < softwareInterrupts) (hv : v < c.vm.vcpuCount) :
    c.vm.Has (.banked v id) := by
  have hp : id < privateInterrupts := Nat.lt_trans hid (by decide)
  exact ⟨Nat.lt_of_lt_of_le hp h.checked.le_count, ⟨fun _ => hp, fun _ => rfl⟩, fun home hh => by cases hh; exact hv⟩

/-! ## What a core may rely on -/

theorem Sound.seen_of_credits (h : c.Sound) {n : Nat} (hl : c.vm.Has l) (hc : c.vm.Credits c.vcpu l n) :
    l.SeenBy c.vcpu := by
  obtain ⟨v, hv, hs, -⟩ := (h.records l hl).resident_owner hc.2.1
  have hv : (c.vm.interrupt l).owner = some v := hv
  rw [hc.1] at hv
  cases hv
  exact hs

theorem Sound.off_of_free (h : c.Sound) (hl : c.vm.Has l) (ho : (c.interrupt l).owner = none) :
    (c.interrupt l).resident = false := by
  cases hres : (c.interrupt l).resident with
  | false => rfl
  | true =>
    obtain ⟨v, hv, -⟩ := (h.records l hl).resident_owner hres
    rw [ho] at hv
    cases hv

theorem Sound.off_of_spilled (h : c.Sound) (hl : c.vm.Has l) (hs : (c.interrupt l).spilled = true) :
    (c.interrupt l).resident = false := by
  cases hres : (c.interrupt l).resident with
  | false => rfl
  | true => exact absurd (hs.symm.trans ((h.records l hl).resident_unspilled hres)) (by decide)

/-! ## Writes that keep a core sound -/

theorem Sound.alike (h : c.Sound) (e : Alike c c') : c'.Sound := by
  have hread : ∀ n, c'.interface.read n = c.interface.read n := fun n => by
    unfold CpuInterface.read
    rw [e.registers]
  have hcount : c'.interface.count = c.interface.count := congrArg Array.size e.registers
  refine ⟨h.station.same e.toSame, fun l hl => ?_, ?_, ?_⟩
  · rw [e.interrupt]
    exact (h.records l ((Vm.has_congr e.partition l).1 hl)).congr e.partition
  · exact h.lists.congr e.partition e.spillList (fun l _ => congrArg Interrupt.spilled (e.interrupt l))
  · rw [e.vcpu]
    exact (h.seated.congr e.partition (fun l _ _ _ => e.interrupt l) (e.occupant c.vcpu)).congr_interface hcount hread

/-- A write to the record of an interrupt that is in no list register. -/
theorem Sound.set (h : c.Sound) (lawful : s.Lawful c.vm l) (off : (c.interrupt l).resident = false)
    (off' : s.resident = false) (hsp : s.spilled = (c.interrupt l).spilled) : (c.setInterrupt l s).Sound := by
  have hp : (c.setInterrupt l s).vm.partition = c.vm.partition := Vm.partition_setInterrupt ..
  refine ⟨h.station.same (same_setInterrupt c l s), fun k hk => ?_, ?_, ?_⟩
  · rw [interrupt_setInterrupt]
    split
    next e => subst e; exact lawful.congr hp
    next => exact (h.records k ((Vm.has_congr hp k).1 hk)).congr hp
  · refine h.lists.congr hp (fun home => Vm.spillList_setInterrupt ..) (fun k _ => ?_)
    rw [vm_setInterrupt, Vm.interrupt_setInterrupt]
    split
    next e => subst e; exact hsp
    next => rfl
  · refine h.seated.aside hp (fun k hk => ?_) off ?_ (fun n => Vm.occupant?_setInterrupt ..)
    · rw [vm_setInterrupt, Vm.interrupt_setInterrupt, if_neg (Ne.symm hk)]
    · rw [vm_setInterrupt, Vm.interrupt_setInterrupt, if_pos rfl]
      exact off'

theorem alike_setInterrupt_self (c : Core) (l : Line) : Alike c (c.setInterrupt l (c.interrupt l)) := by
  refine ⟨same_setInterrupt c l _, fun k => ?_, fun home => Vm.spillList_setInterrupt ..,
    fun v n => Vm.occupant?_setInterrupt .., rfl⟩
  rw [interrupt_setInterrupt]
  split
  next e => rw [e]
  next => rfl

theorem Sound.claim (h : c.Sound) (hl : c.vm.Has l) : (c.claim l).Sound := by
  have hr := h.records l hl
  simp only [Core.claim, update, Interrupt.claim]
  split
  next hm =>
    rcases (c.mayClaim_iff l).1 hm with ho | ho
    · have off := h.off_of_free hl ho
      refine h.set (.of_off off (fun v hv => ?_) (fun h2 home hh => ?_) hr.spilled_busy hr.passed) off off rfl
      · cases hv; exact h.station.vcpu_lt
      · have := hr.home_owner h2 home hh
        rw [ho] at this
        cases this
    · have e : ({ c.interrupt l with owner := some c.vcpu } : Interrupt) = c.interrupt l := by rw [← ho]
      rw [e]
      exact h.alike (alike_setInterrupt_self c l)
  next => exact h.alike (alike_setInterrupt_self c l)

theorem Sound.release (h : c.Sound) (hl : c.vm.Has l) : (c.release l).Sound := by
  have hr := h.records l hl
  simp only [Core.release, update, Interrupt.release]
  split
  next hm =>
    simp only [Interrupt.releasable, Bool.and_eq_true, Bool.not_eq_true', Bool.and_eq_false_imp, beq_iff_eq] at hm
    obtain ⟨⟨⟨-, off⟩, -⟩, h2⟩ := hm
    refine h.set (.of_off off (fun v hv => (by cases hv)) (fun hv home hh => ?_) hr.spilled_busy hr.passed) off off rfl
    have := h2 hv
    rw [Line.isBanked, hh] at this
    cases this
  next => exact h.alike (alike_setInterrupt_self c l)

theorem Sound.park (h : c.Sound) (hl : c.vm.Has l) (off : (c.interrupt l).resident = false)
    (busy : (c.interrupt l).state.isIdle = false) : ({ c with vm := c.vm.park l } : Core).Sound := by
  have hr := h.records l hl
  have hp : (c.vm.park l).partition = c.vm.partition := Vm.partition_park ..
  refine ⟨h.station.same ⟨rfl, rfl, rfl, hp⟩, fun k hk => ?_, h.lists.park hl, ?_⟩
  · show ((c.vm.park l).interrupt k).Lawful (c.vm.park l) k
    rw [Vm.interrupt_park]
    split
    next e =>
      subst e
      refine Interrupt.Lawful.congr ?_ hp
      exact .of_off off hr.owner_lt hr.home_owner (fun _ => busy) hr.passed
    next => exact (h.records k ((Vm.has_congr hp k).1 hk)).congr hp
  · refine h.seated.aside hp (fun k hk => ?_) off ?_ (fun n => Vm.occupant?_park ..)
    · rw [Vm.interrupt_park, if_neg (Ne.symm hk)]
    · rw [Vm.interrupt_park, if_pos rfl]
      exact off

theorem unspill_of_unspilled (h : (c.interrupt l).spilled = false) : c.unspill l = c := by
  have h : (c.vm.interrupt l).spilled = false := h
  unfold unspill
  have e : c.vm.unpark l = c.vm := by simp only [Vm.unpark, h, Bool.false_eq_true, if_false]
  rw [e]

theorem Sound.unspill (h : c.Sound) (hl : c.vm.Has l) : (c.unspill l).Sound := by
  have hr := h.records l hl
  cases hsp : (c.interrupt l).spilled with
  | false => rw [unspill_of_unspilled hsp]; exact h
  | true =>
    have off := h.off_of_spilled hl hsp
    have hp : (c.unspill l).vm.partition = c.vm.partition := Vm.partition_unpark ..
    refine ⟨h.station.same ⟨rfl, rfl, rfl, hp⟩, fun k hk => ?_, h.lists.unpark hl, ?_⟩
    · rw [interrupt_unspill]
      split
      next e =>
        subst e
        refine Interrupt.Lawful.congr ?_ hp
        exact .of_off off hr.owner_lt hr.home_owner (fun hs => (by cases hs)) hr.passed
      next => exact (h.records k ((Vm.has_congr hp k).1 hk)).congr hp
    · refine h.seated.aside hp (fun k hk => ?_) off ?_ (fun n => Vm.occupant?_unpark ..)
      · show (c.vm.unpark l).interrupt k = c.vm.interrupt k
        rw [Vm.interrupt_unpark, if_neg (Ne.symm hk)]
      · show ((c.vm.unpark l).interrupt l).resident = false
        rw [Vm.interrupt_unpark, if_pos rfl]
        exact off

end
end VirtualGic.Core
