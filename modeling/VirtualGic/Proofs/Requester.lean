import VirtualGic.Proofs.Standing
import VirtualGic.Proofs.Write
/-!
# Who requested

The requesters that the records and the list registers of software interrupts name are vCPUs of the VM
(`Machine.Arises.sourced`): a register field takes the bits of existing vCPUs only, a list register names one of the
record's requesters, and it gives the record back no other.  An interrupt that keeps no set of requesters never has one
(`Machine.Arises.requesters_eq_zero`): sets of requesters are written under version 2 only, and there for software
interrupts only.
-/
namespace VirtualGic

/-- The requesters that a record names are vCPUs of the VM. -/
structure Interrupt.Sourced (s : Interrupt) (vm : Vm) : Prop where
  requesters : ∀ v, s.requesters.getLsbD v = true → v < vm.vcpuCount
  active : s.activeRequester.toNat < vm.vcpuCount

/-! ## Records and list registers -/

section Record
variable {vm vm' : Vm} {l : Line} {s t : Interrupt} {r : ListRegister}

theorem Interrupt.Sourced.congr (h : s.Sourced vm) (hp : vm'.partition = vm.partition) : s.Sourced vm' := by
  obtain ⟨requesters, active⟩ := h
  rw [← Vm.vcpuCount_congr hp] at requesters active
  exact ⟨requesters, active⟩

theorem Interrupt.Sourced.same (h : s.Sourced vm) (requests : s.SameRequests t) : t.Sourced vm :=
  ⟨by rw [requests.requesters]; exact h.requesters, by rw [requests.active]; exact h.active⟩

theorem RegisterGroup.lt_of_vcpusIn (checked : vm.partition.Checked) {v : BitVec 64} {n : Nat}
    (h : (vcpusIn vm v).getLsbD n = true) : n < vm.vcpuCount := by
  rw [vcpusIn, BitVec.getLsbD_setWidth, BitVec.getLsbD_and, Vm.getLsbD_vcpuSet checked] at h
  simp only [Bool.and_eq_true, decide_eq_true_eq] at h
  exact h.2.2

theorem RegisterGroup.sourced_apply (g : RegisterGroup) (checked : vm.partition.Checked) (v : BitVec 64)
    (h : s.Sourced vm) : (g.apply vm l v s).Sourced vm := by
  cases g <;> simp only [apply] <;> (try split)
  case setRequesters.isTrue =>
    refine ⟨fun n hn => ?_, h.active⟩
    rw [BitVec.getLsbD_or, Bool.or_eq_true] at hn
    exact hn.elim (h.requesters n) (lt_of_vcpusIn checked)
  case clearRequesters.isTrue =>
    refine ⟨fun n hn => ?_, h.active⟩
    rw [BitVec.getLsbD_and, Bool.and_eq_true] at hn
    exact h.requesters n hn.1
  all_goals exact ⟨h.requesters, h.active⟩

theorem ListRegister.sourced_restoreRequest (hr : r.requester.toNat < vm.vcpuCount) (h : s.Sourced vm) :
    (r.restoreRequest s).Sourced vm := by
  refine ⟨fun n hn => ?_, ?_⟩
  · simp only [restoreRequest] at hn
    split at hn
    next =>
      rw [BitVec.getLsbD_or, BitVec.getLsbD_twoPow, Bool.or_eq_true, Bool.and_eq_true, decide_eq_true_eq,
        decide_eq_true_eq] at hn
      rcases hn with hn | ⟨-, rfl⟩
      · exact h.requesters n hn
      · exact hr
    next => exact h.requesters n hn
  · simp only [restoreRequest]
    split
    next =>
      rw [BitVec.toNat_setWidth]
      exact Nat.lt_of_le_of_lt (Nat.mod_le ..) hr
    next => exact h.active

/-- The list register that presents an interrupt names a requester of the record, which keeps the others. -/
theorem sourced_presentation (checked : vm.partition.Checked) (fits : l.id < 0x400) (h : s.Sourced vm) :
    (Core.presentation vm l s).1.requester.toNat < vm.vcpuCount ∧ (Core.presentation vm l s).2.Sourced vm := by
  have narrow : ∀ n, n < vm.vcpuCount → (BitVec.ofNat 3 n).toNat < vm.vcpuCount := fun n hn =>
    Nat.lt_of_le_of_lt (Nat.le_trans (Nat.le_of_eq (BitVec.toNat_ofNat ..)) (Nat.mod_le ..)) hn
  have first : 0 < vm.vcpuCount := List.length_pos_iff.2 checked.cpus_ne
  unfold Core.presentation
  split
  next =>
    unfold ListRegister.presentRequest
    by_cases ha : s.state.active = true
    · simp only [ha, if_true]
      rw [ListRegister.withNumber_eq _ fits rfl]
      exact ⟨narrow _ h.active, h⟩
    · rw [Bool.not_eq_true] at ha
      cases hn : ListRegister.lowestRequester? s.requesters with
      | none =>
        simp only [ha, Bool.false_eq_true, if_false]
        rw [ListRegister.withNumber_eq _ fits rfl]
        exact ⟨narrow _ first, h⟩
      | some n =>
        simp only [ha, Bool.false_eq_true, if_false]
        rw [ListRegister.withNumber_eq _ fits rfl]
        refine ⟨narrow n (h.requesters n (ListRegister.lowestRequester?_spec hn).2), fun k hk => ?_, h.active⟩
        rw [ListRegister.getLsbD_withoutRequester, Bool.and_eq_true] at hk
        exact h.requesters k hk.1
  next =>
    rw [ListRegister.present_eq l s fits]
    exact ⟨first, h⟩

theorem Deed.requesters_edit_of_plain {d : Deed} (plain : vm.countsRequesters d.line = false) (proper : d.Proper vm) :
    (d.edit vm s).requesters = s.requesters := by
  cases d with
  | write g l v =>
    have hard : g = .setRequesters ∨ g = .clearRequesters → l.isSoftware = false := fun hg => by
      have plain : Interrupt.countsRequesters vm.version l = false := plain
      unfold Interrupt.countsRequesters at plain
      rw [proper hg, beq_self_eq_true, Bool.true_and] at plain
      exact plain
    show (g.apply vm l v s).requesters = s.requesters
    unfold RegisterGroup.apply
    cases g with
    | setRequesters => simp only [hard (.inl rfl), Bool.false_eq_true, if_false]
    | clearRequesters => simp only [hard (.inr rfl), Bool.false_eq_true, if_false]
    | setEnable | clearEnable | setPending | clearPending | setActive | clearActive | targets | route | config =>
      simp only
      split <;> rfl
    | _ => rfl
  | _ => rfl

end Record

/-! ## Cores -/

namespace Core

variable {c c' : Core} {l m : Line} {d : Option Deed} {ds : List Deed}

/-- All requesters that a core deals with are vCPUs of its VM. -/
structure Sourced (c : Core) : Prop where
  record : ∀ l, c.vm.Has l → (c.interrupt l).Sourced c.vm
  register : ∀ n, (c.interface.read n).requester.toNat < c.vm.vcpuCount

theorem Sourced.keep (h : c.Sourced) (same : Same c c') (requests : SameRequests c c') : c'.Sourced := by
  refine ⟨fun l hl => ?_, fun n => ?_⟩
  · exact ((h.record l ((Vm.has_congr same.partition l).1 hl)).same (requests.record l)).congr same.partition
  · rw [Vm.vcpuCount_congr same.partition]
    rcases requests.register n with e | e <;> rw [e]
    · exact h.register n
    · exact Nat.zero_lt_of_lt (h.register n)

theorem Sourced.alike (h : c.Sourced) (e : Alike c c') : c'.Sourced := by
  refine h.keep e.toSame ⟨fun l => by rw [e.interrupt]; exact .refl _, fun n => .inl ?_⟩
  unfold CpuInterface.read
  rw [e.registers]

/-- A write to one record. -/
theorem Sourced.set {s : Interrupt} (h : c.Sourced) (hs : c.vm.Has l → s.Sourced c.vm) : (c.setInterrupt l s).Sourced := by
  have hp : (c.setInterrupt l s).vm.partition = c.vm.partition := Vm.partition_setInterrupt ..
  refine ⟨fun k hk => ?_, fun n => ?_⟩
  · rw [interrupt_setInterrupt]
    split
    next e => exact (hs (e ▸ (Vm.has_congr hp k).1 hk)).congr hp
    next => exact (h.record k ((Vm.has_congr hp k).1 hk)).congr hp
  · rw [Vm.vcpuCount_congr hp]
    exact h.register n

/-- A write to one list register. -/
theorem Sourced.place {r : ListRegister} {n : Nat} (h : c.Sourced) (hr : r.requester.toNat < c.vm.vcpuCount) :
    (c.writeSlot n r).Sourced := by
  refine ⟨h.record, fun k => ?_⟩
  show ((c.interface.write n r).read k).requester.toNat < c.vm.vcpuCount
  rw [CpuInterface.read_write]
  split
  next => exact hr
  next => exact h.register k

theorem sourced_takenBack (h : c.Sourced) (hl : c.vm.Has l) (n : Nat) :
    (c.takenBack l (c.interface.read n)).Sourced c.vm := by
  have taken : ({ c.interrupt l with resident := false, state := (c.interface.read n).state } : Interrupt).Sourced c.vm :=
    ⟨(h.record l hl).requesters, (h.record l hl).active⟩
  unfold takenBack
  simp only
  split
  next => exact ListRegister.sourced_restoreRequest (h.register n) taken
  next => exact taken

/-- **No stroke brings in a requester from elsewhere.** -/
theorem Stroke.sourced (h : Stroke c c') (hs : c.Stationed) (src : c.Sourced) : c'.Sourced := by
  cases h with
  | write h requests => exact src.keep h.same requests
  | field g l v has =>
    have edited := src.set (l := l) fun _ => g.sourced_apply (l := l) hs.checked v (src.record l has)
    unfold assign
    simp only
    split
    next => exact edited.alike (alike_gic _ _)
    next => exact edited
  | takeBack l n => exact src.set fun has => sourced_takenBack src has n
  | present l n has =>
    obtain ⟨register, record⟩ := sourced_presentation hs.checked (Vm.id_lt_of_has hs.checked has) (src.record l has)
    exact (src.place register).set fun _ => ⟨record.requesters, record.active⟩

theorem Strokes.sourced (h : Strokes c c') (hs : c.Stationed) (src : c.Sourced) : c'.Sourced := by
  induction h with
  | refl => exact src
  | tail hw w ih => exact w.sourced (Strokes.stationed hw hs) ih

theorem sourced_storeControl (hs : c.Stationed) (src : c.Sourced) (v : BitVec 64) :
    (Distributor.storeControl c v).Sourced := by
  have switched : Alike c (c.setEnables (v.setWidth 2)) :=
    ⟨⟨rfl, rfl, rfl, rfl⟩, fun l => by cases l <;> rfl, fun home => by cases home <;> rfl, fun _ _ => rfl, rfl⟩
  have synced : Alike (c.setEnables (v.setWidth 2)) (c.setEnables (v.setWidth 2)).syncEnabled := alike_setEnabled ..
  rw [storeControl_eq]
  split
  next => exact src.alike switched
  next =>
    have hs' := (hs.same switched.toSame).same synced.toSame
    exact (strokes_broadcast hs').sourced hs' ((src.alike switched).alike synced)

theorem Move.sourced (h : Move c ds c') (hs : c.Stationed) (src : c.Sourced) : c'.Sourced := by
  cases h with
  | act a ha =>
    rcases act_strokes hs ha with strokes | ⟨v, e⟩
    · exact strokes.sourced hs src
    · rw [e]
      exact sourced_storeControl hs src v
  | handle msg bus ht =>
    have taken := src.alike (alike_take ht)
    have hs' := hs.same (alike_take ht).toSame
    rcases handle_strokes hs' msg with ⟨-, e⟩ | ⟨-, strokes⟩
    · rw [e]
      exact taken.alike (alike_setEnabled ..)
    · exact strokes.sourced hs' taken

/-! ## Interrupts without requesters -/

theorem Final.requesters {s : Interrupt} (h : Final c c' l s) (plain : c.vm.countsRequesters l = false) :
    (c'.interrupt l).requesters = s.requesters := by
  cases h with
  | seated n q r target record held state presents busy =>
    rw [record]
    exact requesters_of_plain plain presents
  | quiet why record | parked busy target record | offered busy target record =>
    rw [record, (Interrupt.agrees_release ..).requesters trivial]

theorem requesters_takenBack_of_plain (plain : c.vm.countsRequesters l = false) (r : ListRegister) :
    (c.takenBack l r).requesters = (c.interrupt l).requesters := by
  simp only [takenBack, plain, Bool.false_eq_true, if_false]

theorem requesters_recalled_of_plain (plain : c.vm.countsRequesters l = false) :
    (c.recalled l).requesters = (c.interrupt l).requesters := by
  unfold recalled
  split
  next => exact requesters_takenBack_of_plain plain _
  next => rfl

theorem Fate.requesters (h : Fate c c' m) (plain : c.vm.countsRequesters m = false) :
    (c'.interrupt m).requesters = (c.interrupt m).requesters := by
  cases h with
  | kept record held => rw [record]
  | evicted r held busy record =>
    rw [record, (Interrupt.agrees_release ..).requesters trivial]
    exact requesters_takenBack_of_plain plain r
  | settled r held empty record =>
    rw [record, (Interrupt.agrees_release ..).requesters trivial]

/-- **Whatever a core does**, an interrupt that keeps no set of requesters has those that it had. -/
theorem Does.requesters (h : Does c c' d) (hm : c.vm.Has m) (plain : c.vm.countsRequesters m = false)
    (proper : ∀ a ∈ d, a.Proper c.vm) : (c'.interrupt m).requesters = (c.interrupt m).requesters := by
  cases h with
  | handled l s deed h made =>
    by_cases hml : m = l
    · subst hml
      obtain ⟨t, ht, hts⟩ := made
      rw [h.final.requesters plain, hts.requesters trivial, ← requesters_recalled_of_plain plain, ← ht.requesters trivial]
      cases d with
      | none => rfl
      | some a => exact Deed.requesters_edit_of_plain (by rw [(deed a rfl).line]; exact plain) (proper a rfl)
    · exact (h.frame.fate m hm hml).requesters plain
  | returned l has may eq =>
    rw [eq]
    exact ((agrees_returned may m).requesters trivial)
  | forwarded g l v h => rw [h.posted.alike.interrupt]
  | posted r other h => rw [h.alike.interrupt]
  | restated a n has credited guest eq => rw [eq]; rfl
  | aside h => rw [h.interrupt]
  | dropped pendingOnly drained eq => rw [eq]; rfl

theorem Runs.requesters (h : Runs c ds c') (hm : c.vm.Has m) (plain : c.vm.countsRequesters m = false)
    (proper : ∀ a ∈ ds, a.Proper c.vm) : (c'.interrupt m).requesters = (c.interrupt m).requesters := by
  induction h with
  | nil => rfl
  | @cons c c' c'' d ds hd _ ih =>
    have hp := hd.same.partition
    rw [← hd.requesters hm plain fun a ha => proper a (List.mem_append_left _ (Option.mem_toList.2 ha))]
    exact ih ((Vm.has_congr hp m).2 hm) ((Vm.countsRequesters_congr hp m).trans plain)
      fun a ha => Deed.Proper.congr hp (proper a (List.mem_append_right _ ha))

theorem Move.requesters (h : Move c ds c') (hs : c.Sound) (messages : ∀ msg ∈ c.waiting c.cpu, msg.Proper c.vm)
    (hm : c.vm.Has m) (plain : c.vm.countsRequesters m = false) :
    (c'.interrupt m).requesters = (c.interrupt m).requesters := by
  have proper := h.proper messages
  cases h with
  | act a ha => exact (act_runs hs ha).requesters hm plain proper
  | handle msg bus ht => exact (runs_take hs ht).requesters hm plain proper

end Core

/-! ## Machines -/

namespace Machine

variable {m : Machine} {cpu i : Nat} {c c' : Core} {vm : Vm} {l : Line} {ds : List Deed}

/-- The cores of a machine after one of them was put back. -/
theorem core?_putCore_cases (hc : m.core? cpu = some (i, c)) (hcpu : c'.cpu = c.cpu) (hv : c'.vcpu = c.vcpu)
    {k j : Nat} {d : Core} (hd : (m.putCore i c').core? k = some (j, d)) :
    k = cpu ∧ d = c' ∨ k ≠ cpu ∧ ∃ d₀, m.core? k = some (j, d₀) ∧ d.vcpu = d₀.vcpu ∧ d.interface = d₀.interface ∧
      (d.vm = d₀.vm ∨ d.vm = c'.vm ∧ d₀.vm = c.vm) := by
  by_cases hk : k = cpu
  · subst hk
    rw [core?_putCore hc hcpu hv] at hd
    cases hd
    exact .inl ⟨rfl, rfl⟩
  · refine .inr ⟨hk, ?_⟩
    obtain ⟨v, vm, ha, hvm, rfl⟩ := (core?_eq_some_iff ..).1 hd
    have hint : (m.putCore i c').interfaces.get k = m.interfaces.get k := by
      rw [interfaces_putCore, if_neg]
      rw [hcpu, cpu_of_core? hc]
      exact Ne.symm hk
    rcases vm_of_putCore hc hvm with ⟨rfl, rfl⟩ | ⟨-, hvm⟩
    · exact ⟨_, (core?_eq_some_iff ..).2 ⟨v, c.vm, ha, vm_of_core? hc, rfl⟩, rfl, hint, .inr ⟨rfl, rfl⟩⟩
    · exact ⟨_, (core?_eq_some_iff ..).2 ⟨v, vm, ha, hvm, rfl⟩, rfl, hint, .inl rfl⟩

/-- **All requesters are vCPUs of the VM**, in records and in list registers. -/
theorem Arises.sourced (h : m.Arises) (hc : m.core? cpu = some (i, c)) : c.Sourced := by
  refine h.induct (P := fun m => ∀ cpu i c, m.core? cpu = some (i, c) → c.Sourced)
    (fun m _ _ _ _ hb cpu i c hc => ?_) (fun m cpu i c ds c' hm ih hc hmv k j d hd => ?_) cpu i c hc
  · have checked := ((booted_of_boot hb).sound.core hc).station.checked
    have first : 0 < c.vm.vcpuCount := List.length_pos_iff.2 checked.cpus_ne
    obtain ⟨p, cpus, g, g', created⟩ := created_of_boot hb (vm_of_core? hc)
    refine ⟨fun l hl => ⟨fun v hv => ?_, ?_⟩, fun n => ?_⟩
    · rw [show (c.interrupt l).requesters = 0 from (Vm.create_spec created).2.2.2.requesters l hl] at hv
      simp at hv
    · have e : (c.vm.interrupt l).activeRequester = 0 := by
        cases l with
        | shared id =>
          obtain ⟨hw, d, e⟩ := Vm.interrupt_create_shared created id
          rw [e]
          rfl
        | banked v id => rw [Vm.interrupt_create_banked created hl]; rfl
      exact Nat.lt_of_le_of_lt (Nat.le_of_eq (congrArg BitVec.toNat e)) first
    · rw [interface_of_core? hc, empty_of_boot hb]
      exact first
  · have hs := hm.sound.core hc
    have src := hmv.sourced hs.station (ih cpu i c hc)
    have hloc := hmv.local_ hs
    rcases core?_putCore_cases hc hloc.cpu hloc.vcpu hd with ⟨-, rfl⟩ | ⟨-, d₀, hd₀, -, interface, e | ⟨e, e₀⟩⟩
    · exact src
    · obtain ⟨record, register⟩ := ih k j d₀ hd₀
      exact ⟨by unfold Core.interrupt; rw [e]; exact record, by rw [e, interface]; exact register⟩
    · refine ⟨by unfold Core.interrupt; rw [e]; exact src.record, fun n => ?_⟩
      rw [e, interface, Vm.vcpuCount_congr hloc.partition, ← e₀]
      exact (ih k j d₀ hd₀).register n

/-- **An interrupt that keeps no set of requesters has none.** -/
theorem Arises.requesters_eq_zero (h : m.Arises) (hvm : m.vms[i]? = some vm) (hl : vm.Has l)
    (plain : vm.countsRequesters l = false) : (vm.interrupt l).requesters = 0 := by
  refine h.vm_induct (P := fun vm => vm.Has l → vm.countsRequesters l = false → (vm.interrupt l).requesters = 0) hvm
    (fun p cpus g g' vm created hl _ => (Vm.create_spec created).2.2.2.requesters l hl)
    (fun m cpu i c ds c' hm hc hmv ih hl plain => ?_) hl plain
  have hs := hm.sound.core hc
  have hp := (hmv.local_ hs).partition
  have hl := (Vm.has_congr hp l).1 hl
  have plain := (Vm.countsRequesters_congr hp l).symm.trans plain
  exact (hmv.requesters hs (hm.proper.core hm.sound hc) hl plain).trans (ih hl plain)

end Machine
end VirtualGic
