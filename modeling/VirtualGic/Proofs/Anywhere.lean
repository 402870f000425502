import VirtualGic.Proofs.Outcome
import VirtualGic.Proofs.Requests
/-!
# Writes from anywhere

An access to the registers of single interrupts asks for field writes (`Core.access_of_reaches`), the same ones on every
core of the VM (`Core.accessWrites_elsewhere`) unless it is the accessing vCPU whose banked interrupts they are about.  So
it makes no difference on which core it is made (`Machine.Reachable.writes_anywhere`).
-/
namespace VirtualGic

/-! ## The interrupts that an access reaches -/

/-- The interrupts whose registers lie at a place, and no interrupts where all writes are ignored. -/
def Distributor.Place.lines? : Distributor.Place → Option (List Line)
  | .zero => some []
  | .route id _ => some [.shared id]
  | .fields _ _ ls => some ls
  | _ => none

/-- The interrupts whose registers lie at a place, and no interrupts where all writes are ignored. -/
def Redistributor.Place.lines? : Redistributor.Place → Option (List Line)
  | .zero => some []
  | .fields _ _ ls => some ls
  | _ => none

namespace Core

def windowLines? (c : Core) (w : Window) (addr : BitVec 64) (width : Nat) : Option (List Line) :=
  match w with
  | .distributor _ => (Distributor.place? c addr width).bind (·.lines?)
  | .redistributors _ _ => (Redistributor.place? c addr width).bind (·.lines?)

/-- The interrupts whose registers an access reaches. -/
def reaches? (c : Core) (a : Access) : Option (List Line) :=
  (c.vm.addressMap.find? (·.contains a.addr)).bind fun w => c.windowLines? w a.addr a.width

/-- Carry out field writes in order. -/
def writeAll (c : Core) (ws : List FieldWrite) : Core := ws.foldl (fun c w => c.writeField w.group w.line w.value) c

end Core

/-! ## The field writes of an access -/

theorem unique_fieldWrites {g : RegisterGroup} {bits : Nat} {ls : List Line} (nodup : ls.Nodup) (v : BitVec 64) :
    ∀ w ∈ fieldWrites g bits ls v, ∀ u ∈ fieldWrites g bits ls v, w.line = u.line → w = u := by
  induction ls generalizing v with
  | nil => intro w hw; cases hw
  | cons l ls ih =>
    obtain ⟨hl, hnd⟩ := List.nodup_cons.1 nodup
    have head : ∀ w ∈ fieldWrites g bits (l :: ls) v, w = ⟨g, l, lowBits bits v⟩ ∨
        w ∈ fieldWrites g bits ls (v >>> bits) ∧ w.line ≠ l := fun w hw => by
      unfold fieldWrites at hw
      rcases List.mem_append.1 hw with hw | hw
      · split at hw
        next => cases hw
        next => exact .inl (List.mem_singleton.1 hw)
      · exact .inr ⟨hw, fun e => hl (e ▸ Core.mem_of_fieldWrites hw)⟩
    intro w hw u hu e
    rcases head w hw with rfl | ⟨hw, hne⟩ <;> rcases head u hu with rfl | ⟨hu, hne'⟩
    · rfl
    · exact absurd e.symm hne'
    · exact absurd e hne
    · exact ih hnd _ w hw u hu e

/-- A field of at most 32 bits is carried whole. -/
theorem FieldWrite.carried_lowBits (vm : Vm) (g : RegisterGroup) {bits : Nat} (hb : bits ≤ 32) (l : Line) (v : BitVec 64) :
    Carried vm ⟨g, l, lowBits bits v⟩ := fun s => by
  rw [edit, Core.narrow_lowBits hb]

theorem carried_fieldWrites {vm : Vm} {g : RegisterGroup} {bits : Nat} (hb : bits ≤ 32) (ls : List Line) (v : BitVec 64) :
    ∀ w ∈ fieldWrites g bits ls v, w.Carried vm := by
  intro w hw
  obtain ⟨l, -, u, rfl⟩ := Core.mem_fieldWrites hw
  exact FieldWrite.carried_lowBits vm g hb l u

theorem sendable_nil (vm : Vm) : Machine.Sendable vm [] :=
  ⟨fun _ hw => absurd hw List.not_mem_nil, fun _ hw => absurd hw List.not_mem_nil, fun _ hw => absurd hw List.not_mem_nil⟩

theorem sendable_fieldWrites {vm : Vm} {g : RegisterGroup} {bits : Nat} {ls : List Line} (h : ReachesFields vm g bits ls)
    (v : BitVec 64) : Machine.Sendable vm (fieldWrites g bits ls v) where
  has := fun _ hw => h.has _ (Core.mem_of_fieldWrites hw)
  unique := unique_fieldWrites h.nodup v
  carried := carried_fieldWrites (Core.bits_le_of_reaches h) ls v

theorem sendable_route {vm : Vm} {l : Line} (has : vm.Has l) (v : BitVec 64) : Machine.Sendable vm [⟨.route, l, v⟩] where
  has := fun _ hw => by rw [List.mem_singleton.1 hw]; exact has
  unique := fun _ hw _ hu _ => (List.mem_singleton.1 hw).trans (List.mem_singleton.1 hu).symm
  carried := fun _ hw => by rw [List.mem_singleton.1 hw]; exact FieldWrite.carried_route vm l v

namespace Core

variable {c d : Core} {w : Window} {addr v : BitVec 64} {width offset : Nat} {ls : List Line} {a : Access} {f : RegisterFile}
  {b : RegisterBlock}

theorem writeFields_eq (g : RegisterGroup) (bits : Nat) (ls : List Line) (v : BitVec 64) (c : Core) :
    writeFields g bits ls v c = c.writeAll (fieldWrites g bits ls v) := by
  induction ls generalizing v c with
  | nil => rfl
  | cons l ls ih =>
    unfold writeFields fieldWrites
    simp only
    split
    next => exact ih ..
    next => exact ih ..

theorem storeWindow?_of_lines (h : c.windowLines? w addr width = some ls) (v : BitVec 64) :
    c.storeWindow? w addr width v = some (c.writeAll (c.windowWrites w addr width v)) ∧
      Machine.Sendable c.vm (c.windowWrites w addr width v) := by
  unfold windowLines? at h
  unfold storeWindow? windowWrites
  cases w with
  | distributor base =>
    obtain ⟨p, hp, hl⟩ := Option.bind_eq_some_iff.1 h
    have reach := Distributor.reaches_place? hp
    simp only [hp, Option.map_some]
    cases p with
    | control | type | implementer | identification | softwareInterrupt => cases hl
    | zero => exact ⟨rfl, sendable_nil _⟩
    | route id part => exact ⟨rfl, sendable_route reach _⟩
    | fields g bits ls => exact ⟨congrArg some (writeFields_eq ..), sendable_fieldWrites reach v⟩
  | redistributors base count =>
    obtain ⟨p, hp, hl⟩ := Option.bind_eq_some_iff.1 h
    have reach := Redistributor.reaches_place? hp
    simp only [hp, Option.map_some]
    cases p with
    | implementer | type | wake | identification => cases hl
    | zero => exact ⟨rfl, sendable_nil _⟩
    | fields g bits ls => exact ⟨congrArg some (writeFields_eq ..), sendable_fieldWrites reach v⟩

/-- **A store to the registers of single interrupts carries out field writes.** -/
theorem access_of_reaches (write : a.write = true) (h : c.reaches? a = some ls) (f : RegisterFile) :
    c.access a f = (true, f, c.writeAll (c.accessWrites a f)) ∧ Machine.Sendable c.vm (c.accessWrites a f) := by
  obtain ⟨w, hw, hl⟩ := Option.bind_eq_some_iff.1 h
  obtain ⟨stored, sendable⟩ := storeWindow?_of_lines hl (a.stored f)
  rw [access_of_write write, store?, accessWrites, if_pos write, hw, Option.bind_some, stored]
  exact ⟨rfl, sendable⟩

end Core

/-! ## The same access elsewhere -/

namespace Vm

variable {vm : Vm} {v v' offset width : Nat} {b : RegisterBlock} {frame? : Option Nat}

theorem find?_elsewhere {id : Nat} (hv : v < vm.vcpuCount) (hv' : v' < vm.vcpuCount)
    (common : ∀ l, vm.find? v id = some l → l.home? = none) : vm.find? v' id = vm.find? v id := by
  unfold find? at common ⊢
  split
  next => rfl
  next hid =>
    split
    next hp =>
      rw [if_neg hid, if_pos hp, if_pos hv] at common
      cases common _ rfl
    next => rfl

theorem linesFrom_elsewhere (hv : v < vm.vcpuCount) (hv' : v' < vm.vcpuCount) (count id : Nat)
    (common : ∀ l ∈ vm.linesFrom v id count, l.home? = none) : vm.linesFrom v' id count = vm.linesFrom v id count := by
  induction count generalizing id with
  | zero => rfl
  | succ count ih =>
    unfold linesFrom at common ⊢
    rw [find?_elsewhere hv hv' fun l hl => common l (by rw [hl]; exact List.mem_cons_self)]
    cases hf : vm.find? v id with
    | none => rfl
    | some l =>
      rw [hf] at common
      exact congrArg (l :: ·) (ih _ fun k hk => common k (List.mem_cons_of_mem l hk))

/-- What lies behind the private interrupts is nobody's. -/
theorem home?_of_linesFrom {count id : Nat} (hid : isPrivateId id = false) :
    ∀ l ∈ vm.linesFrom v id count, l.home? = none := fun l hl => by
  have hle : privateInterrupts ≤ id := Nat.le_of_not_lt (of_decide_eq_false hid)
  cases hh : l.home? with
  | none => rfl
  | some home =>
    have := (has_of_linesFrom count id l hl).2.1.1 (by rw [Line.isBanked, hh]; rfl)
    exact absurd (Nat.le_trans hle (id_of_linesFrom count id l hl)) (Nat.not_le_of_lt this)

/-- **An access covers the same fields on every core**, unless they are banked. -/
theorem coveredLines?_elsewhere (hv : v < vm.vcpuCount) (hv' : v' < vm.vcpuCount)
    (common : vm.version = .v3 ∨ ∀ ls, vm.coveredLines? v b offset width frame? = some ls → ∀ l ∈ ls, l.home? = none) :
    vm.coveredLines? v' b offset width frame? = vm.coveredLines? v b offset width frame? := by
  cases frame? with
  | some frame => rfl
  | none =>
    unfold coveredLines? at common ⊢
    simp only at common ⊢
    split
    next => rfl
    next hv3 =>
      split
      next => rfl
      next hcount =>
        rw [if_neg hv3, if_neg hcount] at common
        refine congrArg some (linesFrom_elsewhere hv hv' _ _ ?_)
        rcases common with h3 | common
        · refine home?_of_linesFrom ?_
          rw [h3] at hv3
          simpa using hv3
        · exact common _ rfl

end Vm

namespace Distributor

variable {c d : Core} {b : RegisterBlock} {offset width : Nat} {addr : BitVec 64} {p : Place} {ls : List Line}

theorem fieldsPlace?_elsewhere (hvm : d.vm = c.vm) (hv : c.vcpu < c.vm.vcpuCount) (hv' : d.vcpu < c.vm.vcpuCount)
    (h : fieldsPlace? c b offset width none = some p) (hl : p.lines? = some ls)
    (common : c.vm.version = .v3 ∨ ∀ l ∈ ls, l.home? = none) : fieldsPlace? d b offset width none = some p := by
  rw [← h]
  unfold fieldsPlace? at h ⊢
  obtain ⟨ks, hks, rfl⟩ := Option.map_eq_some_iff.1 h
  cases hl
  rw [hvm]
  refine congrArg (Option.map _) (Vm.coveredLines?_elsewhere hv hv' (common.imp_right fun shared ks hk => ?_))
  rw [hks] at hk
  cases hk
  exact shared

theorem blockPlace?_elsewhere (hvm : d.vm = c.vm) (h : blockPlace? c b offset width = some p)
    (fields : fieldsPlace? c b offset width none = some p → fieldsPlace? d b offset width none = some p) :
    blockPlace? d b offset width = some p := by
  unfold blockPlace? at h ⊢
  rw [hvm]
  revert h
  split <;> intro h <;> first | exact h | exact fields h

theorem place?_elsewhere (hvm : d.vm = c.vm) (hv : c.vcpu < c.vm.vcpuCount) (hv' : d.vcpu < c.vm.vcpuCount)
    (h : place? c addr width = some p) (hl : p.lines? = some ls)
    (common : c.vm.version = .v3 ∨ ∀ l ∈ ls, l.home? = none) : place? d addr width = some p := by
  unfold place? at h ⊢
  rw [hvm]
  simp only at h ⊢
  split
  next hsize => rw [if_pos hsize] at h; exact h
  next hsize =>
    rw [if_neg hsize] at h
    split
    next hid => rw [if_pos hid] at h; exact h
    next hid =>
      rw [if_neg hid] at h
      cases hb : blockAt? ((addr - c.vm.partition.distributor).toNat) with
      | none => rw [hb] at h; exact h
      | some b =>
        rw [hb] at h
        simp only at h ⊢
        split
        next ha =>
          rw [if_pos ha] at h
          exact blockPlace?_elsewhere hvm h fun hf => fieldsPlace?_elsewhere hvm hv hv' hf hl common
        next ha => rw [if_neg ha] at h; exact h

end Distributor

namespace Redistributor

variable {c d : Core}

/-- The frame decides whose bank is meant. -/
theorem bankPlace?_elsewhere (hvm : d.vm = c.vm) (vcpu : Nat) (addr : BitVec 64) (offset width : Nat) :
    bankPlace? d vcpu addr offset width = bankPlace? c vcpu addr offset width := by
  unfold bankPlace?
  rw [hvm]
  cases blockAt? offset with
  | none => rfl
  | some b => rfl

theorem place?_elsewhere (hvm : d.vm = c.vm) (addr : BitVec 64) (width : Nat) :
    place? d addr width = place? c addr width := by
  unfold place?
  rw [hvm]
  simp only [bankPlace?_elsewhere hvm]

end Redistributor

namespace Core

variable {c d : Core} {w : Window} {addr v : BitVec 64} {width : Nat} {ls : List Line} {a : Access}

/-- **An access asks for the same field writes on every core**, unless they are about banked interrupts. -/
theorem accessWrites_elsewhere (hvm : d.vm = c.vm) (hv : c.vcpu < c.vm.vcpuCount) (hv' : d.vcpu < c.vm.vcpuCount)
    (h : c.reaches? a = some ls) (common : c.vm.version = .v3 ∨ ∀ l ∈ ls, l.home? = none) (f : RegisterFile) :
    d.reaches? a = some ls ∧ d.accessWrites a f = c.accessWrites a f := by
  obtain ⟨w, hw, hl⟩ := Option.bind_eq_some_iff.1 h
  unfold reaches? accessWrites
  rw [hvm, hw, Option.bind_some]
  cases w with
  | distributor base =>
    obtain ⟨p, hp, hpl⟩ := Option.bind_eq_some_iff.1 hl
    have hp' := Distributor.place?_elsewhere hvm hv hv' hp hpl common
    simp only [windowLines?, windowWrites, hp, hp', Option.bind_some]
    refine ⟨hpl, ?_⟩
    cases p with
    | control | type | implementer | identification | softwareInterrupt => cases hpl
    | route id part => simp only [interrupt, hvm]
    | zero | fields => rfl
  | redistributors base count =>
    simp only [windowLines?, windowWrites, Redistributor.place?_elsewhere hvm] at hl ⊢
    exact ⟨hl, trivial⟩

end Core

namespace Machine

variable {m : Machine} {cpu k i : Nat} {c d : Core} {vm : Vm} {l : Line} {ws : List FieldWrite} {a : Access}
  {f : RegisterFile} {ls : List Line}

/-! ## Writing and polling -/

theorem errands_writeAll (hm : m.Arises) (quiet : m.Quiet) (hc : m.core? cpu = some (i, c)) (W : Sendable c.vm ws) :
    Errands m c.vm ws [] (m.putCore i (c.writeAll ws)) (c.writeAll ws).vm := by
  refine (Errands.foldl id ws (fun w hw m d todo h ht hd _ E => ?_) hm.sound hm.tallied hc rfl ?_).2
  · have has := (Vm.has_congr E.partition _).2 (W.has w hw)
    refine ⟨E.write W h ht hd hw (.inl rfl) fun u hu => (List.mem_cons.1 hu).symm, _,
      Core.does_writeField (h.core hd) has w.group w.value, fun a ha => ?_⟩
    cases ha
    exact Core.tallies_deedOf w
  · rw [List.map_id]
    exact errands_start quiet c.vm ws

theorem errands_access (hm : m.Arises) (quiet : m.Quiet) (hc : m.core? cpu = some (i, c)) (write : a.write = true)
    (reaches : c.reaches? a = some ls) (f : RegisterFile) (es : List Nat) :
    ∃ vm, (m.outcome cpu (.access a f) es).vms[i]? = some vm ∧
      Errands m c.vm (c.accessWrites a f) [] (m.outcome cpu (.access a f) es) vm := by
  obtain ⟨stored, W⟩ := Core.access_of_reaches write reaches f
  have acts : c.act (.access a f) = c.writeAll (c.accessWrites a f) := by rw [Core.act, stored]
  refine Errands.outcome hm W hc ?_ es
  rw [acts]
  exact errands_writeAll hm quiet hc W

/-- **It makes no difference where a register is written**: a store to the registers of single interrupts, other than the
banked ones of the accessing vCPU, on any core of the VM and with any order of polls until no message waits, leaves every
interrupt with the same settings and, apart from the hardware interrupts, in the same state (`SameTruth`). -/
theorem Reachable.writes_anywhere (hm : m.Reachable) (quiet : m.Quiet) (hc : m.core? cpu = some (i, c))
    (hd : m.core? k = some (i, d)) (write : a.write = true) (reaches : c.reaches? a = some ls)
    (common : c.vm.version = .v3 ∨ ∀ l ∈ ls, l.home? = none) (f : RegisterFile) (es es' : List Nat)
    (ends : (m.outcome cpu (.access a f) es).Quiet) (ends' : (m.outcome k (.access a f) es').Quiet) :
    ∃ vm vm', (m.outcome cpu (.access a f) es).vms[i]? = some vm ∧
      (m.outcome k (.access a f) es').vms[i]? = some vm' ∧ ∀ l, c.vm.Has l →
        (vm.interrupt l).SameSettings (vm'.interrupt l) ∧
        ((c.vm.interrupt l).hardware = false → SameTruth (m.outcome cpu (.access a f) es) vm
          (m.outcome k (.access a f) es') vm' l) := by
  have arises := hm.arises
  have hvm : d.vm = c.vm := Option.some.inj ((vm_of_core? hd).symm.trans (vm_of_core? hc))
  have hv := (arises.sound.core hd).station.vcpu_lt
  rw [hvm] at hv
  obtain ⟨reaches', writes⟩ :=
    Core.accessWrites_elsewhere hvm (arises.sound.core hc).station.vcpu_lt hv reaches common f
  obtain ⟨vm, hrun, E⟩ := errands_access arises quiet hc write reaches f es
  obtain ⟨vm', hrun', E'⟩ := errands_access arises quiet hd write reaches' f es'
  rw [hvm, writes] at E'
  refine ⟨vm, vm', hrun, hrun', fun l hl => ?_⟩
  obtain ⟨stands, lapsed⟩ := E.agree E' ends ends' hl
  have hp : vm'.partition = vm.partition := E'.partition.trans E.partition.symm
  refine ⟨((sameSettings_standing _ vm l).trans stands.toSameSettings).trans (sameSettings_standing _ vm' l).symm,
    fun soft => ?_⟩
  have ran := (hm.outcome cpu (.access a f) es).arises
  have ran' := (hm.outcome k (.access a f) es').arises
  refine sameTruth_of_standing ran.sound ran.tallied hrun ran'.sound ran'.tallied hrun' hp
    ((Vm.has_congr E.partition l).2 hl) (stands.imp fun _ => soft) fun counts => lapsed ?_
  rwa [Vm.countsRequesters_congr E.partition] at counts

/-- A software interrupt is active on the first vCPU and asked for once more; a shared interrupt targets both vCPUs. -/
def interrupted : Machine :=
  attending.run [⟨0, store (distributorBase + 0x104) 4 1⟩, ⟨0, store (distributorBase + 0x820) 1 3⟩]

theorem reachable_interrupted : interrupted.Reachable := reachable_attending.run _

/-- The core of a CPU of the interrupted machine. -/
def interruptedCore (k : Nat) : Core :=
  ⟨k, k, interrupted.firstVm, interrupted.interfaces.get k, interrupted.bus, interrupted.gic⟩

theorem core?_interrupted {k : Nat} (hk : interrupted.firstVm.pcpuOf? k = some k) :
    interrupted.core? k = some (0, interruptedCore k) :=
  reachable_interrupted.arises.sound.core_of_pcpuOf? (vms_zero (by decide +kernel)) hk

theorem has_interrupted : (interruptedCore 0).vm.Has (.banked 0 1) :=
  Vm.has_of_find? (show (interruptedCore 0).vm.find? 0 1 = _ by decide +kernel)

/-- A store that makes the shared interrupt pending. -/
def raising : Access := ⟨distributorBase + 0x204, 4, true, 0, false, false⟩

/-- The interrupts of its word. -/
def raised : List Line := (List.range 32).map (.shared <| 32 + ·)

/-- The interrupted machine after the store on a CPU and polls. -/
def raisedOn (cpu : Nat) (es : List Nat) : Machine := interrupted.outcome cpu (.access raising (.constant 1)) es

theorem writes_anywhere_interrupted : ∃ vm vm', (raisedOn 0 [1]).vms[0]? = some vm ∧ (raisedOn 1 [0]).vms[0]? = some vm' ∧
    (vm.interrupt (.shared 32)).SameSettings (vm'.interrupt (.shared 32)) ∧
    SameTruth (raisedOn 0 [1]) vm (raisedOn 1 [0]) vm' (.banked 0 1) := by
  obtain ⟨vm, vm', h, h', same⟩ := reachable_interrupted.writes_anywhere (quiet_of_all (by decide +kernel))
    (core?_interrupted (k := 0) (by decide +kernel)) (core?_interrupted (k := 1) (by decide +kernel))
    (a := raising) (by decide) (show _ = some raised by decide +kernel) (.inr (by decide)) (.constant 1) [1] [0]
    (quiet_of_all (by decide +kernel)) (quiet_of_all (by decide +kernel))
  exact ⟨vm, vm', h, h',
    (same (.shared 32) (Vm.has_of_find? (show (interruptedCore 0).vm.find? 0 32 = _ by decide +kernel))).1,
    (same (.banked 0 1) has_interrupted).2 (by decide +kernel)⟩

/-- **The state of a version 2 software interrupt may tell where a register was written**: on the first core the shared
interrupt displaces the active one, whose further request then shows as pending. -/
theorem not_same_state : ¬ ∀ (m : Machine) (cpu k i : Nat) (c d : Core) (a : Access) (f : RegisterFile) (ls : List Line)
    (es es' : List Nat) (vm vm' : Vm) (l : Line), m.Reachable → m.Quiet → m.core? cpu = some (i, c) →
    m.core? k = some (i, d) → a.write = true → c.reaches? a = some ls → (∀ l ∈ ls, l.home? = none) →
    (m.outcome cpu (.access a f) es).Quiet → (m.outcome k (.access a f) es').Quiet →
    (m.outcome cpu (.access a f) es).vms[i]? = some vm → (m.outcome k (.access a f) es').vms[i]? = some vm' →
    c.vm.Has l → (c.vm.interrupt l).hardware = false →
    (m.outcome cpu (.access a f) es).trueState vm l = (m.outcome k (.access a f) es').trueState vm' l := by
  intro h
  have same := h interrupted 0 1 0 _ _ raising (.constant 1) raised [1] [0] (raisedOn 0 [1]).firstVm (raisedOn 1 [0]).firstVm
    (.banked 0 1) reachable_interrupted (quiet_of_all (by decide +kernel)) (core?_interrupted (by decide +kernel))
    (core?_interrupted (by decide +kernel)) (by decide) (by decide +kernel) (by decide)
    (quiet_of_all (by decide +kernel)) (quiet_of_all (by decide +kernel)) (vms_zero (by decide +kernel))
    (vms_zero (by decide +kernel)) has_interrupted (by decide +kernel)
  exact absurd same (by decide +kernel)

end Machine
end VirtualGic
