import VirtualGic.Proofs.Queue
/-!
# Configuration fields

What a field write stores in a configuration field of an interrupt does not depend on the record (`get_apply`) and
survives the 32 bits of a message (`stores?_narrow`).  The settings of an interrupt change by such writes only.
-/
namespace VirtualGic

inductive ConfigField where
  | enable
  | priority
  | group
  | config
  | targets
  | route
deriving DecidableEq, Repr

namespace ConfigField

variable {F : ConfigField} {vm vm' : Vm} {l : Line} {g : RegisterGroup} {v : BitVec 64} {s t : Interrupt}

def get (F : ConfigField) (s : Interrupt) : BitVec 64 :=
  match F with
  | enable => Core.bitWord s.enabled
  | priority => s.priority.setWidth 64
  | group => Core.bitWord s.group1
  | config => s.config.setWidth 64
  | targets => s.targets.setWidth 64
  | route => s.route

/-- What writing `v` to a register of a group stores in the field: its implemented bits.  Nothing where the group is
another field's or the write is ignored. -/
def stores? (F : ConfigField) (vm : Vm) (l : Line) (g : RegisterGroup) (v : BitVec 64) : Option (BitVec 64) :=
  match F, g with
  | enable, .setEnable => if v == 0 then none else some (Core.bitWord true)
  | enable, .clearEnable => if v == 0 || vm.countsRequesters l then none else some (Core.bitWord false)
  | priority, .priority => some ((v.setWidth 8 &&& Interrupt.priorityMask).setWidth 64)
  | group, .group => some (Core.bitWord (v.getLsbD 0))
  | config, .config => if l.isSoftware then none else some ((v.setWidth 8 &&& Interrupt.edgeTriggered).setWidth 64)
  | targets, .targets => if l.isBanked then none else some ((RegisterGroup.vcpusIn vm v).setWidth 64)
  | route, .route => if l.isBanked then none else some (v &&& Interrupt.routeMask)
  | _, _ => none

theorem get_congr (h : s.SameSettings t) : F.get t = F.get s := by
  unfold get
  rw [h.enabled, h.priority, h.group1, h.config, h.targets, h.route]

theorem stores?_congr (hp : vm'.partition = vm.partition) : F.stores? vm' l g v = F.stores? vm l g v := by
  unfold stores? RegisterGroup.vcpusIn Vm.vcpuSet
  rw [Vm.countsRequesters_congr hp, Vm.vcpuCount_congr hp]

/-- **A write puts into the field what it stores, whatever the record was.** -/
theorem get_apply (F : ConfigField) (vm : Vm) (l : Line) (g : RegisterGroup) (v : BitVec 64) (s : Interrupt) :
    F.get (g.apply vm l v s) = (F.stores? vm l g v).getD (F.get s) := by
  cases g <;> cases F <;> simp only [RegisterGroup.apply, get, stores?, Option.getD_none, Option.getD_some] <;>
    split <;> rfl

end ConfigField

/-- What switches an interrupt on or off fits a message. -/
def RegisterGroup.Fits (g : RegisterGroup) (v : BitVec 64) : Prop :=
  g = .setEnable ∨ g = .clearEnable → (v.setWidth 32).setWidth 64 = v

theorem setWidth_narrow (v : BitVec 64) {n : Nat} (hn : n ≤ 32) :
    ((v.setWidth 32).setWidth 64).setWidth n = v.setWidth n := by
  apply BitVec.eq_of_getLsbD_eq
  intro i hi
  simp only [BitVec.getLsbD_setWidth]
  have h1 : i < 64 := by omega
  have h2 : i < 32 := by omega
  simp only [hi, h1, h2, decide_true, Bool.true_and]

theorem routeMask_narrow (v : BitVec 64) :
    (v.setWidth 32).setWidth 64 &&& Interrupt.routeMask = v &&& Interrupt.routeMask := by
  have hm : Interrupt.routeMask = (0x80FFFFFF : BitVec 32).setWidth 64 := by decide
  apply BitVec.eq_of_getLsbD_eq
  intro i hi
  rw [hm]
  simp only [BitVec.getLsbD_and, BitVec.getLsbD_setWidth]
  by_cases h : i < 32
  · simp only [h, hi, decide_true, Bool.true_and]
  · rw [BitVec.getLsbD_of_ge _ i (Nat.le_of_not_lt h), Bool.and_false, Bool.and_false, Bool.and_false]

/-- **What a write stores, it stores also after a message carried it.** -/
theorem ConfigField.stores?_narrow {F : ConfigField} {vm : Vm} {l : Line} {g : RegisterGroup} {v : BitVec 64}
    (h : g.Fits v) : F.stores? vm l g ((v.setWidth 32).setWidth 64) = F.stores? vm l g v := by
  cases F with
  | enable =>
    cases g with
    | setEnable => rw [h (.inl rfl)]
    | clearEnable => rw [h (.inr rfl)]
    | _ => rfl
  | priority =>
    cases g with
    | priority => simp only [stores?, setWidth_narrow v (by decide : 8 ≤ 32)]
    | _ => rfl
  | group =>
    cases g with
    | group => simp only [stores?, BitVec.getLsbD_setWidth]; rfl
    | _ => rfl
  | config =>
    cases g with
    | config => simp only [stores?, setWidth_narrow v (by decide : 8 ≤ 32)]
    | _ => rfl
  | targets =>
    cases g with
    | targets => simp only [stores?, RegisterGroup.vcpusIn, BitVec.setWidth_and, setWidth_narrow v (by decide : 8 ≤ 32)]
    | _ => rfl
  | route =>
    cases g with
    | route => simp only [stores?, routeMask_narrow]
    | _ => rfl

/-! ## Deeds and messages -/

/-- What a deed stores in the field of an interrupt, at once or on the core that it is sent to. -/
def Deed.stores? (F : ConfigField) (vm : Vm) (l : Line) : Deed → Option (BitVec 64)
  | .write g k v | .forward g k v => if k = l then F.stores? vm l g v else none
  | _ => none

def Deed.Fits : Deed → Prop
  | .write g _ v | .forward g _ v => g.Fits v
  | _ => True

def Message.stores? (F : ConfigField) (vm : Vm) (l : Line) (msg : Message) : Option (BitVec 64) :=
  if msg.event = Request.writeField.code ∧ (Payload.ofWord msg.data).vm.toNat = vm.id then
    match RegisterGroup.ofCode? (Payload.ofWord msg.data).group.toNat,
      vm.find? (Payload.ofWord msg.data).bank.toNat (Payload.ofWord msg.data).intid.toNat with
    | some g, some k => if k = l then F.stores? vm l g ((Payload.ofWord msg.data).value.setWidth 64) else none
    | _, _ => none
  else none

section
variable {F : ConfigField} {vm vm' : Vm} {l k : Line} {g : RegisterGroup} {v r : BitVec 64} {msg : Message}

theorem Deed.stores?_congr (hp : vm'.partition = vm.partition) (d : Deed) : d.stores? F vm' l = d.stores? F vm l := by
  unfold Deed.stores?
  split <;> simp only [ConfigField.stores?_congr hp]

theorem Deed.line_of_stores? {d : Deed} (h : d.stores? F vm l = some r) : d.line = l := by
  cases d with
  | write g k v | forward g k v =>
    have h : (if k = l then F.stores? vm l g v else none) = some r := h
    split at h
    next e => exact e
    next => cases h
  | _ => cases h

theorem Message.stores?_congr (hp : vm'.partition = vm.partition) : msg.stores? F vm' l = msg.stores? F vm l := by
  unfold Message.stores? Vm.id
  rw [hp]
  simp only [Vm.find?_congr hp, ConfigField.stores?_congr hp]

theorem Message.event_of_stores? (h : msg.stores? F vm l = some r) : msg.event = Request.writeField.code := by
  unfold Message.stores? at h
  split at h
  next hc => exact hc.1
  next => cases h

/-- A field write that was sent stores what it was sent to store. -/
theorem Message.Writes.stores? (h : msg.Writes vm g k v) (hk : vm.Has k) (fits : g.Fits v) :
    msg.stores? F vm l = Deed.stores? F vm l (.forward g k v) := by
  unfold Message.stores?
  rw [if_pos ⟨h.about.request, h.about.vm⟩, h.group, RegisterGroup.ofCode?_code, h.about.find? hk, h.value]
  simp only [ConfigField.stores?_narrow fits]
  rfl

end
end VirtualGic
