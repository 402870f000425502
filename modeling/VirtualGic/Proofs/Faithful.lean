import VirtualGic.Proofs.Anywhere
import VirtualGic.Proofs.Settling
/-!
# Messages arrive as they were sent

A message packs five fields into 64 bits, and a field write into 32 of them.  Nothing is lost.  Whatever a vCPU tells has
room in a message, so the receiver reads what the sender filled in (`Message.Told.intact`); and of the values that field
writes store, the low 32 bits make the whole difference to any record (`Core.carried_turnDeeds`).
-/
namespace VirtualGic

/-! ## Values -/

/-- A deed that does to any record what it does after a message has carried its value, and makes the same difference. -/
def Deed.Carried (vm : Vm) : Deed → Prop
  | .write g l v | .forward g l v => ∀ s : Interrupt,
    g.apply vm l ((v.setWidth 32).setWidth 64) s = g.apply vm l v s ∧
      g.differs s (g.apply vm l ((v.setWidth 32).setWidth 64) s) = g.differs s (g.apply vm l v s)
  | _ => True

namespace Core

variable {c : Core} {w : FieldWrite} {e : Deed}

theorem carried_deedOf (h : w.Carried c.vm) : (c.deedOf w).Carried c.vm := by
  have same (s : Interrupt) : w.group.apply c.vm w.line ((w.value.setWidth 32).setWidth 64) s =
      w.group.apply c.vm w.line w.value s := h s
  unfold deedOf
  split <;> exact fun s => ⟨same s, by rw [same s]⟩

theorem Pends.carried (h : c.Pends w) : w.Carried c.vm := by
  cases h with
  | request requester => exact FieldWrite.carried_requester c.vm _ requester
  | plain l => exact FieldWrite.carried_pending c.vm l

theorem Asked.carried (h : c.Asked w) : w.Carried c.vm := by
  cases h with
  | pends h => exact h.carried
  | route id v => exact FieldWrite.carried_route c.vm _ v
  | field reach l v => exact FieldWrite.carried_lowBits c.vm _ (bits_le_of_reaches reach) l v

theorem Injected.carried (h : c.Injected e) : e.Carried c.vm := by
  cases h with
  | fired => trivial
  | pends h => exact carried_deedOf h.carried

theorem carried_deeds {a : Action} (h : e ∈ c.deeds a) : e.Carried c.vm := by
  cases undertaken_deeds h with
  | asked asked => exact carried_deedOf asked.carried
  | injected injected => exact injected.carried
  | deactivate | acknowledge | complete => trivial

/-- A field write that comes in a message has 32 bits already. -/
theorem carried_messageDeeds {msg : Message} (h : e ∈ c.messageDeeds msg) : e.Carried c.vm := by
  rcases mem_messageDeeds h with injected | ⟨g, l, -, -, rfl⟩
  · exact injected.carried
  · refine carried_deedOf fun s => ?_
    rw [FieldWrite.edit, BitVec.setWidth_setWidth_of_le (Payload.ofWord msg.data).value (by decide : 32 ≤ 64),
      BitVec.setWidth_eq]

/-- **Of the value of a field write 32 bits make the difference**, whatever asks for the write. -/
theorem carried_turnDeeds (c : Core) (t : Turn) : ∀ e ∈ c.turnDeeds t, e.Carried c.vm := by
  intro e h
  cases t with
  | act a => exact carried_deeds h
  | handle =>
    unfold turnDeeds at h
    simp only at h
    split at h
    next => exact carried_messageDeeds h
    next => cases h

end Core

/-! ## Messages -/

/-- A message in which a receiver finds just what vCPU `me` of the VM told. -/
def Message.Intact (m : Message) (vm : Vm) (me : Nat) : Prop :=
  ∃ r d, vm.Tells me r d ∧ d.Fits ∧ m = ⟨r.code, d.pack⟩ ∧ Request.ofCode? m.event = some r ∧ Dispatch.unpack m.data = d ∧
    Dispatch.ofPayload (Payload.ofWord m.data) = d

theorem Message.Told.intact {m : Message} {vm : Vm} {me : Nat} (h : m.Told vm me) (checked : vm.partition.Checked)
    (member : me < vm.vcpuCount) : m.Intact vm me := by
  obtain ⟨r, d, tells, rfl⟩ := h
  have fits := tells.fits checked member
  have unpacked : Dispatch.unpack d.pack = d := Dispatch.unpack_pack fits
  exact ⟨r, d, tells, fits, rfl, (Request.ofCode?_eq_some_iff ..).2 rfl, unpacked, (Dispatch.unpack_eq _).symm.trans unpacked⟩

namespace Core

variable {c c' : Core} {ds : List Deed}

/-- At each move the oldest messages may be taken out, and those that come in are what this vCPU tells. -/
theorem Move.tells_intact (h : c.Move ds c') (hs : c.Stationed) (cpu : Nat) :
    ∃ taken left more, c.waiting cpu = taken ++ left ∧ c'.waiting cpu = left ++ more ∧
      ∀ msg ∈ more, msg.Intact c.vm c.vcpu := by
  have intact {d : Core} (same : Same c d) {msg : Message} (hm : d.Addressed cpu msg) : msg.Intact c.vm c.vcpu :=
    (hm.same same.symm).told.intact hs.checked hs.vcpu_lt
  cases h with
  | act a ha =>
    obtain ⟨more, e, addressed⟩ := posts_act hs ha cpu
    exact ⟨[], c.waiting cpu, more, rfl, e, fun msg hm => intact (.refl c) (addressed msg hm)⟩
  | handle msg bus ht =>
    have same := (alike_take ht).toSame
    obtain ⟨more, e, addressed⟩ := posts_handle (hs.same same) msg cpu
    exact ⟨_, _, more, MessageBus.waiting_inbox_take ht cpu, e, fun msg hm => intact same (addressed msg hm)⟩

end Core

namespace Machine

/-- **Messages arrive as they were sent.**  Fields that fit and words are one and the same thing.  Whatever a core posts,
and whatever waits for one, is what a vCPU of its VM told, and a receiver reads that again.  And no field write that any
turn of a core comes to stores more than a message carries. -/
theorem arrives_as_sent :
    (∀ d : Dispatch, d.Fits → Dispatch.unpack d.pack = d) ∧
      (∀ w : BitVec 64, (Dispatch.unpack w).Fits ∧ (Dispatch.unpack w).pack = w) ∧
      ∀ (m : Machine) (cpu i : Nat) (c : Core), m.Arises → m.core? cpu = some (i, c) →
        (∀ ds c', c.Move ds c' → ∀ k, ∃ taken left more, c.waiting k = taken ++ left ∧ c'.waiting k = left ++ more ∧
          ∀ msg ∈ more, msg.Intact c.vm c.vcpu) ∧
        (∀ msg ∈ m.waiting cpu, ∃ me, me < c.vm.vcpuCount ∧ msg.Intact c.vm me) ∧
        ∀ t, ∀ e ∈ c.turnDeeds t, e.Carried c.vm := by
  refine ⟨fun d => Dispatch.unpack_pack, fun w => ⟨Dispatch.fits_unpack w, Dispatch.pack_unpack w⟩,
    fun m cpu i c hm hc => ⟨fun ds c' h k => ?_, fun msg hmsg => ?_, c.carried_turnDeeds⟩⟩
  · exact h.tells_intact (hm.sound.core hc).station k
  · obtain ⟨me, member, told⟩ := hm.directed.told hm.sound hc hmsg
    exact ⟨me, member, told.intact (hm.sound.core hc).station.checked member⟩

/-- The field write that waits for the second CPU, and what that CPU posts in maintenance. -/
theorem arrives_as_sent_owed :
    Dispatch.unpack (Dispatch.pack ⟨0xFF, 7, 1019, 15, 0x80FFFFFF⟩) = ⟨0xFF, 7, 1019, 15, 0x80FFFFFF⟩ ∧
      ∃ c, owed.core? 1 = some (0, c) ∧ (owed.waiting 1).length = 1 ∧
        (∀ msg ∈ owed.waiting 1, ∃ me, me < c.vm.vcpuCount ∧ msg.Intact c.vm me) ∧
        ∃ taken left more, c.waiting 0 = taken ++ left ∧ (c.act .maintain).waiting 0 = left ++ more ∧
          ∀ msg ∈ more, msg.Intact c.vm c.vcpu := by
  have arises := reachable_owed.arises
  have first : owed.vms[0]? = some owed.firstVm := vms_zero (by decide +kernel)
  have hc := arises.sound.core_of_pcpuOf? first (show owed.firstVm.pcpuOf? 1 = some 1 by decide +kernel)
  obtain ⟨moves, waits, -⟩ := arrives_as_sent.2.2 owed 1 0 _ arises hc
  exact ⟨arrives_as_sent.1 _ ⟨by decide, by decide, by decide, by decide⟩, _, hc, by decide +kernel, waits,
    moves _ _ (.act .maintain nofun) 0⟩

end Machine
end VirtualGic
