import VirtualGic.Proofs.Isolation
import VirtualGic.Proofs.Served
import VirtualGic.Proofs.Traffic
import VirtualGic.Proofs.WellFormed
/-!
# Writing half of a route

A message stores nothing but what the action stores that caused it, however often it is sent on
(`Machine.Caused.carries`).  A write to the upper half of a route register, where no bit is implemented, therefore changes
nothing when it is made, but it carries the other half along: on the owner's core it may restore the route as it was when
the write was made (`Machine.Arises.upper_half`, `Machine.not_independent`).
-/
namespace VirtualGic

namespace Core

variable {c c' : Core} {ds : List Deed} {F : ConfigField} {l : Line} {msg : Message} {r : BitVec 64}

/-! ## Runs -/

/-- **A field keeps what it holds, or gets what a deed of the run stores.** -/
theorem Runs.get (h : Runs c ds c') (hl : c.vm.Has l) : F.get (c'.interrupt l) = F.get (c.interrupt l) ∨
    F.get (c'.interrupt l) ∈ ds.filterMap (·.stores? F c.vm l) := by
  induction h with
  | nil => exact .inl rfl
  | @cons c c' c'' d ds hd _ ih =>
    have hp := hd.same.partition
    rw [List.filterMap_append, List.mem_append]
    rcases ih ((Vm.has_congr hp l).2 hl) with e | later
    · rw [e]
      refine (hd.get hl).imp_right ?_
      rintro ⟨a, ha, hr⟩
      exact .inl (List.mem_filterMap.2 ⟨a, Option.mem_toList.2 ha, hr⟩)
    · simp only [Deed.stores?_congr hp] at later
      exact .inr (.inr later)

/-- **A message that a run posts stores what a deed of the run stores.** -/
theorem Runs.stores_of_new (h : Runs c ds c') (fits : ∀ a ∈ ds, a.Fits) {k : Nat} {new : List Message}
    (hnew : c'.waiting k = c.waiting k ++ new) (hm : msg ∈ new) (hr : msg.stores? F c.vm l = some r) :
    r ∈ ds.filterMap (·.stores? F c.vm l) := by
  obtain ⟨more, e, hmore⟩ := h.posts k
  obtain rfl := List.append_cancel_left (hnew.symm.trans e)
  obtain ⟨g, j, x, hd, hj, -, hw⟩ := hmore msg hm (Message.event_of_stores? hr)
  exact List.mem_filterMap.2 ⟨_, hd, (hw.stores? hj (fits _ hd)).symm.trans hr⟩

/-- What a core posts, it posts to the CPUs of its VM. -/
theorem Move.cpu_of_new (h : c.Move ds c') (hs : c.Sound) {k : Nat} {new : List Message}
    (hnew : c'.waiting k = c.waiting k ++ new) (hm : msg ∈ new) : k ∈ c.vm.partition.cpus := by
  refine Classical.byContradiction fun hk => ?_
  have same : c'.waiting k = c.waiting k := congrArg (·.waiting) ((h.confined hs).inbox k hk)
  rw [List.self_eq_append_right.1 (same.symm.trans hnew)] at hm
  cases hm

end Core

namespace Machine

variable {m m' m₀ : Machine} {cpu cpu₀ i j k n : Nat} {c c' : Core} {a : Action} {F : ConfigField} {l : Line} {msg : Message}
  {r : BitVec 64} {vm : Vm} {t : Turn} {ds : List Deed}

/-! ## What an action causes -/

/-- The messages that an action has caused and the CPUs that they wait for, after any turns of the CPUs.  Messages are
told apart by what they say. -/
inductive Caused (m₀ : Machine) (cpu₀ : Nat) (a : Action) : Machine → Nat → Message → Prop
  /-- The action posts it. -/
  | posted {k : Nat} {new : List Message} {msg : Message} :
    (m₀.step ⟨cpu₀, a⟩).waiting k = m₀.waiting k ++ new → msg ∈ new → Caused m₀ cpu₀ a (m₀.step ⟨cpu₀, a⟩) k msg
  /-- It still waits after a turn. -/
  | kept {m : Machine} {cpu k : Nat} {t : Turn} {msg : Message} : Caused m₀ cpu₀ a m k msg → t ≠ .act .poll →
    msg ∈ (m.turn cpu t).waiting k → Caused m₀ cpu₀ a (m.turn cpu t) k msg
  /-- It is posted where another one is handled. -/
  | passed {m m' : Machine} {cpu k : Nat} {other msg : Message} {bus : MessageBus} {new : List Message} :
    Caused m₀ cpu₀ a m cpu other → m.bus.take cpu = some (other, bus) → m.handleNext? cpu = some m' →
    m'.waiting k = (bus.inbox k).waiting ++ new → msg ∈ new → Caused m₀ cpu₀ a m' k msg

theorem Arises.turn (h : m.Arises) (cpu : Nat) (ht : t ≠ .act .poll) : (m.turn cpu t).Arises := by
  cases t with
  | act a => exact .act cpu (fun e => ht (by rw [e])) h
  | handle =>
    unfold Machine.turn
    cases hn : m.handleNext? cpu with
    | none => exact h
    | some m' => exact .handle cpu h hn

theorem partition_putCore (hc : m.core? cpu = some (i, c)) (hp : c'.vm.partition = c.vm.partition)
    (hvm : m.vms[j]? = some vm) : ∃ vm', (m.putCore i c').vms[j]? = some vm' ∧ vm'.partition = vm.partition := by
  by_cases hij : i = j
  · subst hij
    obtain rfl := Option.some.inj ((vm_of_core? hc).symm.trans hvm)
    exact ⟨c'.vm, vms_putCore_self hc c', hp⟩
  · exact ⟨vm, (vms_putCore _ _ _ _ hij).trans hvm, rfl⟩

theorem Arises.partition_turn (h : m.Arises) (cpu : Nat) (ht : t ≠ .act .poll) (hvm : m.vms[j]? = some vm) :
    ∃ vm', (m.turn cpu t).vms[j]? = some vm' ∧ vm'.partition = vm.partition := by
  rcases turn_cases m cpu ht with ⟨e, -⟩ | ⟨i, c, c', hc, hmv, e⟩
  · rw [e]
    exact ⟨vm, hvm, rfl⟩
  · rw [e]
    exact partition_putCore hc (hmv.local_ (h.sound.core hc)).partition hvm

/-- The CPUs of a VM run its vCPUs. -/
theorem Sound.exists_core (h : m.Sound) (hvm : m.vms[i]? = some vm) (here : k ∈ vm.partition.cpus) :
    ∃ d, m.core? k = some (i, d) ∧ d.vm = vm := by
  obtain ⟨w, hw⟩ := List.mem_iff_getElem?.1 here
  exact ⟨_, h.core_of_pcpuOf? hvm hw, rfl⟩

/-- **A message stores nothing but what the action stores that caused it**, and it waits for a core of the same VM. -/
theorem Caused.carries (h : m₀.Arises) (hc : m₀.core? cpu₀ = some (i, c)) (ha : a ≠ .poll)
    (caused : Caused m₀ cpu₀ a m k msg) : m.Arises ∧
      (∃ vm, m.vms[i]? = some vm ∧ vm.partition = c.vm.partition) ∧ k ∈ c.vm.partition.cpus ∧
      ∀ F l r, msg.stores? F c.vm l = some r → r ∈ c.storesOf F l a := by
  have hs := h.sound.core hc
  induction caused with
  | @posted k new msg hnew hm =>
    have run := Core.act_runs hs ha
    rw [step_of_core? hc, ← waiting_core hc] at hnew
    refine ⟨.act cpu₀ ha h, ?_, (Core.Move.act a ha).cpu_of_new hs hnew hm, fun F l r hr => ?_⟩
    · rw [step_of_core? hc]
      exact partition_putCore hc run.local_.partition (vm_of_core? hc)
    · rw [← Core.filterMap_deeds]
      exact run.stores_of_new (fun _ => Core.fits_deeds) hnew hm hr
  | @kept m cpu k t msg _ ht _ ih =>
    obtain ⟨arises, ⟨vm, hvm, hp⟩, here, carried⟩ := ih
    obtain ⟨vm', hvm', hp'⟩ := arises.partition_turn cpu ht hvm
    exact ⟨arises.turn cpu ht, ⟨vm', hvm', hp'.trans hp⟩, here, carried⟩
  | @passed m m' cpu k other msg bus new _ ht hn hnew hm ih =>
    obtain ⟨arises, ⟨vm, hvm, hp⟩, here, carried⟩ := ih
    -- the core that handles the other message is one of the same VM
    obtain ⟨d, hd, rfl⟩ := arises.sound.exists_core hvm (hp ▸ here)
    obtain ⟨j, d', other', bus', hd', ht', hmv, rfl⟩ := handleNext?_cases hn
    obtain ⟨rfl, rfl⟩ := Prod.mk.inj (Option.some.inj (hd.symm.trans hd'))
    have taken : d.bus.take d.cpu = some (other, bus) := by rw [bus_of_core? hd, cpu_of_core? hd]; exact ht
    obtain ⟨rfl, rfl⟩ := Prod.mk.inj (Option.some.inj (taken.symm.trans ht'))
    have hds := arises.sound.core hd
    refine ⟨.handle cpu arises hn, ?_, ?_, fun F l r hr => ?_⟩
    · obtain ⟨vm', hvm', hp'⟩ := partition_putCore hd (hmv.local_ hds).partition (vm_of_core? hd)
      exact ⟨vm', hvm', hp'.trans hp⟩
    · by_cases hk : cpu = k
      · rw [← hk]
        exact here
      · have rest := MessageBus.waiting_inbox_take taken k
        rw [cpu_of_core? hd, if_neg hk] at rest
        rw [← hp]
        exact hmv.cpu_of_new hds (hnew.trans (congrArg (· ++ new) rest.symm)) hm
    · have stored : r ∈ (d.messageDeeds other).filterMap (·.stores? F d.vm l) :=
        (Core.runs_take hds taken).stores_of_new (fun _ => Core.fits_messageDeeds) hnew hm
          ((Message.stores?_congr hp).trans hr)
      rw [Core.filterMap_messageDeeds] at stored
      exact carried F l r ((Message.stores?_congr hp).symm.trans (Option.mem_toList.1 stored))

/-- **Handling a message leaves the fields of every interrupt alone, or stores what the action stores that caused it.** -/
theorem Caused.handled (h : m₀.Arises) (hc : m₀.core? cpu₀ = some (i, c)) (ha : a ≠ .poll)
    (caused : Caused m₀ cpu₀ a m k msg) {bus : MessageBus} (ht : m.bus.take k = some (msg, bus)) :
    ∃ d c', m.core? k = some (i, d) ∧ d.vm.partition = c.vm.partition ∧ c'.vm.partition = d.vm.partition ∧
      m.turn k .handle = m.putCore i c' ∧ (m.putCore i c').Arises ∧
      ∀ F l, d.vm.Has l → F.get (c'.interrupt l) = F.get (d.interrupt l) ∨ F.get (c'.interrupt l) ∈ c.storesOf F l a := by
  obtain ⟨arises, ⟨vm, hvm, hp⟩, here, carried⟩ := caused.carries h hc ha
  obtain ⟨d, hd, rfl⟩ := arises.sound.exists_core hvm (hp ▸ here)
  have hds := arises.sound.core hd
  have taken : d.bus.take d.cpu = some (msg, bus) := by rw [bus_of_core? hd, cpu_of_core? hd]; exact ht
  have next : m.handleNext? k = some (m.putCore i (({ d with bus := bus } : Core).handle msg)) := by
    simp only [handleNext?, hd, Option.bind_some, (d.handleNext?_eq_some_iff _).2 ⟨msg, bus, taken, rfl⟩, Option.map_some]
  have run := Core.runs_take hds taken
  refine ⟨d, _, hd, hp, run.local_.partition, ?_, .handle k arises next, fun F l hl => (run.get hl).imp_right fun stored => ?_⟩
  · unfold turn
    rw [next]
    rfl
  · have stored : _ ∈ (d.messageDeeds msg).filterMap (·.stores? F d.vm l) := stored
    rw [Core.filterMap_messageDeeds] at stored
    exact carried F l _ ((Message.stores?_congr hp).symm.trans (Option.mem_toList.1 stored))

end Machine

/-! ## The upper half of a route -/

theorem and_mask_of {n : Nat} {v mask : BitVec n} (h : v &&& ~~~mask = 0) : v &&& mask = v := by
  have all : v &&& (mask ||| ~~~mask) = v := by rw [BitVec.or_not_self, BitVec.and_allOnes]
  rw [BitVec.and_or_distrib_left, h] at all
  exact BitVec.or_zero.symm.trans all

/-- No bit of the upper half is implemented: what is written there leaves the route as it is. -/
theorem Distributor.mergeRoute_upper (route v : BitVec 64) :
    mergeRoute route v (some true) &&& Interrupt.routeMask = route &&& Interrupt.routeMask := by
  have hm : Interrupt.routeMask = lowBits 32 Interrupt.routeMask := by decide
  apply BitVec.eq_of_getLsbD_eq
  intro j hj
  rw [hm]
  simp only [mergeRoute, BitVec.getLsbD_and, BitVec.getLsbD_or, BitVec.getLsbD_shiftLeft, getLsbD_lowBits]
  by_cases h : j < 32 <;> simp [h]

namespace Core

variable {c : Core} {a : Access} {n : Nat}

/-- The access goes to the upper word of a route register.  The distributor's window ends at an address, or else nothing
does. -/
structure ToUpperHalf (vm : Vm) (a : Access) (n : Nat) : Prop where
  version : vm.version = .v3
  width : a.width = 4
  register : n < 0x400
  window : (Window.distributor vm.partition.distributor).Bounded
  addr : a.addr.toNat = vm.partition.distributor.toNat + 0x6000 + 8 * n + 4

theorem place?_upper (h : ToUpperHalf c.vm a n) {p : Distributor.Place} (hp : Distributor.place? c a.addr a.width = some p) :
    p = .zero ∨ p = .route n (some true) := by
  have hn := h.register
  have offset : (a.addr - c.vm.partition.distributor).toNat = 0x6000 + 8 * n + 4 := by
    rw [BitVec.toNat_sub_of_le (BitVec.le_def.2 (by rw [h.addr]; omega)), h.addr]
    omega
  have block : blockAt? (0x6000 + 8 * n + 4) = some ⟨.route, 0x6000, 0x2000, 12, 64⟩ :=
    blockAt?_of_covers (by decide) (RegisterBlock.covers_iff.2 ⟨by simp only; omega, by simp only; omega⟩)
  unfold Distributor.place? at hp
  simp only [offset, block, h.version, h.width, beq_eq_false_iff_ne.2 (by decide : GicVersion.v3 ≠ .v2), Bool.false_and,
    Bool.false_eq_true, if_false] at hp
  split at hp
  next => cases hp
  next =>
    split at hp
    next =>
      unfold Distributor.blockPlace? Distributor.routePlace? at hp
      simp only [h.version] at hp
      have number : (0x6000 + 8 * n + 4 - 0x6000) / 8 = n := by omega
      have upper : (0x6000 + 8 * n + 4) % 8 ≥ 4 := by omega
      simp only [number, upper] at hp
      split at hp
      next => cases hp
      next =>
        split at hp
        next => exact .inl (Option.some.inj hp).symm
        next => exact .inr (Option.some.inj hp).symm
    next => cases hp

/-- **A write to an upper half writes the route as it is.** -/
theorem stores_of_upperHalf (h : ToUpperHalf c.vm a n) (checked : c.vm.partition.Checked) (f : RegisterFile)
    (configured : ∀ l, c.vm.Has l → (c.interrupt l).Configured c.vm l) {F : ConfigField} {l : Line} {r : BitVec 64}
    (hr : r ∈ c.storesOf F l (.access a f)) : F = .route ∧ l = .shared n ∧ r = (c.interrupt (.shared n)).route := by
  have hn := h.register
  have found : c.vm.addressMap.find? (·.contains a.addr) = some (.distributor c.vm.partition.distributor) := by
    rw [Vm.addressMap_eq checked, List.find?_cons]
    have inside : (Window.distributor c.vm.partition.distributor).contains a.addr = true := by
      rw [Window.contains_iff h.window, h.addr]
      simp only [Window.base, Window.size, distributorSize]
      omega
    rw [inside]
  obtain ⟨w, hw, hr⟩ := List.mem_filterMap.1 hr
  unfold accessWrites at hw
  split at hw
  next =>
    rw [found] at hw
    unfold windowWrites at hw
    cases hp : Distributor.place? c a.addr a.width with
    | none => rw [hp] at hw; cases hw
    | some p =>
      rw [hp] at hw
      rcases place?_upper h hp with rfl | rfl
      · cases hw
      · have has : c.vm.Has (.shared n) := Distributor.reaches_place? hp
        rw [List.mem_singleton.1 hw] at hr
        split at hr
        next e =>
          subst e
          cases F with
          | route =>
            have masked := and_mask_of (configured _ has).route
            rw [← Distributor.mergeRoute_upper _ (a.stored f)] at masked
            exact ⟨rfl, rfl, (Option.some.inj hr).symm.trans masked⟩
          | _ => cases hr
        next => cases hr
  next => cases hw

end Core
namespace Interrupt

/-- The interrupt goes to the same vCPUs and physical CPUs. -/
structure SameRouting (s t : Interrupt) : Prop where
  route : t.route = s.route
  targets : t.targets = s.targets
  delivery : t.delivery = s.delivery

theorem SameRouting.refl (s : Interrupt) : SameRouting s s := ⟨rfl, rfl, rfl⟩

/-- Under version 3 the delivery follows from the route. -/
theorem Configured.delivery_eq {vm vm' : Vm} {l : Line} {s t : Interrupt} (hs : s.Configured vm l) (ht : t.Configured vm' l)
    (hp : vm'.partition = vm.partition) (v3 : vm.version = .v3) (route : t.route = s.route) : t.delivery = s.delivery := by
  rw [hs.delivery v3, ht.delivery ((Vm.version_congr hp).trans v3), Vm.delivery_congr hp]
  unfold Vm.delivery
  cases l with
  | banked home id => rfl
  | shared id => rw [v3, route]

theorem targets_of_get {s t : Interrupt} (h : ConfigField.targets.get t = ConfigField.targets.get s) :
    t.targets = s.targets := by
  have := congrArg (BitVec.setWidth 8) h
  simpa [ConfigField.get] using this

end Interrupt

namespace Machine

variable {m m₀ : Machine} {cpu cpu₀ i j k n : Nat} {c c' d : Core} {a : Access} {f : RegisterFile} {l : Line} {msg : Message}
  {vm : Vm}

/-- Every interrupt of every VM goes where it went. -/
def SameRouting (m m' : Machine) : Prop :=
  ∀ (j : Nat) (vm : Vm) (l : Line), m.vms[j]? = some vm → vm.Has l →
    ∃ vm', m'.vms[j]? = some vm' ∧ (vm.interrupt l).SameRouting (vm'.interrupt l)

theorem Arises.stores_upper (h : m.Arises) (hc : m.core? cpu = some (i, c)) (upper : Core.ToUpperHalf c.vm a n)
    {F : ConfigField} {r : BitVec 64} (hr : r ∈ c.storesOf F l (.access a f)) :
    F = .route ∧ l = .shared n ∧ r = (c.interrupt (.shared n)).route :=
  Core.stores_of_upperHalf upper (h.sound.core hc).station.checked f (fun _ hl => h.configured (vm_of_core? hc) hl) hr

/-- When the write is made, it stores what is there. -/
theorem Arises.sameRouting_upper (h : m.Arises) (hc : m.core? cpu = some (i, c)) (upper : Core.ToUpperHalf c.vm a n)
    (f : RegisterFile) : m.SameRouting (m.step ⟨cpu, .access a f⟩) := by
  intro j vm l hj hl
  have notPoll : (.access a f : Action) ≠ .poll := fun e => by cases e
  have arises : (m.step ⟨cpu, .access a f⟩).Arises := .act cpu notPoll h
  rw [step_of_core? hc] at arises ⊢
  by_cases hij : i = j
  · subst hij
    obtain rfl := Option.some.inj ((vm_of_core? hc).symm.trans hj)
    have run := Core.act_runs (h.sound.core hc) notPoll
    have hvm' := vms_putCore_self hc (c.act (.access a f))
    have hp := run.local_.partition
    have same : ∀ F : ConfigField, F.get ((c.act (.access a f)).interrupt l) = F.get (c.interrupt l) := fun F => by
      rcases run.get (F := F) hl with kept | stored
      · exact kept
      · rw [Core.filterMap_deeds] at stored
        obtain ⟨rfl, rfl, route⟩ := h.stores_upper hc upper stored
        exact route
    exact ⟨_, hvm', same .route, Interrupt.targets_of_get (same .targets), (h.configured hj hl).delivery_eq
      (arises.configured hvm' ((Vm.has_congr hp l).2 hl)) hp upper.version (same .route)⟩
  · exact ⟨vm, (vms_putCore _ _ _ _ hij).trans hj, .refl _⟩

/-- Where a message that the write caused is handled, the route may go back to what it was. -/
theorem Caused.routing_upper (caused : Caused m₀ cpu₀ (.access a f) m k msg) (h : m₀.Arises)
    (hc : m₀.core? cpu₀ = some (i, c)) (upper : Core.ToUpperHalf c.vm a n) {bus : MessageBus}
    (ht : m.bus.take k = some (msg, bus)) (hj : m.vms[j]? = some vm) (hl : vm.Has l) :
    ∃ vm', (m.turn k .handle).vms[j]? = some vm' ∧
      ((vm.interrupt l).SameRouting (vm'.interrupt l) ∨ j = i ∧ l = .shared n ∧
        (vm'.interrupt l).route = (c.vm.interrupt l).route ∧ (vm'.interrupt l).targets = (vm.interrupt l).targets ∧
        (vm'.interrupt l).delivery = (c.vm.interrupt l).delivery) := by
  have notPoll : (.access a f : Action) ≠ .poll := fun e => by cases e
  have arises := (caused.carries h hc notPoll).1
  obtain ⟨d, c', hd, hp, hp', e, after, kept⟩ := caused.handled h hc notPoll ht
  rw [e]
  by_cases hij : i = j
  · subst hij
    obtain rfl := Option.some.inj ((vm_of_core? hd).symm.trans hj)
    have hvm' := vms_putCore_self hd c'
    have configured := after.configured hvm' ((Vm.has_congr hp' l).2 hl)
    have targets : (c'.vm.interrupt l).targets = (d.vm.interrupt l).targets :=
      Interrupt.targets_of_get ((kept .targets l hl).resolve_right fun stored => by
        cases (h.stores_upper hc upper stored).1)
    refine ⟨_, hvm', ?_⟩
    rcases kept .route l hl with route | stored
    · exact .inl ⟨route, targets, (arises.configured hj hl).delivery_eq configured hp'
        ((Vm.version_congr hp).trans upper.version) route⟩
    · obtain ⟨-, rfl, route⟩ := h.stores_upper hc upper stored
      have route : (c'.vm.interrupt (.shared n)).route = (c.vm.interrupt (.shared n)).route := route
      have before := h.configured (vm_of_core? hc) ((Vm.has_congr hp _).1 hl)
      exact .inr ⟨rfl, rfl, route, targets, before.delivery_eq configured (hp'.trans hp) upper.version route⟩
  · exact ⟨vm, (vms_putCore _ _ _ _ hij).trans hj, .inl (.refl _)⟩

/-- **A write to the upper half of a route changes nothing when it is made**, and where a message that it caused is handled
later, that leaves every interrupt where it goes, or sets the route of this interrupt as it was when the write was made. -/
theorem Arises.upper_half (h : m₀.Arises) (hc : m₀.core? cpu₀ = some (i, c)) (upper : Core.ToUpperHalf c.vm a n)
    (f : RegisterFile) : m₀.SameRouting (m₀.step ⟨cpu₀, .access a f⟩) ∧
      ∀ m k msg bus, Caused m₀ cpu₀ (.access a f) m k msg → m.bus.take k = some (msg, bus) →
        ∀ (j : Nat) (vm : Vm) (l : Line), m.vms[j]? = some vm → vm.Has l → ∃ vm', (m.turn k .handle).vms[j]? = some vm' ∧
          ((vm.interrupt l).SameRouting (vm'.interrupt l) ∨ j = i ∧ l = .shared n ∧
            (vm'.interrupt l).route = (c.vm.interrupt l).route ∧ (vm'.interrupt l).targets = (vm.interrupt l).targets ∧
            (vm'.interrupt l).delivery = (c.vm.interrupt l).delivery) :=
  ⟨h.sameRouting_upper hc upper f, fun _ _ _ _ caused ht _ _ _ hj hl => caused.routing_upper h hc upper ht hj hl⟩

/-- A shared interrupt is active on the second core. -/
def halved : Machine :=
  (started 2 [1] [.standard .v3 1 64 [0, 1] []]).run [⟨1, store (distributorBase + 0x304) 4 1⟩]

theorem reachable_halved : halved.Reachable := (reachable_started (by decide +kernel)).run _

/-- The first core of the halved machine. -/
def halvedCore : Core := ⟨0, 0, halved.firstVm, halved.interfaces.get 0, halved.bus, halved.gic⟩

theorem core?_halved : halved.core? 0 = some (0, halvedCore) :=
  reachable_halved.arises.sound.core_of_pcpuOf? (vms_zero (by decide +kernel))
    (show halved.firstVm.pcpuOf? 0 = some 0 by decide +kernel)

/-- A store to the upper half of the interrupt's route. -/
def upperStore : Access := ⟨distributorBase + 0x6104, 4, true, 0, false, false⟩

theorem toUpperHalf_halved : Core.ToUpperHalf halvedCore.vm upperStore 32 :=
  ⟨by decide +kernel, rfl, by decide, by decide +kernel, by decide +kernel⟩

/-- What the store sends to the second core. -/
def halfMessage : Message := ⟨Request.writeField.code, Payload.toWord ⟨1, 1, 32, 16, 0⟩⟩

/-- The halved machine after the store and a new route from the second core. -/
def rerouted : Machine :=
  (halved.step ⟨0, .access upperStore (.constant 0)⟩).turn 1 (.act (store (distributorBase + 0x6100) 8 1))

theorem caused_rerouted : Caused halved 0 (.access upperStore (.constant 0)) rerouted 1 halfMessage :=
  .kept (.posted (show _ = halved.waiting 1 ++ [halfMessage] by decide +kernel) List.mem_cons_self) (fun e => by cases e)
    (show halfMessage ∈ (rerouted.waiting 1) by decide +kernel)

theorem take_rerouted : rerouted.bus.take 1 = some (halfMessage, ⟨#[.empty, .empty], true⟩) := by decide +kernel

/-- The route of the interrupt before the message is handled and after. -/
theorem route_rerouted : (rerouted.firstVm.interrupt (.shared 32)).route = 1 ∧
    ∀ vm', (rerouted.turn 1 .handle).vms[0]? = some vm' → (vm'.interrupt (.shared 32)).route = 0 := by
  refine ⟨by decide +kernel, fun vm' hvm' => ?_⟩
  obtain rfl := Option.some.inj ((vms_zero (by decide +kernel)).symm.trans hvm')
  decide +kernel

theorem upper_half_halved : halved.SameRouting (halved.step ⟨0, .access upperStore (.constant 0)⟩) ∧
    (rerouted.firstVm.interrupt (.shared 32)).route = 1 ∧
    ∃ vm', (rerouted.turn 1 .handle).vms[0]? = some vm' ∧ (vm'.interrupt (.shared 32)).route = 0 ∧
      (vm'.interrupt (.shared 32)).delivery = .cpu 0 := by
  obtain ⟨same, later⟩ := reachable_halved.arises.upper_half core?_halved toUpperHalf_halved (.constant 0)
  obtain ⟨vm', hvm', e | ⟨-, -, route, -, delivery⟩⟩ := later _ _ _ _ caused_rerouted take_rerouted 0 _ (.shared 32)
    (vms_zero (by decide +kernel)) (Vm.has_of_find? (show rerouted.firstVm.find? 0 32 = _ by decide +kernel))
  · have := (route_rerouted.2 vm' hvm').symm.trans (e.route.trans route_rerouted.1)
    exact absurd this (by decide)
  · exact ⟨same, route_rerouted.1, vm', hvm', route.trans (by decide +kernel), delivery.trans (by decide +kernel)⟩

/-- **The halves of a route are not independent**: the message carries the lower half as it was when the upper one was
written. -/
theorem not_independent : ¬ ∀ (m₀ m : Machine) (cpu₀ k i n : Nat) (c : Core) (a : Access) (f : RegisterFile) (msg : Message)
    (bus : MessageBus), m₀.Reachable → m₀.core? cpu₀ = some (i, c) → Core.ToUpperHalf c.vm a n → a.write = true →
    (c.access a f).1 = true → Caused m₀ cpu₀ (.access a f) m k msg → m.bus.take k = some (msg, bus) →
    m.SameRouting (m.turn k .handle) := by
  intro h
  obtain ⟨vm', hvm', same⟩ := h halved rerouted 0 1 0 32 _ upperStore (.constant 0) halfMessage _ reachable_halved core?_halved
    toUpperHalf_halved rfl (by decide +kernel) caused_rerouted take_rerouted 0 _ (.shared 32) (vms_zero (by decide +kernel))
    (Vm.has_of_find? (show rerouted.firstVm.find? 0 32 = _ by decide +kernel))
  have := (route_rerouted.2 vm' hvm').symm.trans (same.route.trans route_rerouted.1)
  exact absurd this (by decide)

end Machine
end VirtualGic
