import VirtualGic.Proofs.Isolation
/-!
# Physical lines

The physical line behind an interrupt shows what the interrupt's record says: whether it is enabled, its priority, its
configuration and where it is delivered.  A write to the record that makes a difference is passed on to the line by
the core that carries it out, whichever that is, so the two never part.  The line is enabled or disabled once for each
time that the record's enable bit changes, and no other line is (`Machine.Arises.lines_mirror_records`).
-/
namespace VirtualGic

/-- A physical line shows what a record says. -/
structure PhysicalLine.Mirrors (p : PhysicalLine) (s : Interrupt) : Prop where
  enabled : p.enabled = s.enabled
  priority : p.priority = s.priority
  config : p.config = s.config
  delivery : p.delivery = s.delivery

/-- The physical line of an interrupt shows what its record says, and the record names the delivery that matches its
targets or its route. -/
structure Vm.Mirrors (vm : Vm) (g : PhysicalGic) (l : Line) : Prop where
  line : ∃ p, g.line? l.id = some p ∧ p.Mirrors (vm.interrupt l)
  delivery : (vm.interrupt l).delivery = vm.delivery l (vm.interrupt l)

/-- The writes that enabled or disabled a line, oldest first. -/
def PhysicalGic.enablesOf (g : PhysicalGic) (id : Nat) : List Bool := ((g.enables.filter (·.1 == id)).map (·.2)).toList

/-! ## Field writes -/

section Edit
variable {vm vm' : Vm} {l : Line} {s t : Interrupt} {p : PhysicalLine} {gic gic' : PhysicalGic} {v : BitVec 64} {id : Nat}

theorem PhysicalLine.Mirrors.settings (h : p.Mirrors s) (hs : s.SameSettings t) : p.Mirrors t :=
  ⟨h.enabled.trans hs.enabled.symm, h.priority.trans hs.priority.symm, h.config.trans hs.config.symm,
    h.delivery.trans hs.delivery.symm⟩

theorem Vm.Mirrors.spared (h : vm.Mirrors gic l) (hg : gic'.line? l.id = gic.line? l.id) : vm.Mirrors gic' l :=
  ⟨by rw [hg]; exact h.line, h.delivery⟩

theorem PhysicalGic.enablesOf_setEnabled (g : PhysicalGic) (id : Nat) (on : Bool) :
    (g.setEnabled id on).enablesOf id = g.enablesOf id ++ [on] := by
  show ((Array.filter _ (g.enables.push (id, on))).map _).toList = _
  rw [Array.filter_push, if_pos (beq_self_eq_true id), Array.map_push, Array.toList_push]
  rfl

theorem PhysicalGic.enablesOf_modifyLine (g : PhysicalGic) (k : Nat) (f : PhysicalLine → PhysicalLine) (id : Nat) :
    (g.modifyLine k f).enablesOf id = g.enablesOf id := by
  unfold PhysicalGic.enablesOf
  rw [PhysicalGic.enables_modifyLine]

theorem PhysicalGic.Spares.enablesOf (h : gic.Spares gic' id) : gic'.enablesOf id = gic.enablesOf id := by
  unfold PhysicalGic.enablesOf
  rw [h.enables]

namespace RegisterGroup

/-- What passing a record on does to the physical line. -/
def mark (g : RegisterGroup) (s : Interrupt) (p : PhysicalLine) : PhysicalLine :=
  match g with
  | setEnable | clearEnable => { p with enabled := s.enabled }
  | setPending | clearPending => { p with pending := s.state.pending }
  | setActive | clearActive => { p with active := s.state.active }
  | priority => { p with priority := s.priority }
  | config => { p with config := s.config }
  | targets | route => { p with delivery := s.delivery }
  | misc | group | groupModifier | nonSecureAccess | softwareInterrupt | clearRequesters
  | setRequesters | identification => p

/-- Whether writing to the group enables or disables interrupts. -/
def switches : RegisterGroup → Bool
  | setEnable | clearEnable => true
  | _ => false

theorem line?_push (g : RegisterGroup) : (g.push l s gic).line? l.id = (gic.line? l.id).map (g.mark s) := by
  cases g with
  | misc | group | groupModifier | nonSecureAccess | softwareInterrupt | clearRequesters | setRequesters
  | identification => exact Option.map_id'.symm
  | _ => exact (PhysicalGic.line?_modifyLine ..).trans (if_pos rfl)

theorem enablesOf_push (g : RegisterGroup) :
    (g.push l s gic).enablesOf l.id = gic.enablesOf l.id ++ if g.switches then [s.enabled] else [] := by
  cases g with
  | setEnable | clearEnable => exact PhysicalGic.enablesOf_setEnabled ..
  | misc | group | groupModifier | nonSecureAccess | softwareInterrupt | clearRequesters | setRequesters
  | identification => exact (List.append_nil _).symm
  | _ => exact (PhysicalGic.enablesOf_modifyLine ..).trans (List.append_nil _).symm

/-- The line that a record was passed on to shows what it says. -/
theorem mirrors_mark (g : RegisterGroup) (h : p.Mirrors s) :
    (g.mark (g.apply vm l v s) p).Mirrors (g.apply vm l v s) := by
  obtain ⟨h1, h2, h3, h4⟩ := h
  cases g <;> simp only [apply, mark] <;> (try split) <;> constructor <;> first | rfl | assumption

theorem delivery_apply (g : RegisterGroup) (derived : s.delivery = vm.delivery l s) :
    (g.apply vm l v s).delivery = vm.delivery l (g.apply vm l v s) := by
  cases g <;> simp only [apply] <;> (try split)
  case targets.isFalse | route.isFalse => exact (Vm.delivery_eq rfl rfl).symm
  all_goals exact derived.trans (Vm.delivery_eq rfl rfl)

/-- A write that makes no difference to its field makes none to the settings: the delivery, which is worked out again,
comes out the same. -/
theorem sameSettings_apply (g : RegisterGroup) (derived : s.delivery = vm.delivery l s)
    (same : g.differs s (g.apply vm l v s) = false) : s.SameSettings (g.apply vm l v s) := by
  have field : ∀ {α : Type} [BEq α] [LawfulBEq α] {a b : α}, (a != b) = false → b = a := fun h =>
    (bne_eq_false_iff_eq.1 h).symm
  obtain ⟨h1, h2, h3, h4, h5, h6⟩ : (g.apply vm l v s).enabled = s.enabled ∧ (g.apply vm l v s).priority = s.priority ∧
      (g.apply vm l v s).config = s.config ∧ (g.apply vm l v s).group1 = s.group1 ∧
      (g.apply vm l v s).targets = s.targets ∧ (g.apply vm l v s).route = s.route := by
    cases g <;> refine ⟨?_, ?_, ?_, ?_, ?_, ?_⟩ <;> first | rfl | exact field same | (simp only [apply]; split <;> rfl)
  exact ⟨h1, h2, h3, h4, h5, h6, (delivery_apply g derived).trans ((Vm.delivery_eq h5 h6).trans derived.symm),
    (g.apply_keeps vm l v s).2.2.2⟩

theorem enabled_apply (g : RegisterGroup) (h : g.switches = false) : (g.apply vm l v s).enabled = s.enabled := by
  cases g with
  | setEnable | clearEnable => cases h
  | _ => simp only [apply] <;> (try split) <;> rfl

theorem differs_of_switches (g : RegisterGroup) (h : g.switches = true) : g.differs s t = (s.enabled != t.enabled) := by
  cases g <;> first | rfl | cases h

end RegisterGroup
end Edit

namespace Core

variable {c c' : Core} {l : Line} {bs : List Bool}

/-! ## One line -/

/-- A hardware interrupt, and no other one stands before its physical line. -/
structure Wired (c : Core) (l : Line) : Prop where
  station : c.Stationed
  has : c.vm.Has l
  hardware : (c.interrupt l).hardware = true
  alone : ∀ k, c.vm.Has k → (c.interrupt k).hardware = true → k.id = l.id → k = l

theorem Sound.wired (hs : c.Sound) {id : Nat} (hid : id ∈ c.vm.partition.passthrough) : c.Wired (.shared id) := by
  have checked := hs.station.checked
  obtain ⟨hge, hlt⟩ := checked.passthrough_range id hid
  have has : c.vm.Has (.shared id) :=
    ⟨hlt, ⟨fun hb => (by cases hb), fun hp => absurd hp (Nat.not_lt_of_le hge)⟩, fun _ hh => (by cases hh)⟩
  refine ⟨hs.station, has, (hs.records _ has).passed.2 hid, fun k hk hw e => ?_⟩
  exact Vm.eq_of_home hk has ((hs.records k hk).shared_of_hardware checked hk hw) e

theorem Wired.change (h : c.Wired l) (w : Change c c') : c'.Wired l := by
  have confined := w.confined h.station
  have has : ∀ k, c'.vm.Has k ↔ c.vm.Has k := Vm.has_congr confined.partition
  refine ⟨h.station.same w.same, (has l).2 h.has, (confined.hardware l).trans h.hardware, fun k hk hw => ?_⟩
  exact h.alone k ((has k).1 hk) ((confined.hardware k).symm.trans hw)

/-- A change that leaves an interrupt's settings alone, and of its physical line all but whether it is active. -/
structure Steady (l : Line) (c c' : Core) : Prop where
  settings : (c.interrupt l).SameSettings (c'.interrupt l)
  line : ∀ p, c.gic.line? l.id = some p → ∃ on, c'.gic.line? l.id = some { p with active := on }
  enables : c'.gic.enablesOf l.id = c.gic.enablesOf l.id

theorem Steady.of_spares (settings : (c.interrupt l).SameSettings (c'.interrupt l)) (h : c.gic.Spares c'.gic l.id) :
    Steady l c c' :=
  ⟨settings, fun p hp => ⟨p.active, h.line.trans hp⟩, h.enablesOf⟩

theorem Steady.of_same (hi : c'.interrupt l = c.interrupt l) (hg : c'.gic = c.gic) : Steady l c c' :=
  .of_spares (hi ▸ .refl _) (hg ▸ .refl ..)

theorem steady_setActive (c : Core) (l : Line) (id : Nat) (on : Bool) : Steady l c { c with gic := c.gic.setActive id on } := by
  by_cases hid : id = l.id
  · refine ⟨.refl _, fun p hp => ⟨on, ?_⟩, PhysicalGic.enablesOf_modifyLine ..⟩
    show (c.gic.setActive id on).line? l.id = _
    rw [PhysicalGic.setActive, PhysicalGic.line?_modifyLine, if_pos hid, hp]
    rfl
  · exact .of_spares (.refl _) (PhysicalGic.spares_modifyLine hid _)

/-- A write to a field of an interrupt does nothing to the line of another one. -/
theorem steady_assign {k : Line} (w : c.Wired l) (has : c.vm.Has k) (hk : k ≠ l) (g : RegisterGroup) (v : BitVec 64) :
    Steady l c (c.assign g k v) := by
  refine .of_spares ?_ ?_
  · rw [interrupt_assign, if_neg hk]
    exact .refl _
  · rw [gic_assign]
    split
    next pushed =>
      rw [Bool.and_eq_true] at pushed
      exact g.spares_push fun e => hk (w.alone k has pushed.2 e)
    next => exact .refl ..

/-- **The settings of a hardware interrupt and its line change by the writes to its fields only.** -/
theorem Change.steady_or_field (h : Change c c') (w : c.Wired l) : Steady l c c' ∨ ∃ g v, c' = c.assign g l v := by
  cases h with
  | write h =>
    cases h with
    | record k s settings =>
      refine .inl (.of_spares ?_ (.refl ..))
      rw [interrupt_setInterrupt]
      split
      next e => rw [← e]; exact settings
      next => exact .refl _
    | field g k v has =>
      by_cases hk : k = l
      · exact .inr ⟨g, v, by rw [hk]⟩
      · exact .inl (steady_assign w has hk g v)
    | list home ids => exact .inl (.of_same (Vm.interrupt_setSpillList ..) rfl)
    | occupant n id => exact .inl (.of_same (Vm.interrupt_setOccupant ..) rfl)
    | asleep v on => exact .inl (.of_same (Vm.interrupt_setAsleep ..) rfl)
    | interface f => exact .inl (.of_same rfl rfl)
    | line k on => exact .inl (steady_setActive c l k.id on)
    | post target r p =>
      refine .inl (.of_spares ?_ (spares_post ..))
      rw [(posted_post c target r p).alike.interrupt]
      exact .refl _
  | enables e => exact .inl (.of_same (by cases l <;> rfl) rfl)
  | sync | take => exact .inl (.of_same rfl rfl)

/-! ## What the line shows -/

theorem mirrors_assign (w : c.Wired l) (h : c.vm.Mirrors c.gic l) (g : RegisterGroup) (v : BitVec 64) :
    (c.assign g l v).vm.Mirrors (c.assign g l v).gic l := by
  obtain ⟨⟨p, hp, shows⟩, derived⟩ := h
  have record : (c.assign g l v).vm.interrupt l = g.apply c.vm l v (c.interrupt l) :=
    (interrupt_assign c g l v l).trans (if_pos rfl)
  have partition := (Write.same (.field g l v w.has)).partition
  refine ⟨?_, ?_⟩
  · rw [record, gic_assign, w.hardware, Bool.and_true]
    split
    next => exact ⟨_, by rw [g.line?_push, hp]; rfl, g.mirrors_mark shows⟩
    next same => exact ⟨p, hp, shows.settings (g.sameSettings_apply derived (Bool.eq_false_iff.2 same))⟩
  · rw [record, Vm.delivery_congr partition]
    exact g.delivery_apply derived

theorem Change.mirrors (h : Change c c') (w : c.Wired l) (hm : c.vm.Mirrors c.gic l) : c'.vm.Mirrors c'.gic l := by
  rcases h.steady_or_field w with steady | ⟨g, v, rfl⟩
  · obtain ⟨⟨p, hp, shows⟩, derived⟩ := hm
    obtain ⟨on, hline⟩ := steady.line p hp
    have s := steady.settings
    refine ⟨⟨_, hline, .settings ⟨shows.enabled, shows.priority, shows.config, shows.delivery⟩ s⟩, ?_⟩
    rw [Vm.delivery_congr h.same.partition]
    exact s.delivery.trans (derived.trans (Vm.delivery_eq s.targets s.route).symm)
  · exact mirrors_assign w hm g v

/-! ## Switching -/

/-- The value that the enable bit of an interrupt was given, where it changed. -/
def switched (l : Line) (c c' : Core) : List Bool :=
  if (c'.interrupt l).enabled = (c.interrupt l).enabled then [] else [(c'.interrupt l).enabled]

/-- The values that the enable bit of an interrupt takes, one after another, while a core makes its changes. -/
inductive Switches (l : Line) (c : Core) : List Bool → Core → Prop
  | refl : Switches l c [] c
  | tail {bs : List Bool} {d e : Core} (h : Switches l c bs d) (w : Change d e) : Switches l c (bs ++ switched l d e) e

theorem exists_switches (l : Line) (h : Changes c c') : ∃ bs, Switches l c bs c' := by
  induction h with
  | refl => exact ⟨[], .refl⟩
  | tail _ w ih =>
    obtain ⟨bs, h⟩ := ih
    exact ⟨_, h.tail w⟩

theorem enablesOf_assign (w : c.Wired l) (g : RegisterGroup) (v : BitVec 64) :
    (c.assign g l v).gic.enablesOf l.id = c.gic.enablesOf l.id ++ switched l c (c.assign g l v) := by
  unfold switched
  rw [interrupt_assign, if_pos rfl, gic_assign, w.hardware, Bool.and_true]
  cases hg : g.switches with
  | true =>
    rw [g.differs_of_switches hg]
    by_cases e : (g.apply c.vm l v (c.interrupt l)).enabled = (c.interrupt l).enabled
    · rw [if_pos e, e, bne_self_eq_false, if_neg Bool.false_ne_true, List.append_nil]
    · rw [if_neg e, if_pos (bne_iff_ne.2 (Ne.symm e)), g.enablesOf_push, hg]
      rfl
  | false =>
    rw [if_pos (g.enabled_apply hg), List.append_nil]
    split
    next => rw [g.enablesOf_push, hg]; exact List.append_nil _
    next => rfl

/-- **A change enables or disables the line as it changes the bit in the record.** -/
theorem Change.enablesOf (h : Change c c') (w : c.Wired l) :
    c'.gic.enablesOf l.id = c.gic.enablesOf l.id ++ switched l c c' := by
  rcases h.steady_or_field w with steady | ⟨g, v, rfl⟩
  · rw [switched, if_pos steady.settings.enabled, List.append_nil]
    exact steady.enables
  · exact enablesOf_assign w g v

/-! ## Runs of changes -/

theorem Changes.wired (h : Changes c c') (w : c.Wired l) : c'.Wired l := by
  induction h with
  | refl => exact w
  | tail _ hd ih => exact ih.change hd

theorem Changes.mirrors (h : Changes c c') (w : c.Wired l) (hm : c.vm.Mirrors c.gic l) : c'.vm.Mirrors c'.gic l := by
  induction h with
  | refl => exact hm
  | tail hc hd ih => exact hd.mirrors (Changes.wired hc w) ih

theorem Switches.changes (h : Switches l c bs c') : Changes c c' := by
  induction h with
  | refl => exact .refl
  | tail _ w ih => exact .tail ih w

/-- **The line is enabled and disabled in step with the record**: each new value of the bit is written once. -/
theorem Switches.enablesOf (h : Switches l c bs c') (w : c.Wired l) :
    c'.gic.enablesOf l.id = c.gic.enablesOf l.id ++ bs := by
  induction h with
  | refl => exact (List.append_nil _).symm
  | tail h hd ih => rw [hd.enablesOf (h.changes.wired w), ih, List.append_assoc]

end Core

/-! ## At the start -/

section Create
variable {vm vm' : Vm} {g g' : PhysicalGic} {id : Nat}

theorem Vm.passThroughAll_lines (ids : List Nat) (vm : Vm) (g : PhysicalGic) (h : passThroughAll ids vm g = (.ok vm', g'))
    (k : Nat) :
    (k ∉ ids → g'.line? k = g.line? k ∧ (vm'.interrupt (.shared k)).delivery = (vm.interrupt (.shared k)).delivery) ∧
    (k ∈ ids → g'.line? k =
        (g.line? k).map ({ · with delivery := vm.delivery (.shared k) (vm.interrupt (.shared k)) }) ∧
      (vm'.interrupt (.shared k)).delivery = vm.delivery (.shared k) (vm.interrupt (.shared k))) := by
  induction ids generalizing vm g with
  | nil =>
    simp only [passThroughAll, Prod.mk.injEq, Except.ok.injEq] at h
    rw [h.1, h.2]
    exact ⟨fun _ => ⟨rfl, rfl⟩, fun hk => absurd hk List.not_mem_nil⟩
  | cons id rest ih =>
    unfold passThroughAll at h
    split at h
    next vm₁ g₁ h₁ =>
      obtain ⟨rfl, rfl⟩ := passThrough_eq_ok h₁
      obtain ⟨others, those⟩ := ih _ _ h
      rw [delivery_congr (partition_setInterrupt ..)] at those
      rw [interrupt_setInterrupt, PhysicalGic.setDelivery, PhysicalGic.line?_modifyLine] at others those
      by_cases hk : id = k
      · subst hk
        rw [if_pos rfl, if_pos rfl] at others those
        refine ⟨fun hn => absurd List.mem_cons_self hn, fun _ => ?_⟩
        by_cases hr : id ∈ rest
        · -- the line is listed twice, and its delivery comes out the same
          obtain ⟨hline, hdel⟩ := those hr
          rw [Option.map_map] at hline
          exact ⟨hline, hdel⟩
        · exact others hr
      · rw [if_neg hk, if_neg fun e => hk (Line.shared.inj e)] at others those
        exact ⟨fun hn => others fun hr => hn (List.mem_cons_of_mem _ hr),
          fun hm => those ((List.mem_cons.1 hm).resolve_left (Ne.symm hk))⟩
    next => cases h

/-- A new VM's records and the lines it takes over are at reset, except for the delivery, which it writes to both. -/
theorem Vm.mirrors_create {p : Partition} {cpus : Nat} (h : create p cpus g = (.ok vm, g')) (hid : id ∈ p.passthrough)
    (hg : g.line? id = some .reset) : vm.Mirrors g' (.shared id) := by
  obtain ⟨-, -, all⟩ := create_eq_ok h
  obtain ⟨hline, hdel⟩ := (passThroughAll_lines _ _ _ all id).2 hid
  obtain ⟨hp, -, hi⟩ := passThroughAll_spec _ _ _ all
  obtain ⟨hw, d, e, -⟩ := hi (.shared id)
  obtain ⟨d₀, e₀⟩ := interrupt_reset_shared p id
  refine ⟨⟨_, by rw [show (Line.shared id).id = id from rfl, hline, hg]; rfl, ?_⟩, ?_⟩
  · refine ⟨?_, ?_, ?_, hdel.symm⟩ <;> rw [e, e₀] <;> rfl
  · rw [hdel, delivery_congr hp, e]
    exact (delivery_eq rfl rfl).symm

end Create

namespace Machine

variable {m m' : Machine} {cpu i j : Nat} {c c' : Core} {vm : Vm} {ds : List Deed}

/-- The lines that are passed through show what the records say. -/
def Mirrored (m : Machine) : Prop :=
  ∀ (i : Nat) (vm : Vm), m.vms[i]? = some vm → ∀ id ∈ vm.partition.passthrough, vm.Mirrors m.gic (.shared id)

theorem mirrored_of_boot {cpus : Nat} {sizes : List Nat} {doorbell : Bool} {ps : List Partition}
    (h : boot cpus sizes doorbell ps = .ok m) : m.Mirrored := by
  -- the lines that no table has passed through yet are at reset
  refine (boot_induct (P := fun m ps => m.Mirrored ∧
    ∀ id < maxInterrupts, (∀ p ∈ ps, id ∉ p.passthrough) → m.gic.line? id = some .reset) h ⟨?_, ?_⟩ ?_).2.1
  · intro i vm hi
    simp [create] at hi
  · intro id hid _
    exact (if_pos hid).trans (congrArg some (Table.get_constant ..))
  · rintro m m' earlier p new hm ⟨mirrored, unused⟩ hj apart
    have others : ∀ q ∈ earlier, ∀ id ∈ q.passthrough, id ∉ p.passthrough := fun q hq => (apart q hq).passthrough
    obtain ⟨hpart, -⟩ := Vm.create_spec hj.created
    obtain ⟨checked, -, taken⟩ := Vm.create_eq_ok hj.created
    have spared : ∀ id ∉ p.passthrough, m'.gic.line? id = m.gic.line? id := fun id hid =>
      ((Vm.passThroughAll_lines _ _ _ taken id).1 hid).1
    refine ⟨fun i vm hi id hid => ?_, fun id hlt hid => ?_⟩
    · rcases hj.vm_cases hi with hi | ⟨-, rfl⟩
      · exact (mirrored i vm hi id hid).spared (spared id (others _ (hm.partitions i vm hi) id hid))
      · rw [hpart] at hid
        have hlt := Nat.lt_of_lt_of_le (checked.passthrough_range id hid).2 checked.count_le
        exact Vm.mirrors_create hj.created hid (unused id hlt fun q hq hq' => others q hq id hq' hid)
    · rw [spared id (hid p (List.mem_append_right _ (List.mem_singleton.2 rfl)))]
      exact unused id hlt fun q hq => hid q (List.mem_append_left _ hq)

theorem Mirrored.move (h : m.Mirrored) (hs : m.Sound) (hsep : m.Separate) (hc : m.core? cpu = some (i, c))
    (hmv : c.Move ds c') : (m.putCore i c').Mirrored := by
  intro j vm hj id hid
  rcases vm_of_putCore hc hj with ⟨rfl, rfl⟩ | ⟨hne, hj⟩
  · rw [(hmv.local_ (hs.core hc)).partition] at hid
    have before := h j c.vm (vm_of_core? hc) id hid
    rw [← gic_of_core? hc] at before
    exact (hmv.changes (hs.core hc).station).mirrors ((hs.core hc).wired hid) before
  · exact (h j vm hj id hid).spared ((Untouched.move hs hsep hc hmv hj hne).lines id hid).line

theorem Arises.mirrored (h : m.Arises) : m.Mirrored :=
  h.induct (fun _ _ _ _ _ hb => mirrored_of_boot hb) fun _ _ _ _ _ _ hm ih hc hmv =>
    ih.move hm.sound hm.separate hc hmv

/-- What a step writes to the enable bits of the physical lines. -/
structure Follows (m : Machine) (e : Event) : Prop where
  /-- A line that is passed through to the VM of the CPU: each value that the bit in the record takes, once, however the
  step is taken apart into single changes. -/
  switched : ∀ (i : Nat) (c : Core), m.core? e.cpu = some (i, c) → ∀ id ∈ c.vm.partition.passthrough,
    (∃ bs, Core.Switches (.shared id) c bs (c.act e.action)) ∧
    ∀ bs, Core.Switches (.shared id) c bs (c.act e.action) → (m.step e).gic.enablesOf id = m.gic.enablesOf id ++ bs
  /-- Any other line: nothing. -/
  spared : ∀ id, (∀ i c, m.core? e.cpu = some (i, c) → id ∉ c.vm.partition.passthrough) →
    (m.step e).gic.enablesOf id = m.gic.enablesOf id
  /-- Nor do the records of the other VMs change. -/
  elsewhere : ∀ (j : Nat) (vm : Vm), m.vms[j]? = some vm → (∀ c, m.core? e.cpu ≠ some (j, c)) →
    (m.step e).vms[j]? = some vm

theorem Arises.follows (h : m.Arises) (e : Event) : m.Follows e := by
  obtain ⟨cpu, a⟩ := e
  cases hc : m.core? cpu with
  | none =>
    have idle := step_of_idle hc a
    refine ⟨fun i c hc' => ?_, fun id _ => by rw [idle], fun j vm hj _ => by rw [idle]; exact hj⟩
    rw [hc] at hc'
    cases hc'
  | some ic =>
    obtain ⟨i, c⟩ := ic
    have hs := h.sound.core hc
    have changes := Core.changes_act hs.station a
    have after : (m.step ⟨cpu, a⟩).gic = (c.act a).gic := by
      rw [step_of_core? hc]
      rfl
    refine ⟨fun i' c' hc' id hid => ?_, fun id hid => ?_, fun j vm hj hne => ?_⟩
    · obtain ⟨rfl, rfl⟩ := Prod.mk.inj (Option.some.inj (hc.symm.trans hc'))
      refine ⟨Core.exists_switches _ changes, fun bs hbs => ?_⟩
      rw [after, ← gic_of_core? hc]
      exact hbs.enablesOf (hs.wired hid)
    · rw [after, ← gic_of_core? hc]
      exact ((changes.confined hs.station).spares hs (hid i c hc)).enablesOf
    · rw [step_of_core? hc]
      exact (vms_putCore _ _ _ _ fun e => hne c (by rw [← e]; exact hc)).trans hj

/-- **The physical distributor mirrors the records.**  At all times each line that is passed through shows what the
record says, and a step enables and disables it exactly as the record's bit changes, and no other line. -/
theorem Arises.lines_mirror_records (h : m.Arises) : m.Mirrored ∧ ∀ e, m.Follows e := ⟨h.mirrored, h.follows⟩

theorem lines_mirror_records_paired : paired.gic.enablesOf 40 = [true] ∧
    (∃ i c, paired.core? 0 = some (i, c) ∧
      Core.Switches (.shared 40) c [false] (c.act (store (distributorBase + 0x184) 4 0x100))) ∧
    paired.Mirrored ∧ ∀ e, paired.Follows e := by
  have mirrors := reachable_paired.arises.lines_mirror_records
  have enabled : paired.gic.enablesOf 40 = [true] := by decide +kernel
  have mine : (paired.core? 0).any (fun ic => decide (40 ∈ ic.2.vm.partition.passthrough)) = true := by decide +kernel
  obtain ⟨⟨i, c⟩, hc, hid⟩ := (Option.any_eq_true _ _).1 mine
  refine ⟨enabled, ⟨i, c, hc, ?_⟩, mirrors⟩
  obtain ⟨⟨bs, hbs⟩, written⟩ :=
    (mirrors.2 ⟨0, store (distributorBase + 0x184) 4 0x100⟩).switched i c hc 40 (of_decide_eq_true hid)
  have disabled : (paired.step ⟨0, store (distributorBase + 0x184) 4 0x100⟩).gic.enablesOf 40 = [true] ++ [false] := by
    decide +kernel
  have e := written bs hbs
  rw [disabled, enabled] at e
  rw [List.append_cancel_left e]
  exact hbs

end Machine
end VirtualGic
