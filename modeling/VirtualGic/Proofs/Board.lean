import VirtualGic.DeviceTree.Discovery
/-!
# Boards

What discovery makes of a device tree, whatever the bytes in memory are.  What is read of a node lies within the tree, and the
node within its parent (`Holds.read_within`).  The record says what the tree says: the console is the first node that is
compatible with one, the interrupt controller the first of version 3 or else the first of version 2, and their addresses are
those of their regions (`describes_of_describe`).  A record that has been through any number of trees is fit for partitioning
(`fit_of_foldlM`).
-/
namespace VirtualGic
namespace DeviceTree

variable {α β : Type} {ts rest : List Token} {bytes after : Bytes} {devices : List String} {n : Node}
  {info info' : PlatformInfo}

theorem exists_of_bind {x : Except Fault α} {f : α → Except Fault β} {b : β} (h : x >>= f = .ok b) :
    ∃ a, x = .ok a ∧ f a = .ok b := by
  cases x with
  | error e => cases h
  | ok a => exact ⟨a, rfl, h⟩

/-! ## Reading within the tree -/

theorem suffix_of_word? {k : Nat} (h : word? bytes = some (k, after)) : after <:+ bytes := by
  unfold word? at h
  split at h
  next a b c d rest =>
    cases h
    exact ⟨[a, b, c, d], rfl⟩
  next => cases h

theorem suffix_of_property? {strings : Option Bytes} {p : Property} (h : property? strings bytes = some (p, after)) :
    after <:+ bytes ∧ p.value <:+: bytes := by
  obtain ⟨⟨size, sized⟩, hsize, h⟩ := Option.bind_eq_some_iff.1 h
  obtain ⟨⟨offset, named⟩, hoffset, h⟩ := Option.bind_eq_some_iff.1 h
  have behind : named <:+ bytes := (suffix_of_word? hoffset).trans (suffix_of_word? hsize)
  dsimp only at h
  split at h
  next =>
    obtain ⟨name, -, e⟩ := Option.map_eq_some_iff.1 h
    cases e
    exact ⟨(List.drop_suffix ..).trans behind, (List.take_prefix ..).isInfix.trans behind.isInfix⟩
  next => cases h

/-- A property's value is part of the structure block. -/
theorem infix_of_mem_tokens {strings : Option Bytes} {p : Property} (h : .property p ∈ tokens strings bytes) :
    p.value <:+: bytes := by
  fun_induction tokens strings bytes with
  | case1 => cases h
  | case2 => cases List.mem_singleton.1 h
  | case3 bytes rest hw name _ ih =>
    -- behind the name of a node
    have later := ih ((List.mem_cons.1 h).resolve_left nofun)
    exact later.trans ((List.drop_suffix ..).trans (suffix_of_word? hw)).isInfix
  | case4 bytes rest hw ih =>
    exact (ih ((List.mem_cons.1 h).resolve_left nofun)).trans (suffix_of_word? hw).isInfix
  | case5 => cases List.mem_singleton.1 h
  | case6 bytes rest hw q rest' hp ih =>
    -- it is this property or one behind it
    obtain ⟨behind, value⟩ := suffix_of_property? hp
    have word := (suffix_of_word? hw).isInfix
    rcases List.mem_cons.1 h with e | later
    · cases e
      exact value.trans word
    · exact (ih later).trans (behind.isInfix.trans word)
  | case7 bytes rest hw ih =>
    exact (ih ((List.mem_cons.1 h).resolve_left nofun)).trans (suffix_of_word? hw).isInfix
  | case8 => cases List.mem_singleton.1 h
  | case9 => cases List.mem_singleton.1 h

theorem skipNops_suffix (ts : List Token) : skipNops ts <:+ ts := by
  fun_induction skipNops ts with
  | case1 ts ih => exact ih.trans (List.suffix_cons ..)
  | case2 => exact List.suffix_rfl

theorem suffix_of_skipProperties (h : skipProperties ts = .ok rest) : rest <:+ ts := by
  fun_induction skipProperties ts with
  | case1 _ ts ih => exact (ih h).trans (List.suffix_cons ..)
  | case2 => cases h
  | case3 =>
    cases h
    exact List.suffix_rfl

theorem mem_of_mem_properties {p : Property} (h : p ∈ (properties ts).items) : .property p ∈ ts := by
  fun_induction properties ts with
  | case1 ts ih => exact List.mem_cons_of_mem _ (ih h)
  | case2 q ts ih =>
    rcases List.mem_cons.1 h with rfl | later
    · exact List.mem_cons_self
    · exact List.mem_cons_of_mem _ (ih later)
  | case3 => cases h
  | case4 => cases h

/-- A node that begins in the tree, and in the content of its parent if it has one. -/
structure Node.Within (n : Node) (ts : List Token) : Prop where
  begins : .beginNode (some n.name) :: n.content <:+ ts
  parent : ∀ content ∈ n.parent?, content <:+ ts ∧ .beginNode (some n.name) :: n.content <:+ content

/-- The walk keeps the contents of the nodes around it, each of which ends with what is left of the tree. -/
theorem within_of_mem_nodesFrom {whole : List Token} {around : List (List Token)} (left : ts <:+ whole)
    (nested : ∀ content ∈ around, content <:+ whole ∧ ts <:+ content) (h : n ∈ (nodesFrom around ts).items) :
    n.Within whole := by
  fun_induction nodesFrom around ts with
  | case1 => cases h
  | case2 rest content around ih =>
    -- the innermost node ends
    have step : rest <:+ Token.endNode :: rest := List.suffix_cons ..
    exact ih (step.trans left) (fun c hc => (nested c (List.mem_cons_of_mem _ hc)).imp_right step.trans) h
  | case3 => cases h
  | case4 => cases h
  | case5 => cases h
  | case6 around ts _ name content hn _ t rest hp ih =>
    -- a node begins, and goes around what is left once its properties are behind it
    have begins : Token.beginNode (some name) :: content <:+ ts := hn ▸ skipNops_suffix ts
    have inside : content <:+ ts := (List.suffix_cons ..).trans begins
    have behind : t :: rest <:+ content := (suffix_of_skipProperties hp).trans (skipNops_suffix content)
    rcases List.mem_cons.1 h with rfl | later
    · refine ⟨begins.trans left, fun c hc => ?_⟩
      obtain ⟨tree, parent⟩ := nested c (List.mem_of_mem_head? hc)
      exact ⟨tree, begins.trans parent⟩
    · refine ih (behind.trans (inside.trans left)) (fun c hc => ?_) later
      rcases List.mem_cons.1 hc with rfl | outer
      · exact ⟨inside.trans left, behind⟩
      · obtain ⟨tree, parent⟩ := nested c outer
        exact ⟨tree, behind.trans (inside.trans parent)⟩
  | case7 => cases h
  | case8 => cases h
  | case9 => cases h

theorem infix_of_slice? {block : Bytes} {offset size : Nat} (h : slice? bytes offset size = some block) : block <:+: bytes := by
  unfold slice? at h
  split at h
  next =>
    cases h
    exact (List.take_prefix ..).isInfix.trans (List.drop_suffix ..).isInfix
  next => cases h

/-- The bytes are a tree that is complete, and these are the tokens of its structure block. -/
def Holds (bytes : Bytes) (ts : List Token) : Prop :=
  ∃ h block, header? bytes = some h ∧ slice? bytes h.structOffset h.structSize = some block ∧
    ts = tokens (slice? bytes h.stringsOffset h.stringsSize) block

/-- **Nothing is read from outside the tree**: each node begins within it and within its parent, and what its properties say
is part of the bytes. -/
theorem Holds.read_within (h : Holds bytes ts) (hn : n ∈ (nodesFrom [] ts).items) :
    n.Within ts ∧ ∀ p ∈ (properties n.content).items, p.value <:+: bytes := by
  obtain ⟨header, block, -, hblock, rfl⟩ := h
  have within := within_of_mem_nodesFrom List.suffix_rfl (List.forall_mem_nil _) hn
  refine ⟨within, fun p hp => ?_⟩
  have inside := within.begins.subset (List.mem_cons_of_mem _ (mem_of_mem_properties hp))
  exact (infix_of_mem_tokens inside).trans (infix_of_slice? hblock)

/-! ## Finding a node -/

namespace Listing

variable {l : Listing α} {p : α → Except Fault Bool} {a : α}

theorem go_eq_some_iff (items : List α) : find.go l p items = .ok (some a) ↔
    ∃ before after, items = before ++ a :: after ∧ p a = .ok true ∧ ∀ b ∈ before, p b = .ok false := by
  induction items with
  | nil =>
    refine iff_of_false (fun h => ?_) fun ⟨before, after, e, _⟩ => by cases before <;> cases e
    unfold find.go at h
    split at h <;> cases h
  | cons x rest ih =>
    unfold find.go
    cases hx : p x with
    | error e =>
      refine iff_of_false nofun fun ⟨before, after, split, found, earlier⟩ => ?_
      cases before with
      | nil => cases split; cases hx.symm.trans found
      | cons b before => cases split; cases hx.symm.trans (earlier x List.mem_cons_self)
    | ok yes =>
      cases yes with
      | true =>
        constructor
        · intro h
          cases h
          exact ⟨[], rest, rfl, hx, List.forall_mem_nil _⟩
        · rintro ⟨before, after, split, -, earlier⟩
          cases before with
          | nil => cases split; rfl
          | cons b before => cases split; cases hx.symm.trans (earlier x List.mem_cons_self)
      | false =>
        refine ih.trans ⟨?_, ?_⟩
        · rintro ⟨before, after, split, found, earlier⟩
          exact ⟨x :: before, after, by rw [split]; rfl, found, List.forall_mem_cons.2 ⟨hx, earlier⟩⟩
        · rintro ⟨before, after, split, found, earlier⟩
          cases before with
          | nil => cases split; cases hx.symm.trans found
          | cons b before =>
            cases split
            exact ⟨before, after, rfl, found, fun b hb => earlier b (List.mem_cons_of_mem _ hb)⟩

theorem go_eq_none_iff (items : List α) :
    find.go l p items = .ok none ↔ l.fault? = none ∧ ∀ b ∈ items, p b = .ok false := by
  induction items with
  | nil =>
    unfold find.go
    cases l.fault? with
    | none => exact iff_of_true rfl ⟨rfl, List.forall_mem_nil _⟩
    | some e => exact iff_of_false nofun fun h => by cases h.1
  | cons x rest ih =>
    unfold find.go
    rw [List.forall_mem_cons]
    cases hx : p x with
    | error e => exact iff_of_false nofun fun h => by cases h.2.1
    | ok yes =>
      cases yes with
      | true => exact iff_of_false nofun fun h => by cases h.2.1
      | false => exact ih.trans (and_congr_right fun _ => (and_iff_right rfl).symm)

end Listing

/-- The first node of the tree that is compatible with one of these devices. -/
def Finds (ts : List Token) (devices : List String) (n : Node) : Prop :=
  ∃ before after, (nodesFrom [] ts).items = before ++ n :: after ∧ isCompatible devices n = .ok true ∧
    ∀ b ∈ before, isCompatible devices b = .ok false

/-- The whole tree can be walked over, and no node of it is compatible with one of these devices. -/
def Lacks (ts : List Token) (devices : List String) : Prop :=
  (nodesFrom [] ts).fault? = none ∧ ∀ n ∈ (nodesFrom [] ts).items, isCompatible devices n = .ok false

theorem findCompatible_eq_some_iff : findCompatible ts devices = .ok (some n) ↔ Finds ts devices n :=
  Listing.go_eq_some_iff _

theorem findCompatible_eq_none_iff : findCompatible ts devices = .ok none ↔ Lacks ts devices :=
  Listing.go_eq_none_iff _

/-! ## Regions -/

theorem word?_lt {k : Nat} (h : word? bytes = some (k, after)) : k < 0x100000000 := by
  unfold word? at h
  split at h
  next a b c d rest =>
    cases h
    have := a.toNat_lt
    have := b.toNat_lt
    have := c.toNat_lt
    have := d.toNat_lt
    omega
  next => cases h

theorem cells?_lt {count k : Nat} (h : cells? count bytes = some (k, after)) : k < 0x10000000000000000 := by
  unfold cells? at h
  split at h
  next => exact Nat.lt_trans (word?_lt h) (by decide)
  next =>
    obtain ⟨⟨high, between⟩, hhigh, h⟩ := Option.bind_eq_some_iff.1 h
    obtain ⟨⟨low, rest⟩, hlow, e⟩ := Option.map_eq_some_iff.1 h
    cases e
    have := word?_lt hhigh
    have := word?_lt hlow
    omega
  next => cases h

/-- The start and the size of a region fit into an address. -/
structure Region.Fits (r : Region) : Prop where
  start : r.start < 0x10000000000000000
  size : r.size < 0x10000000000000000

theorem fits_of_region? {c : CellCounts} {r : Region} (h : region? c bytes = some (r, after)) : r.Fits := by
  obtain ⟨⟨start, rest⟩, hstart, h⟩ := Option.bind_eq_some_iff.1 h
  dsimp only at h
  split at h
  next =>
    cases h
    exact ⟨cells?_lt hstart, (by decide : 0 < 0x10000000000000000)⟩
  next =>
    obtain ⟨⟨size, rest'⟩, hsize, e⟩ := Option.map_eq_some_iff.1 h
    cases e
    exact ⟨cells?_lt hstart, cells?_lt hsize⟩

/-- The regions of a node fit into addresses, and a second one comes after a first one. -/
theorem fits_of_regions {first? second? : Option Region} (h : regions n = .ok (first?, second?)) :
    (∀ r ∈ first?, r.Fits) ∧ (∀ r ∈ second?, r.Fits) ∧ (first? = none → second? = none) := by
  obtain ⟨c, -, h⟩ := exists_of_bind h
  split at h
  next =>
    cases h
    exact ⟨nofun, nofun, fun _ => rfl⟩
  next =>
    cases hp : (properties n.content).find fun p => .ok (p.name == "reg") with
    | error e => rw [hp] at h; cases h
    | ok found =>
      rw [hp] at h
      cases found with
      | none =>
        cases h
        exact ⟨nofun, nofun, fun _ => rfl⟩
      | some p =>
        cases hr : region? c p.value with
        | none =>
          simp only [Except.map, hr] at h
          cases h
          exact ⟨nofun, nofun, fun _ => rfl⟩
        | some read =>
          obtain ⟨first, rest⟩ := read
          simp only [Except.map, hr] at h
          cases h
          refine ⟨fun r e => ?_, fun r e => ?_, nofun⟩
          · cases e
            exact fits_of_region? hr
          · obtain ⟨⟨second, behind⟩, hsecond, e⟩ := Option.map_eq_some_iff.1 e
            cases e
            exact fits_of_region? hsecond

/-! ## The board -/

/-- A base is where a region starts or, without one, a default. -/
def Starts (region? : Option Region) (default base : BitVec 64) : Prop :=
  match region? with
  | none => base = default
  | some r => base.toNat = r.start

theorem starts_of_fits {r : Region} (h : r.Fits) (default : BitVec 64) : Starts (some r) default (BitVec.ofNat 64 r.start) :=
  (BitVec.toNat_ofNat ..).trans (Nat.mod_eq_of_lt h.start)

/-- The console of a record, as the tree has it. -/
inductive Console (ts : List Token) (uart : BitVec 64) : Prop
  | found {n : Node} {first? second? : Option Region} (node : Finds ts ["arm,pl011"] n)
      (regions : regions n = .ok (first?, second?)) (base : Starts first? uartBase uart)
  | missing (node : Lacks ts ["arm,pl011"]) (base : uart = uartBase)

/-- The interrupt controller of a record, as the tree has it.  A node of version 3 comes first.  Version 2 has no
redistributors, whatever the second region of its node is. -/
inductive Controller (ts : List Token) (info : PlatformInfo) : Prop
  | v3 {n : Node} {first? second? : Option Region} (node : Finds ts ["arm,gic-v3"] n)
      (regions : regions n = .ok (first?, second?)) (version : info.version = .v3)
      (distributor : Starts first? distributorBase info.distributor)
      (redistributor : Starts second? redistributorBase info.redistributor)
      (size : info.redistributorSize.toNat = (second?.map Region.size).getD 0)
  | v2 {n : Node} {first? second? : Option Region} (other : Lacks ts ["arm,gic-v3"])
      (node : Finds ts ["arm,cortex-a15-gic", "arm,gic-400"] n) (regions : regions n = .ok (first?, second?))
      (version : info.version = .v2) (distributor : Starts first? distributorBase info.distributor)
      (redistributor : info.redistributor = 0) (size : info.redistributorSize = 0)
  | missing (other : Lacks ts ["arm,gic-v3"]) (node : Lacks ts ["arm,cortex-a15-gic", "arm,gic-400"])
      (version : info.version = .v3) (distributor : info.distributor = distributorBase)
      (redistributor : info.redistributor = redistributorBase) (size : info.redistributorSize = 0)

/-- The record says what the tree says. -/
structure Describes (ts : List Token) (info : PlatformInfo) : Prop where
  console : Console ts info.uart
  controller : Controller ts info
  cpus : ∃ count, cpuCount ts = .ok count ∧ info.cpus = if count = 0 then PlatformInfo.default.cpus else min count maxCpus

theorem noteConsole_spec (h : noteConsole ts .default = .ok info) :
    Console ts info.uart ∧ info = { PlatformInfo.default with uart := info.uart } := by
  obtain ⟨found, hfound, h⟩ := exists_of_bind h
  cases found with
  | none =>
    cases h
    exact ⟨.missing (findCompatible_eq_none_iff.1 hfound) rfl, rfl⟩
  | some n =>
    have node := findCompatible_eq_some_iff.1 hfound
    obtain ⟨⟨first?, second?⟩, hregions, h⟩ := exists_of_bind h
    cases first? with
    | none =>
      cases h
      exact ⟨.found node hregions rfl, rfl⟩
    | some r =>
      cases h
      exact ⟨.found node hregions (starts_of_fits ((fits_of_regions hregions).1 r rfl) _), rfl⟩

theorem noteController_spec {uart : BitVec 64}
    (h : noteController ts { PlatformInfo.default with uart := uart } = .ok info) :
    Controller ts info ∧ info.uart = uart ∧ info.cpus = PlatformInfo.default.cpus := by
  obtain ⟨found, hfound, h⟩ := exists_of_bind h
  cases found with
  | some n =>
    have node := findCompatible_eq_some_iff.1 hfound
    obtain ⟨⟨first?, second?⟩, hregions, h⟩ := exists_of_bind h
    obtain ⟨fits, fits', order⟩ := fits_of_regions hregions
    cases first? with
    | none =>
      cases order rfl
      cases h
      exact ⟨.v3 node hregions rfl rfl rfl rfl, rfl, rfl⟩
    | some r =>
      have distributor := starts_of_fits (fits r rfl) distributorBase
      cases second? with
      | none =>
        cases h
        exact ⟨.v3 node hregions rfl distributor rfl rfl, rfl, rfl⟩
      | some r' =>
        have size : (BitVec.ofNat 64 r'.size).toNat = r'.size := Nat.mod_eq_of_lt (fits' r' rfl).size
        cases h
        exact ⟨.v3 node hregions rfl distributor (starts_of_fits (fits' r' rfl) _) size, rfl, rfl⟩
  | none =>
    have other := findCompatible_eq_none_iff.1 hfound
    obtain ⟨found, hfound, h⟩ := exists_of_bind h
    cases found with
    | none =>
      cases h
      exact ⟨.missing other (findCompatible_eq_none_iff.1 hfound) rfl rfl rfl rfl, rfl, rfl⟩
    | some n =>
      have node := findCompatible_eq_some_iff.1 hfound
      obtain ⟨⟨first?, second?⟩, hregions, h⟩ := exists_of_bind h
      cases first? with
      | none =>
        cases h
        exact ⟨.v2 other node hregions rfl rfl rfl rfl, rfl, rfl⟩
      | some r =>
        cases h
        exact ⟨.v2 other node hregions rfl (starts_of_fits ((fits_of_regions hregions).1 r rfl) _) rfl rfl, rfl, rfl⟩

theorem Controller.withCpus (h : Controller ts info) (count : Nat) : Controller ts { info with cpus := count } := by
  cases h with
  | v3 node regions version distributor redistributor size =>
    exact .v3 node regions version distributor redistributor size
  | v2 other node regions version distributor redistributor size =>
    exact .v2 other node regions version distributor redistributor size
  | missing other node version distributor redistributor size =>
    exact .missing other node version distributor redistributor size

/-- **A record says of a board what the tree says**, with every address as it is written there. -/
theorem describes_of_describe (h : describe ts = .ok info) : Describes ts info := by
  obtain ⟨first, hconsole, h⟩ := exists_of_bind h
  obtain ⟨second, hcontroller, h⟩ := exists_of_bind h
  obtain ⟨console, e⟩ := noteConsole_spec hconsole
  rw [e] at hcontroller
  obtain ⟨controller, uart, cpus⟩ := noteController_spec hcontroller
  rw [← uart] at console
  obtain ⟨count, hcount, h⟩ := exists_of_bind h
  by_cases none : count = 0
  · rw [none] at h hcount
    cases h
    exact ⟨console, controller, 0, hcount, cpus⟩
  · rw [if_neg (none ∘ beq_iff_eq.1)] at h
    cases h
    exact ⟨console, controller.withCpus _, count, hcount, (if_neg none).symm⟩

/-! ## Reading trees one after another -/

/-- A board that can be partitioned: it has CPUs, no more than there may be, and redistributors under version 3 only. -/
structure Fit (info : PlatformInfo) : Prop where
  some_cpu : 0 < info.cpus
  cpus_le : info.cpus ≤ maxCpus
  redistributors : info.version = .v2 → info.redistributor = 0 ∧ info.redistributorSize = 0

theorem fit_default : Fit .default := ⟨by decide, by decide, nofun⟩

theorem Describes.fit (h : Describes ts info) : Fit info := by
  obtain ⟨count, -, cpus⟩ := h.cpus
  have bounds : 0 < info.cpus ∧ info.cpus ≤ maxCpus := by
    rw [cpus]
    split
    next => decide
    next some => exact ⟨Nat.lt_min.2 ⟨Nat.pos_of_ne_zero some, by decide⟩, Nat.min_le_right ..⟩
  refine ⟨bounds.1, bounds.2, fun v2 => ?_⟩
  cases h.controller with
  | v3 _ _ version => cases v2.symm.trans version
  | v2 _ _ _ _ _ redistributor size => exact ⟨redistributor, size⟩
  | missing _ _ version => cases v2.symm.trans version

theorem discover_cases {read? : Option PlatformInfo} (h : discover bytes = .ok read?) :
    header? bytes = none ∧ read? = none ∨ ∃ ts info, Holds bytes ts ∧ Describes ts info ∧ read? = some info := by
  unfold discover at h
  split at h
  next noHeader =>
    cases h
    exact .inl ⟨noHeader, rfl⟩
  next header hheader =>
    split at h
    next => cases h
    next block hblock =>
      cases hd : describe (tokens (slice? bytes header.stringsOffset header.stringsSize) block) with
      | error e => rw [hd] at h; cases h
      | ok info =>
        rw [hd] at h
        cases h
        exact .inr ⟨_, info, ⟨header, block, hheader, hblock, rfl⟩, describes_of_describe hd, rfl⟩

/-- **Memory that holds a tree decides the record, and other memory leaves it as it is.** -/
theorem update_cases {memory : Bytes} (h : update info memory = .ok info') :
    header? (memory.take (headerWord memory 1)) = none ∧ info' = info ∨
      ∃ ts, Holds (memory.take (headerWord memory 1)) ts ∧ Describes ts info' := by
  unfold update at h
  cases hd : discover (memory.take (headerWord memory 1)) with
  | error e => rw [hd] at h; cases h
  | ok read? =>
    rw [hd] at h
    cases h
    rcases discover_cases hd with ⟨noHeader, rfl⟩ | ⟨ts, read, holds, described, rfl⟩
    · exact .inl ⟨noHeader, rfl⟩
    · exact .inr ⟨ts, holds, described⟩

/-- **A record stays fit** however many trees are read, whole or broken. -/
theorem fit_of_foldlM {memories : List Bytes} (fit : Fit info) (h : memories.foldlM update info = .ok info') : Fit info' := by
  induction memories generalizing info with
  | nil =>
    cases h
    exact fit
  | cons memory memories ih =>
    rw [List.foldlM_cons] at h
    obtain ⟨next, hnext, h⟩ := exists_of_bind h
    refine ih ?_ h
    rcases update_cases hnext with ⟨-, rfl⟩ | ⟨ts, -, described⟩
    · exact fit
    · exact described.fit

end DeviceTree
end VirtualGic
