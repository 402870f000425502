import VirtualGic.DeviceTree.Node
import VirtualGic.Platform
/-!
# What a device tree says about the board

The console, the interrupt controller and the number of CPUs.  What the tree does not
say stays at its default.
-/
namespace VirtualGic.DeviceTree

/-! ## Compatible strings -/

/-- The pieces between zeros; the last piece needs none. -/
def pieces : Bytes → List Bytes
  | [] => []
  | b :: rest =>
    if b == 0 then [] :: pieces rest
    else
      match pieces rest with
      | [] => [[b]]
      | p :: ps => (b :: p) :: ps

/-- The strings of a list of strings, up to the first that is not text. -/
def texts (bytes : Bytes) : List String :=
  (((pieces bytes).map text?).takeWhile (·.isSome)).filterMap id

/-- Whether a node is compatible with one of several devices.  Its last list counts. -/
def isCompatible (devices : List String) (n : Node) : Except Fault Bool :=
  (properties n.content).all.map fun ps =>
    match (ps.filter (·.name == "compatible")).getLast? with
    | none => false
    | some p => (texts p.value).any devices.contains

/-- The first node in document order that is compatible with one of several devices. -/
def findCompatible (ts : List Token) (devices : List String) : Except Fault (Option Node) :=
  (nodesFrom [] ts).find (isCompatible devices)

/-! ## Regions -/

structure Region where
  start : Nat
  /-- Zero when the tree gives none. -/
  size : Nat

/-- The numbers of cells of an address and of a size. -/
structure CellCounts where
  address : Nat
  size : Nat

def CellCounts.default : CellCounts := ⟨2, 1⟩

def CellCounts.note (c : CellCounts) (p : Property) : Except Fault CellCounts :=
  if p.name == "#address-cells" then
    match word? p.value with
    | some (n, _) => .ok { c with address := n }
    | none => .error .shortCount
  else if p.name == "#size-cells" then
    match word? p.value with
    | some (n, _) => .ok { c with size := n }
    | none => .error .shortCount
  else .ok c

/-- The counts that a parent sets for its children. -/
def cellCounts (parent? : Option (List Token)) : Except Fault CellCounts :=
  match parent? with
  | none => .ok .default
  | some content => (properties content).all.bind (·.foldlM CellCounts.note CellCounts.default)

/-- The next region of a list, and the bytes after it. -/
def region? (c : CellCounts) (bytes : Bytes) : Option (Region × Bytes) :=
  (cells? c.address bytes).bind fun (start, rest) =>
    if c.size == 0 then some (⟨start, 0⟩, rest)
    else (cells? c.size rest).map fun (size, rest) => (⟨start, size⟩, rest)

/-- The first two regions of a node. -/
def regions (n : Node) : Except Fault (Option Region × Option Region) :=
  (cellCounts n.parent?).bind fun c =>
    if 2 < c.address || 2 < c.size then .ok (none, none)
    else
      ((properties n.content).find fun p => .ok (p.name == "reg")).map fun
        | none => (none, none)
        | some p =>
          match region? c p.value with
          | none => (none, none)
          | some (first, rest) => (some first, (region? c rest).map (·.1))

/-! ## The board -/

def noteConsole (ts : List Token) (info : PlatformInfo) : Except Fault PlatformInfo := do
  let some n ← findCompatible ts ["arm,pl011"] | return info
  let (some r, _) ← regions n | return info
  return { info with uart := BitVec.ofNat 64 r.start }

/-- A version 3 controller lists its distributor and its redistributors, a version 2 controller
its distributor. -/
def noteController (ts : List Token) (info : PlatformInfo) : Except Fault PlatformInfo := do
  match ← findCompatible ts ["arm,gic-v3"] with
  | some n =>
    let info := { info with version := .v3 }
    match ← regions n with
    | (none, _) => return info
    | (some d, none) => return { info with distributor := BitVec.ofNat 64 d.start }
    | (some d, some r) =>
      return { info with
        distributor := BitVec.ofNat 64 d.start
        redistributor := BitVec.ofNat 64 r.start
        redistributorSize := BitVec.ofNat 64 r.size }
  | none =>
    let some n ← findCompatible ts ["arm,cortex-a15-gic", "arm,gic-400"] | return info
    let info := { info with version := .v2, redistributor := 0 }
    let (some d, _) ← regions n | return info
    return { info with distributor := BitVec.ofNat 64 d.start }

/-- The CPUs are the children of `/cpus` named `cpu`. -/
def cpuCount (ts : List Token) : Except Fault Nat := do
  let some root := root? ts | throw .noCpus
  let some cpus ← root.child? "cpus" | throw .noCpus
  let names ← cpus.childNames
  return (names.filter fun name => baseName name == "cpu".toList).length

def noteCpus (ts : List Token) (info : PlatformInfo) : Except Fault PlatformInfo := do
  let count ← cpuCount ts
  return if count == 0 then info else { info with cpus := min count maxCpus }

def describe (ts : List Token) : Except Fault PlatformInfo :=
  (noteConsole ts .default).bind fun info =>
    (noteController ts info).bind (noteCpus ts)

/-- What a device tree in memory says, or nothing if there is none. -/
def discover (bytes : Bytes) : Except Fault (Option PlatformInfo) :=
  match header? bytes with
  | none => .ok none
  | some h =>
    match slice? bytes h.structOffset h.structSize with
    | none => .error .structureOutside
    | some block =>
      (describe (tokens (slice? bytes h.stringsOffset h.stringsSize) block)).map some

/-- What is known about the board once the device tree at an address has been read: as before if
there is none.  The tree's header says how much memory belongs to it. -/
def update (info : PlatformInfo) (memory : Bytes) : Except Fault PlatformInfo :=
  (discover (memory.take (headerWord memory 1))).map (·.getD info)

end VirtualGic.DeviceTree
