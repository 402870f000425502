/-!
# Device tree tokens

A flattened device tree is a header, a block of structure and a block of strings.
`tokens` reads the structure block once; what is broken in it becomes a token too, so
that it matters only to those who come upon it.

Discovery does not read trees itself but through a library that is no part of the system.
This module and `Node` write out what that library does with a tree, whole or broken, as
far as discovery comes upon it: they describe its behaviour, not its code.
-/
namespace VirtualGic.DeviceTree

abbrev Bytes := List UInt8

/-! ## Numbers and text -/

/-- A big-endian word, and the bytes after it. -/
def word? : Bytes → Option (Nat × Bytes)
  | a :: b :: c :: d :: rest =>
    some (((a.toNat * 256 + b.toNat) * 256 + c.toNat) * 256 + d.toNat, rest)
  | _ => none

/-- A number of one or two words, and the bytes after it. -/
def cells? : Nat → Bytes → Option (Nat × Bytes)
  | 1, bytes => word? bytes
  | 2, bytes =>
    (word? bytes).bind fun (high, rest) =>
      (word? rest).map fun (low, rest) => (high * 0x100000000 + low, rest)
  | _, _ => none

theorem length_of_word? {bytes rest : Bytes} {n : Nat} (h : word? bytes = some (n, rest)) :
    rest.length < bytes.length := by
  unfold word? at h
  split at h
  · simp only [Option.some.injEq, Prod.mk.injEq] at h
    simp only [← h.2, List.length_cons]; omega
  · simp at h

def text? (bytes : Bytes) : Option String := String.fromUTF8? ⟨bytes.toArray⟩

/-- The bytes before the first zero, if there is one. -/
def terminated? (bytes : Bytes) : Option Bytes :=
  if bytes.contains 0 then some (bytes.takeWhile (· != 0)) else none

/-- A size rounded up to whole words. -/
def aligned (n : Nat) : Nat := (n + 3) / 4 * 4

/-- Part of a block, if it lies within. -/
def slice? (bytes : Bytes) (offset size : Nat) : Option Bytes :=
  if offset + size ≤ bytes.length then some ((bytes.drop offset).take size) else none

/-! ## Header -/

structure Header where
  totalSize : Nat
  structOffset : Nat
  structSize : Nat
  stringsOffset : Nat
  stringsSize : Nat

def magic : Nat := 0xD00DFEED

def headerWord (bytes : Bytes) (n : Nat) : Nat :=
  ((word? (bytes.drop (4 * n))).map (·.1)).getD 0

def headerLength : Nat := 40

/-- The header of a device tree that is complete. -/
def header? (bytes : Bytes) : Option Header :=
  if bytes.length < headerLength then none
  else if headerWord bytes 0 != magic then none
  else if bytes.length < headerWord bytes 1 then none
  else
    some {
      totalSize := headerWord bytes 1
      structOffset := headerWord bytes 2
      stringsOffset := headerWord bytes 3
      stringsSize := headerWord bytes 8
      structSize := headerWord bytes 9 }

/-! ## Structure -/

structure Property where
  name : String
  value : Bytes

inductive Token where
  /-- A node begins; its name is absent when it is not text. -/
  | beginNode (name : Option String)
  | endNode
  | property (p : Property)
  | nop
  | stop
  /-- A node whose name has no end. -/
  | brokenNode
  /-- A property that is cut short, or whose name cannot be read. -/
  | brokenProperty
  | unknown

/-- The property name at an offset of the string block. -/
def nameAt? (strings : Option Bytes) (offset : Nat) : Option String :=
  strings.bind fun s =>
    if offset ≤ s.length then (terminated? (s.drop offset)).bind text? else none

/-- The property whose length, name offset and value come next, and the bytes after it. -/
def property? (strings : Option Bytes) (bytes : Bytes) : Option (Property × Bytes) :=
  (word? bytes).bind fun (size, rest) =>
    (word? rest).bind fun (offset, rest) =>
      if size ≤ rest.length then
        (nameAt? strings offset).map fun name =>
          (⟨name, rest.take size⟩, rest.drop (aligned size))
      else none

theorem length_of_property? {strings : Option Bytes} {bytes rest : Bytes} {p : Property}
    (h : property? strings bytes = some (p, rest)) : rest.length ≤ bytes.length := by
  obtain ⟨⟨size, r1⟩, h1, h⟩ := Option.bind_eq_some_iff.1 h
  obtain ⟨⟨offset, r2⟩, h2, h⟩ := Option.bind_eq_some_iff.1 h
  have l1 := length_of_word? h1
  have l2 := length_of_word? h2
  dsimp only at h
  split at h
  · obtain ⟨name, -, e⟩ := Option.map_eq_some_iff.1 h
    rw [← (Prod.mk.inj e).2, List.length_drop]; omega
  · cases h

/-- The tokens of a structure block, up to the first that ends it or is broken. -/
def tokens (strings : Option Bytes) (bytes : Bytes) : List Token :=
  match _h : word? bytes with
  | none => []
  | some (1, rest) =>
    match terminated? rest with
    | none => [.brokenNode]
    | some name => .beginNode (text? name) :: tokens strings (rest.drop (aligned (name.length + 1)))
  | some (2, rest) => .endNode :: tokens strings rest
  | some (3, rest) =>
    match _p : property? strings rest with
    | none => [.brokenProperty]
    | some (q, rest') => .property q :: tokens strings rest'
  | some (4, rest) => .nop :: tokens strings rest
  | some (5, _) => [.stop]
  | some _ => [.unknown]
termination_by bytes.length
decreasing_by
  · have := length_of_word? _h
    simp only [List.length_drop]; omega
  · exact length_of_word? _h
  · exact Nat.lt_of_le_of_lt (length_of_property? _p) (length_of_word? _h)
  · exact length_of_word? _h

end VirtualGic.DeviceTree
