import VirtualGic.DeviceTree.Token
/-!
# Device tree nodes

Walking over the tokens of a tree: all its nodes in document order, the properties and
children of one node, and the search for a node by name.  A walk that comes upon
something broken ends in a `Fault`.  Like the tokens, the walks are those of the library
through which discovery reads a tree.
-/
namespace VirtualGic.DeviceTree

inductive Fault where
  /-- The structure block does not lie within the tree. -/
  | structureOutside
  | brokenNode
  | brokenProperty
  | unbalanced
  | tooDeep
  /-- A node does not end where it must. -/
  | unfinished
  /-- A cell count shorter than a word. -/
  | shortCount
  | noCpus
deriving DecidableEq, Repr

/-- What a walk finds before it ends, and the fault that ends it, if any. -/
structure Listing (α : Type) where
  items : List α
  fault? : Option Fault

namespace Listing

variable {α : Type}

def finished : Listing α := ⟨[], none⟩

def broken (e : Fault) : Listing α := ⟨[], some e⟩

def cons (a : α) (l : Listing α) : Listing α := { l with items := a :: l.items }

def all (l : Listing α) : Except Fault (List α) :=
  match l.fault? with
  | some e => .error e
  | none => .ok l.items

/-- The first item with a property; a fault matters only if there is none. -/
def find (l : Listing α) (p : α → Except Fault Bool) : Except Fault (Option α) :=
  go l.items
where
  go : List α → Except Fault (Option α)
    | [] =>
      match l.fault? with
      | some e => .error e
      | none => .ok none
    | a :: rest =>
      match p a with
      | .error e => .error e
      | .ok true => .ok (some a)
      | .ok false => go rest

end Listing

structure Node where
  name : String
  /-- The tokens from the node's first property on. -/
  content : List Token
  /-- The content of the parent; the root has none. -/
  parent? : Option (List Token)

/-! ## Skipping -/

def skipNops : List Token → List Token
  | .nop :: ts => skipNops ts
  | ts => ts

def skipProperties : List Token → Except Fault (List Token)
  | .property _ :: ts => skipProperties ts
  | .brokenProperty :: _ => .error .brokenProperty
  | ts => .ok ts

/-- What may still come before a node ends. -/
inductive Phase where
  | properties
  | children
  | ending
deriving DecidableEq

/-- Skip the rest of a node and of `depth` nodes around it: properties, then children, then
nothing but the end. -/
def skipNode (phase : Phase) (depth : Nat) : List Token → Except Fault (List Token)
  | .property _ :: ts =>
    if phase = .properties then skipNode .properties depth ts else .error .unfinished
  | .brokenProperty :: _ => .error .brokenProperty
  | .beginNode (some _) :: ts =>
    if phase = .ending then .error .unfinished else skipNode .properties (depth + 1) ts
  | .beginNode none :: _ | .brokenNode :: _ => .error .brokenNode
  | .nop :: ts => skipNode .ending depth ts
  | .endNode :: ts =>
    match depth with
    | 0 => .ok ts
    | depth + 1 => skipNode .children depth ts
  | .stop :: _ | .unknown :: _ | [] => .error .unfinished

theorem length_skipNops (ts : List Token) : (skipNops ts).length ≤ ts.length := by
  fun_induction skipNops ts with
  | case1 ts ih => exact Nat.le_succ_of_le ih
  | case2 => exact Nat.le_refl _

theorem length_of_skipProperties {ts rest : List Token} (h : skipProperties ts = .ok rest) :
    rest.length ≤ ts.length := by
  fun_induction skipProperties ts with
  | case1 _ ts ih => exact Nat.le_succ_of_le (ih h)
  | case2 => simp at h
  | case3 => simp at h; simp [h]

theorem length_of_skipNode {ts rest : List Token} {phase : Phase} {depth : Nat}
    (h : skipNode phase depth ts = .ok rest) : rest.length < ts.length := by
  fun_induction skipNode phase depth ts <;> simp_all <;> omega

/-! ## Walks -/

def properties : List Token → Listing Property
  | .nop :: ts => properties ts
  | .property p :: ts => (properties ts).cons p
  | .brokenProperty :: _ => .broken .brokenProperty
  | _ => .finished

def maxDepth : Nat := 63

/-- The nodes from a position on, given the contents of the nodes around it.  A node is found once
its properties are behind it. -/
def nodesFrom (around : List (List Token)) (ts : List Token) : Listing Node :=
  match ts with
  | .endNode :: rest =>
    match around with
    | [] => .broken .unbalanced
    | _ :: around => nodesFrom around rest
  | ts =>
    match _n : skipNops ts with
    | .beginNode (some name) :: content =>
      if maxDepth ≤ around.length then .broken .tooDeep
      else
        match _p : skipProperties (skipNops content) with
        | .error e => .broken e
        | .ok [] => .finished
        | .ok (t :: rest) =>
          (nodesFrom (content :: around) (t :: rest)).cons ⟨name, content, around.head?⟩
    | .beginNode none :: _ | .brokenNode :: _ => .broken .brokenNode
    | _ => .finished
termination_by ts.length
decreasing_by
  · simp
  · have l1 := length_skipNops ts
    have l2 := length_skipNops content
    have l3 := length_of_skipProperties _p
    rw [_n] at l1
    simp only [List.length_cons] at l1 l3 ⊢
    omega

/-- The part of a name before its first `@`. -/
def baseName (name : String) : List Char := name.toList.takeWhile (· != '@')

/-- The first of consecutive children with this base name. -/
def findNamed (base : String) (parent : List Token) (ts : List Token) :
    Except Fault (Option Node) :=
  match ts with
  | .beginNode (some name) :: content =>
    if baseName name = base.toList then .ok (some ⟨name, content, some parent⟩)
    else
      match _s : skipNode .properties 0 content with
      | .error e => .error e
      | .ok rest => findNamed base parent rest
  | .brokenNode :: _ => .error .brokenNode
  | _ => .ok none
termination_by ts.length
decreasing_by
  have := length_of_skipNode _s
  simp only [List.length_cons]; omega

/-- The root, which comes first and has an empty base name. -/
def root? (ts : List Token) : Option Node :=
  match skipNops ts with
  | .beginNode (some name) :: content =>
    if (baseName name).isEmpty then some ⟨name, content, none⟩ else none
  | _ => none

def Node.child? (n : Node) (base : String) : Except Fault (Option Node) :=
  match skipProperties (skipNops n.content) with
  | .error e => .error e
  | .ok ts => findNamed base n.content ts

/-- The names of consecutive child nodes, up to the first that is not text. -/
def childNames (ts : List Token) : Except Fault (List String) :=
  match _n : skipNops ts with
  | .beginNode (some name) :: content =>
    match _s : skipNode .properties 0 content with
    | .error e => .error e
    | .ok rest => (childNames rest).map (name :: ·)
  | .brokenNode :: _ => .error .brokenNode
  | _ => .ok []
termination_by ts.length
decreasing_by
  have l1 := length_skipNops ts
  have l2 := length_of_skipNode _s
  rw [_n] at l1
  simp only [List.length_cons] at l1
  omega

/-- The names of a node's children.  Something must follow the node's properties. -/
def Node.childNames (n : Node) : Except Fault (List String) :=
  match skipProperties (skipNops n.content) with
  | .error e => .error e
  | .ok [] => .error .unfinished
  | .ok ts => DeviceTree.childNames ts

end VirtualGic.DeviceTree
