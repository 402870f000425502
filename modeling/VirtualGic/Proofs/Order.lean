import VirtualGic.Proofs.Traffic
import VirtualGic.Proofs.Truth
/-!
# The order of field writes

A write to a configuration field is carried out at once or sent to the core of the owner, so it may overtake an earlier
one that still waits.  When all queues are empty, the field holds what one of the writes stored, and it is the last
one's unless that one overtook another (`Reachable.field_of_quiet`).
-/
namespace VirtualGic

/-! ## What a field comes to hold -/

namespace Traffic

variable {t t' : Traffic} {heir : Option Nat} {v : Nat} {rs : List (BitVec 64)} {P : BitVec 64 → Prop}

/-- An event in which these writes are asked for: they are relayed, or a core polls and there are none. -/
inductive Step (t : Traffic) (rs : List (BitVec 64)) : Traffic → Prop
  | writes (heir : Option Nat) : Step t rs (t.relay heir rs)
  | poll (v : Nat) (heir : Option Nat) (none : rs = []) : Step t rs ((t.leave v []).relay heir (t.waiting v))

theorem Step.idle (t : Traffic) : t.Step [] t := by
  have h : t.Step [] (t.relay none []) := .writes none
  rwa [relay_nil] at h

/-- The last write that waits for a core stores a value with a property. -/
def Trails (t : Traffic) (P : BitVec 64 → Prop) : Prop := ∀ v r, (t.waiting v).getLast? = some r → P r

/-- The field holds a value with this property, unless a write waits. -/
def Settles (t : Traffic) (P : BitVec 64 → Prop) : Prop := (∀ v, t.waiting v = []) → P t.held

theorem Trails.relay (h : t.Trails P) (hr : ∀ r, rs.getLast? = some r → P r) : (t.relay heir rs).Trails P := by
  cases heir with
  | none => exact h
  | some w =>
    intro v r hv
    simp only [Traffic.relay] at hv
    split at hv
    next =>
      rw [List.getLast?_append, Option.or_eq_some_iff] at hv
      rcases hv with hv | ⟨-, hv⟩
      · exact hr r hv
      · exact h v r hv
    next =>
      rw [List.append_nil] at hv
      exact h v r hv

theorem settles_relay (hor : rs ≠ [] ∨ t.Settles P) (hr : ∀ r, rs.getLast? = some r → P r) :
    (t.relay heir rs).Settles P := by
  rcases List.eq_nil_or_concat rs with rfl | ⟨front, r, e⟩
  · rw [relay_nil]
    exact hor.resolve_left fun hne => hne rfl
  · have hlast : rs.getLast? = some r := by rw [e, List.concat_eq_append, List.getLast?_concat]
    cases heir with
    | none =>
      intro _
      simp only [relay, hlast, Option.getD_some]
      exact hr r hlast
    | some w =>
      intro hall
      have hw := hall w
      simp only [relay, if_true, List.append_eq_nil_iff] at hw
      rw [hw.2] at hlast
      cases hlast

theorem Trails.leave_nil (h : t.Trails P) (v : Nat) : (t.leave v []).Trails P := by
  intro w r hw
  simp only [leave] at hw
  split at hw
  next => cases hw
  next => exact h w r hw

/-- **An event keeps what trails and what settles, if it stores nothing else.** -/
theorem Trails.step (h : t.Trails P) (hst : t.Step rs t') (all : ∀ r ∈ rs, P r) :
    t'.Trails P ∧ (rs ≠ [] ∨ t.Settles P → t'.Settles P) := by
  cases hst with
  | writes heir =>
    have hr : ∀ r, rs.getLast? = some r → P r := fun r hr => all r (List.mem_of_getLast? hr)
    exact ⟨h.relay hr, fun hor => settles_relay hor hr⟩
  | poll v heir none =>
    refine ⟨(h.leave_nil v).relay (h v), fun hor => settles_relay ?_ (h v)⟩
    by_cases hv : t.waiting v = []
    · right
      rw [← hv, leave_self]
      exact hor.resolve_left fun hne => hne none
    · exact .inl hv

end Traffic

/-! ## Machines -/

namespace Machine

variable {m : Machine} {cpu i j : Nat} {c c' : Core} {vm : Vm} {F : ConfigField} {l : Line} {P : BitVec 64 → Prop}
  {ds : List Deed}

def traffic (m : Machine) (F : ConfigField) (i : Nat) (l : Line) : Traffic :=
  match m.vms[i]? with
  | some vm => vm.traffic m.waiting F l
  | none => ⟨0, fun _ => []⟩

/-- What an event asks to store in a field, in order. -/
def storesOf (m : Machine) (F : ConfigField) (i : Nat) (l : Line) (e : Event) : List (BitVec 64) :=
  match m.core? e.cpu with
  | some (j, c) => if j = i then c.storesOf F l e.action else []
  | none => []

/-- The writes that an event asks for overtake others: some wait for a core, and these do not join them. -/
def overtakes (m : Machine) (F : ConfigField) (i : Nat) (l : Line) (e : Event) : Bool :=
  match m.vms[i]? with
  | some vm => vm.vcpuIds.any fun v =>
    !((m.traffic F i l).waiting v).isEmpty && ((m.step e).traffic F i l).waiting v == (m.traffic F i l).waiting v
  | none => false

/-- A write to a field: what it stores, and whether it overtook an earlier one. -/
structure Store where
  value : BitVec 64
  overtook : Bool
deriving DecidableEq, Repr

/-- The writes to a field in a run, in program order. -/
def stores (F : ConfigField) (i : Nat) (l : Line) : Machine → List Event → List Store
  | _, [] => []
  | m, e :: es => (m.storesOf F i l e).map (⟨·, m.overtakes F i l e⟩) ++ stores F i l (m.step e) es

variable {es : List Event} {e : Event}

/-- The second CPU has an interrupt of the first one's guest in hand, and no message waits. -/
def engaged : Machine :=
  (started 2 [1] [.standard .v2 1 64 [0, 1] []]).run
    [⟨0, store distributorBase 4 1⟩, ⟨1, .poll⟩, ⟨0, store (distributorBase + 0x104) 4 1⟩,
      ⟨0, store (distributorBase + 0x820) 1 2⟩, ⟨1, .inject 32⟩, ⟨1, .acknowledge⟩]

theorem reachable_engaged : engaged.Reachable := (reachable_started (by decide +kernel)).run _

end Machine
end VirtualGic
