import Mathlib.Data.Nat.Bitwise
import Mathlib.Logic.Function.Basic

/-!
# Two cascaded interrupt controllers

The 8259A with fixed priorities: line 0 comes first. The four initialization words set the vector of
line 0 (`base`) and the wiring of the cascade; the sequence is modelled with a cascade and a fourth
word. A line is acknowledged when it is not masked and no line of the same or a higher priority is
in service; a non-specific end of interrupt takes the line of the highest priority out of service. The
second controller is wired to line 2 of the first.
-/

namespace Pic8259

structure Pic where
  /-- the initialization words still to come, 0 when the controller works -/
  awaiting : Nat
  base : Nat
  wiring : Nat
  autoEnd : Bool
  mask : Nat
  inService : Nat → Bool

namespace Pic

/-- A non-specific end of interrupt. -/
def endOfInterrupt (p : Pic) : Pic :=
  match (List.range 8).find? p.inService with
  | some i => { p with inService := Function.update p.inService i false }
  | none => p

/-- A write to the command port: the first initialization word, or an end of interrupt. -/
def command (v : Nat) (p : Pic) : Pic :=
  if v &&& 0x13 = 0x11 then { p with awaiting := 3, mask := 0, inService := fun _ => false }
  else if v = 0x20 then p.endOfInterrupt
  else p

/-- A write to the data port: an initialization word, or the mask. -/
def data (v : Nat) (p : Pic) : Pic :=
  match p.awaiting with
  | 3 => { p with base := v / 8 * 8, awaiting := 2 }
  | 2 => { p with wiring := v, awaiting := 1 }
  | 1 => { p with autoEnd := v.testBit 1, awaiting := 0 }
  | _ => { p with mask := v }

/-- Line `i` gets through. -/
def accepts (i : Nat) (p : Pic) : Bool :=
  p.awaiting = 0 && !p.mask.testBit i && (List.range (i + 1)).all fun j => !p.inService j

/-- Line `i` is in service. -/
def serve (i : Nat) (p : Pic) : Pic :=
  if p.autoEnd then p else { p with inService := Function.update p.inService i true }

end Pic

structure Pair where
  master : Pic
  slave : Pic

/-- The lines a device can be on: line 2 is the cascade. -/
abbrev Line := { i : Fin 16 // i ≠ 2 }

namespace Pair

/-- The slave is wired to line 2, and is told so. -/
def cascaded (P : Pair) : Bool := P.master.wiring.testBit 2 && P.slave.wiring = 2

/-- The vector that the processor gets for a line, if it gets through. -/
def raise (l : Line) (P : Pair) : Option (Nat × Pair) :=
  if l.1.1 < 8 then
    if P.master.accepts l.1.1 then
      some (P.master.base + l.1.1, { P with master := P.master.serve l.1.1 })
    else none
  else if P.cascaded && P.master.accepts 2 && P.slave.accepts (l.1.1 - 8) then
    some (P.slave.base + (l.1.1 - 8), ⟨P.master.serve 2, P.slave.serve (l.1.1 - 8)⟩)
  else none

/-- A request that is gone when the processor asks for its vector: line 7, and nothing in service
there. -/
def spurious (slave : Bool) (P : Pair) : Option (Nat × Pair) :=
  if slave then
    if P.cascaded && P.master.accepts 2 then
      some (P.slave.base + 7, { P with master := P.master.serve 2 })
    else none
  else if P.master.awaiting = 0 then some (P.master.base + 7, P) else none

end Pair

/-! ## A controller with nothing to do -/

/-- The controller works, with all lines open and none in service. -/
structure Idle (base wiring : Nat) (p : Pic) : Prop where
  awaiting : p.awaiting = 0
  base : p.base = base
  wiring : p.wiring = wiring
  autoEnd : p.autoEnd = false
  mask : p.mask = 0
  inService : p.inService = fun _ => false

variable {base wiring : Nat} {p : Pic}

theorem Idle.accepts (h : Idle base wiring p) (i : Nat) : p.accepts i = true := by
  simp [Pic.accepts, h.awaiting, h.mask, h.inService]

/-- The end of the interrupt brings the controller back. -/
theorem Idle.served (h : Idle base wiring p) {i : Nat} (hi : i < 8) :
    (p.serve i).endOfInterrupt = p := by
  obtain ⟨awaiting, base, wiring, autoEnd, mask, inService⟩ := p
  obtain ⟨-, -, -, ha, -, hs⟩ := h
  dsimp only at ha hs
  subst ha hs
  have hfind : (List.range 8).find? (Function.update (fun _ => false) i true) = some i := by
    rw [List.find?_range_eq_some]
    refine ⟨by simp, by simpa using hi, fun j hj => ?_⟩
    simp [Function.update_of_ne (Nat.ne_of_lt hj)]
  simp only [Pic.serve, Bool.false_eq_true, if_false, Pic.endOfInterrupt, hfind]
  simp

theorem Idle.endOfInterrupt (h : Idle base wiring p) : p.endOfInterrupt = p := by
  unfold Pic.endOfInterrupt
  rw [List.find?_eq_none.2 (by simp [h.inService])]

end Pic8259
