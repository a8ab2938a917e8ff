import Dmanix.Interrupt.Gates
import Dmanix.Lib.Pic8259

/-!
# Interrupt dispatch (`src/interrupt/isr.cc`, `RemapPIC` in `src/dt.cc`)

`RemapPIC` programs the two controllers so that line `i` comes as vector `32 + i`. `irq_handler` ends
the interrupt at the controllers before it calls the handler, so a handler may be interrupted, or
never return, without holding up another line.

A run is a list of events, the last one first: what drivers register, and what devices raise.
`irq_run`: whatever state the firmware has left the controllers in, every interrupt raised is
delivered once, to the handler that is registered then, and the controllers are idle afterwards. A
spurious interrupt is delivered like one of line 7 or 15.
-/

namespace Dmanix.Isr

open Pic8259

/-- The globals of `isr.cc`, the controllers and the calls of handlers so far, the last one first. A
handler is known by its address, `NULL` is 0. -/
structure Dispatch where
  handlers : Nat → Nat
  pics : Pair
  calls : List (Nat × Nat)

/-- `outb(port, value)`, for the ports of the controllers -/
def outb (port value : Nat) (P : Pair) : Pair :=
  match port with
  | 0x20 => { P with master := P.master.command value }
  | 0x21 => { P with master := P.master.data value }
  | 0xA0 => { P with slave := P.slave.command value }
  | 0xA1 => { P with slave := P.slave.data value }
  | _ => P

/-- `RemapPIC()` -/
def remapPIC (P : Pair) : Pair :=
  -- Initialize PICs
  let P := outb 0x20 0x11 P
  let P := outb 0xA0 0x11 P
  -- Set offsets
  let P := outb 0x21 0x20 P
  let P := outb 0xA1 0x28 P
  -- Set connections
  let P := outb 0x21 0x4 P
  let P := outb 0xA1 0x2 P
  -- Set 8086 mode
  let P := outb 0x21 0x1 P
  let P := outb 0xA1 0x1 P
  -- Complete
  let P := outb 0x21 0x0 P
  outb 0xA1 0x0 P

/-- `RegisterHandler(interrupt, h)` -/
def registerHandler (interrupt : UInt8) (h : Nat) (k : Dispatch) : Dispatch :=
  { k with handlers := Function.update k.handlers interrupt.toNat h }

/-- `UnregisterHandler(interrupt, h)` -/
def unregisterHandler (interrupt : UInt8) (h : Nat) (k : Dispatch) : Except Halt Dispatch := do
  assert (k.handlers interrupt.toNat = h) "handlers[interrupt] == h"
  return { k with handlers := Function.update k.handlers interrupt.toNat 0 }

/-- The call of the handler for `intNo`. -/
def callHandler (intNo : Nat) (k : Dispatch) : Dispatch :=
  { k with calls := (k.handlers intNo, intNo) :: k.calls }

/-- `isr_handler(regs)`; without a handler it shows the registers and never returns. -/
def isrHandler (intNo : Nat) (k : Dispatch) : Except Halt Dispatch :=
  if k.handlers intNo ≠ 0 then .ok (callHandler intNo k) else .error .hang

/-- `irq_handler(regs)` -/
def irqHandler (intNo : Nat) (k : Dispatch) : Dispatch :=
  -- Send EOI to PICS
  let P := if intNo ≥ 40 then outb 0xA0 0x20 k.pics else k.pics
  let k := { k with pics := outb 0x20 0x20 P }
  if k.handlers intNo ≠ 0 then callHandler intNo k else k

/-! ## Events -/

inductive Event where
  | register (interrupt : UInt8) (h : Nat)
  | unregister (interrupt : UInt8) (h : Nat)
  | exception (v : Nat)
  | irq (l : Line)
  | spurious (slave : Bool)

/-- What an event does; a request that does not get through has to wait. -/
def Event.run (k : Dispatch) : Event → Except Halt Dispatch
  | .register v h => .ok (registerHandler v h k)
  | .unregister v h => unregisterHandler v h k
  | .exception v => isrHandler v k
  | .irq l =>
    match k.pics.raise l with
    | some (v, P) => .ok (irqHandler v { k with pics := P })
    | none => .ok k
  | .spurious slave =>
    match k.pics.spurious slave with
    | some (v, P) => .ok (irqHandler v { k with pics := P })
    | none => .ok k

/-- The kernel after `RemapPIC` and the events. -/
def runEvents (P : Pair) : List Event → Except Halt Dispatch
  | [] => .ok ⟨fun _ => 0, remapPIC P, []⟩
  | e :: es => do e.run (← runEvents P es)

/-- The handler registered last for a vector, if nobody has unregistered it since. -/
def registered : List Event → Nat → Nat
  | [], _ => 0
  | .register v h :: es, n => if n = v.toNat then h else registered es n
  | .unregister v _ :: es, n => if n = v.toNat then 0 else registered es n
  | _ :: es, n => registered es n

/-- The vector that an event delivers. -/
def Event.vector : Event → Option Nat
  | .exception v => some v
  | .irq l => some (32 + l.1.1)
  | .spurious slave => some (if slave then 47 else 39)
  | _ => none

/-- One call for each event that delivers a vector with a handler. -/
def delivered : List Event → List (Nat × Nat)
  | [] => []
  | e :: es =>
    match e.vector with
    | some v => if registered es v ≠ 0 then (registered es v, v) :: delivered es else delivered es
    | none => delivered es

/-! ## The controllers -/

/-- Both controllers work as `RemapPIC` has set them up, and nothing is in service. -/
structure Ready (P : Pair) : Prop where
  master : Idle 32 4 P.master
  slave : Idle 40 2 P.slave

theorem remapPIC_ready (P : Pair) : Ready (remapPIC P) :=
  ⟨⟨rfl, rfl, rfl, rfl, rfl, rfl⟩, ⟨rfl, rfl, rfl, rfl, rfl, rfl⟩⟩

theorem Ready.cascaded {P : Pair} (h : Ready P) : P.cascaded = true := by
  simp [Pair.cascaded, h.master.wiring, h.slave.wiring]
  decide

theorem command_end (p : Pic) : p.command 0x20 = p.endOfInterrupt := rfl

/-- Every line gets through, and its handler ends the interrupt where it is in service. -/
theorem Ready.raise {P : Pair} (h : Ready P) (l : Line) :
    ∃ Q, P.raise l = some (32 + l.1.1, Q) ∧
      outb 0x20 0x20 (if 32 + l.1.1 ≥ 40 then outb 0xA0 0x20 Q else Q) = P := by
  obtain ⟨⟨i, hi⟩, hl⟩ := l
  have hm2 : P.master.accepts 2 = true := h.master.accepts 2
  unfold Pair.raise
  by_cases hlt : i < 8
  · have hend := h.master.served hlt
    refine ⟨{ P with master := P.master.serve i }, ?_, ?_⟩
    · simp [hlt, h.master.accepts i, h.master.base]
    · rw [if_neg (by simp; omega)]
      simp [outb, command_end, hend]
  · have hend := h.master.served (i := 2) (by decide)
    have hend' := h.slave.served (i := i - 8) (by omega)
    refine ⟨⟨P.master.serve 2, P.slave.serve (i - 8)⟩, ?_, ?_⟩
    · simp [hlt, h.cascaded, hm2, h.slave.accepts (i - 8), h.slave.base]
      omega
    · rw [if_pos (by simp; omega)]
      simp [outb, command_end, hend, hend']

theorem Ready.spurious {P : Pair} (h : Ready P) (slave : Bool) :
    ∃ Q, P.spurious slave = some (if slave then 47 else 39, Q) ∧
      outb 0x20 0x20 (if (if slave then 47 else 39) ≥ 40 then outb 0xA0 0x20 Q else Q) = P := by
  cases slave with
  | false =>
    refine ⟨P, by simp [Pair.spurious, h.master.awaiting, h.master.base], ?_⟩
    simp [outb, command_end, h.master.endOfInterrupt]
  | true =>
    have hend := h.master.served (i := 2) (by decide)
    refine ⟨{ P with master := P.master.serve 2 }, ?_, ?_⟩
    · simp [Pair.spurious, h.cascaded, h.master.accepts 2, h.slave.base]
    · simp [outb, command_end, hend, h.slave.endOfInterrupt]

/-! ## Runs -/

/-- The kernel after the events `es`. -/
structure Delivered (es : List Event) (k : Dispatch) : Prop where
  ready : Ready k.pics
  handlers : k.handlers = registered es
  calls : k.calls = delivered es

/-- The controllers are as they were, and the handler for `v`, if there is one, has been called. -/
theorem Delivered.irq {es : List Event} {k : Dispatch} {e : Event} {v : Nat} {Q : Pair}
    (h : Delivered es k) (hv : e.vector = some v) (hreg : registered (e :: es) = registered es)
    (hend : outb 0x20 0x20 (if v ≥ 40 then outb 0xA0 0x20 Q else Q) = k.pics) :
    Delivered (e :: es) (irqHandler v { k with pics := Q }) := by
  have hh := h.handlers
  have hdel : delivered (e :: es) =
      if registered es v ≠ 0 then (registered es v, v) :: delivered es else delivered es := by
    rw [delivered, hv]
  unfold irqHandler
  dsimp only
  rw [hend, hh]
  split
  · next hn =>
    refine ⟨h.ready, hreg.symm, ?_⟩
    rw [hdel, if_pos hn, ← h.calls]
    rfl
  · next hn =>
    refine ⟨h.ready, hreg.symm, ?_⟩
    rw [hdel, if_neg hn]
    exact h.calls

theorem Delivered.step {es : List Event} {k k' : Dispatch} {e : Event} (h : Delivered es k)
    (hrun : e.run k = .ok k') : Delivered (e :: es) k' := by
  cases e with
  | register v n =>
    cases hrun
    refine ⟨h.ready, ?_, h.calls⟩
    funext m
    simp only [registerHandler, registered, Function.update_apply, h.handlers]
  | unregister v n =>
    obtain ⟨_, -, hk⟩ := bind_ok.1 hrun
    cases hk
    refine ⟨h.ready, ?_, h.calls⟩
    funext m
    simp only [registered, Function.update_apply, h.handlers]
  | exception v =>
    simp only [Event.run, isrHandler] at hrun
    split at hrun
    · next hn =>
      cases hrun
      refine ⟨h.ready, h.handlers, ?_⟩
      rw [h.handlers] at hn
      show (k.handlers v, v) :: k.calls = _
      rw [h.handlers, h.calls, delivered, Event.vector]
      exact (if_pos hn).symm
    · cases hrun
  | irq l =>
    obtain ⟨Q, hQ, hend⟩ := h.ready.raise l
    simp only [Event.run, hQ, Except.ok.injEq] at hrun
    rw [← hrun]
    exact h.irq rfl rfl hend
  | spurious slave =>
    obtain ⟨Q, hQ, hend⟩ := h.ready.spurious slave
    simp only [Event.run, hQ, Except.ok.injEq] at hrun
    rw [← hrun]
    exact h.irq rfl rfl hend

theorem runEvents_delivered {P : Pair} {es : List Event} {k : Dispatch}
    (h : runEvents P es = .ok k) : Delivered es k := by
  induction es generalizing k with
  | nil =>
    cases h
    exact ⟨remapPIC_ready P, rfl, rfl⟩
  | cons e es ih =>
    obtain ⟨k0, h0, hk⟩ := bind_ok.1 h
    exact (ih h0).step hk

/-- **Every interrupt is delivered once**, to the handler registered for it, whatever came before;
afterwards every line gets through, and its handler leaves the controllers as they were. -/
theorem irq_run {P : Pair} {es : List Event} {k : Dispatch} (h : runEvents P es = .ok k) :
    k.calls = delivered es ∧ k.handlers = registered es ∧
      ∀ l, ∃ Q, k.pics.raise l = some (32 + l.1.1, Q) ∧
        (irqHandler (32 + l.1.1) { k with pics := Q }).pics = k.pics := by
  have hd := runEvents_delivered h
  refine ⟨hd.calls, hd.handlers, fun l => ?_⟩
  obtain ⟨Q, hQ, hend⟩ := hd.ready.raise l
  refine ⟨Q, hQ, ?_⟩
  unfold irqHandler
  dsimp only
  split
  · exact hend
  · exact hend

/-- Two devices, the second registered when its first request has come. -/
theorem irq_run_two : ∃ k, runEvents ⟨⟨0, 8, 0, true, 255, fun _ => true⟩, ⟨1, 112, 0, false, 255,
      fun _ => false⟩⟩ [.irq ⟨14, by decide⟩, .register 46 0x200, .irq ⟨14, by decide⟩,
        .irq ⟨0, by decide⟩, .register 32 0x100] = .ok k ∧ k.calls = [(0x200, 46), (0x100, 32)] := by
  generalize hk : runEvents _ _ = x
  cases x with
  | error e => cases hk
  | ok k => exact ⟨k, rfl, (irq_run hk).1⟩

end Dmanix.Isr
