import Dmanix.CString
import Dmanix.Vector
import Mathlib.Data.List.Nodup

/-!
# System calls (`src/syscall.cc`)

`Call(name, n, ...)` looks the name up, passes its index in `eax` and the arguments in `ebx`, `ecx`
and `edx` through interrupt 0x80, and `Handler` calls the function at that index with five
registers on the stack. A function is known by its address; `results` says what a function returns
for the parameters it finds on the stack and the calls made before, and `Syscalls.calls` records the
calls made, the last one first.

`syscall2` and `syscall3` are called with several `va_arg` operands, each of which reads the next
argument when it is evaluated, and C++ does not say in which order that is: `order` is the order of
the operands' positions. `call_served`: every call of a registered name reaches the first function
of that name, and it gets the arguments in their places exactly when the operands' order puts each
argument in its own position or in that of an equal one; a name not registered panics.
-/

namespace Dmanix

/-- A function called by `Handler`, with its parameters, the first one first. -/
structure Invocation where
  function : Nat
  params : List Nat
  deriving DecidableEq, Repr

/-- The members of `isr::Registers` that `Handler` uses. -/
structure Registers where
  eax : Nat
  ebx : Nat
  ecx : Nat
  edx : Nat
  esi : Nat
  edi : Nat

/-- The globals of `syscall.cc`, with `handlers[0x80] == Handler`, and the calls made so far. -/
structure Syscalls where
  lookup : Vector CString 64
  fns : Vector Nat 64
  installed : Bool
  calls : List Invocation

namespace Syscall

/-- What a function returns, given its parameters and the calls made before. -/
abbrev Results := Nat → List Nat → List Invocation → Nat

/-- A computation that does not change the kernel. -/
def lift {α : Type} (x : Except Halt α) : EStateM Halt Syscalls α := fun k =>
  match x with
  | .ok a => .ok a k
  | .error e => .error e k

/-- `push` -/
def push (x : Nat) (stack : List Nat) : List Nat := x :: stack

/-- `Handler(regs)`: the registers after it. -/
def handler (results : Results) (regs : Registers) : EStateM Halt Syscalls Registers := do
  let k ← get
  let function ← lift (k.fns.atIndex regs.eax)
  -- Push all the parameters in the correct order.
  let stack := push regs.ebx (push regs.ecx (push regs.edx (push regs.esi (push regs.edi []))))
  set { k with calls := ⟨function, stack⟩ :: k.calls }
  return { regs with eax := results function stack k.calls }

/-- `isr_handler(regs)` for interrupt 0x80; without a handler it never returns. -/
def isrHandler (results : Results) (regs : Registers) : EStateM Halt Syscalls Registers := do
  if (← get).installed then handler results regs else throw .hang

section
variable (results : Results) (regs : Registers)

/-- `syscall0(index)`; `regs` is what the other registers hold. -/
def syscall0 (index : Nat) : EStateM Halt Syscalls Nat := do
  return (← isrHandler results { regs with eax := index }).eax

/-- `syscall1(index, p0)` -/
def syscall1 (index p0 : Nat) : EStateM Halt Syscalls Nat := do
  return (← isrHandler results { regs with eax := index, ebx := p0 }).eax

/-- `syscall2(index, p0, p1)` -/
def syscall2 (index p0 p1 : Nat) : EStateM Halt Syscalls Nat := do
  return (← isrHandler results { regs with eax := index, ebx := p0, ecx := p1 }).eax

/-- `syscall3(index, p0, p1, p2)` -/
def syscall3 (index p0 p1 p2 : Nat) : EStateM Halt Syscalls Nat := do
  return (← isrHandler results { regs with eax := index, ebx := p0, ecx := p1, edx := p2 }).eax

end

/-- `Initialize()` -/
def init (k : Syscalls) : Syscalls := { k with installed := true }

/-- `Register(name, fn)` -/
def register (k : Syscalls) (name : CString) (fn : Nat) : Except Halt Syscalls := do
  let lookup ← k.lookup.pushBack (.outside name)
  let fns ← k.fns.pushBack (.outside fn)
  assert (fns.size == lookup.size) "syscall_fns.size() == syscall_fn_lookup.size()"
  return { k with lookup := lookup, fns := fns }

/-- The values of the `va_arg` operands: the operand evaluated next takes the next argument. -/
def operands : List Nat → List Nat → (Nat → Nat) → Nat → Nat
  | p :: order, a :: args, f => operands order args (Vector.store f p a)
  | _, _, f => f

/-- The loop of `Call`, with `n` indices left: the index of the name. -/
def scan (lookup : Vector CString 64) (name : CString) : Nat → Nat → Except Halt (Option Nat)
  | 0, _ => .ok none
  | n + 1, index => do
    let s ← lookup.atIndex index
    if CString.compare s name then return some index else scan lookup name n (index + 1)

/-- `Call(name, num_args, ...)` with the operands evaluated in `order`. -/
def call (results : Results) (regs : Registers) (name : CString) (numArgs : Nat)
    (order args : List Nat) : EStateM Halt Syscalls Nat := do
  let k ← get
  let p := operands order args fun _ => 0
  match ← lift (scan k.lookup name k.lookup.size 0) with
  | some index =>
    match numArgs with
    | 0 => syscall0 results regs index
    | 1 => syscall1 results regs index (p 0)
    | 2 => syscall2 results regs index (p 0) (p 1)
    | 3 => syscall3 results regs index (p 0) (p 1) (p 2)
    | _ => throw (.panic "Bad number of arguments for syscall.")
  | none => throw (.panic "Failed to find syscall")

/-- The globals at boot: no registrations, over whatever the slots hold. -/
def boot (names : Nat → CString) (fns : Nat → Nat) : Syscalls :=
  ⟨.create 64 names, .create 64 fns, false, []⟩

/-- A sequence of registrations. -/
def registerAll (k : Syscalls) (rs : List (CString × Nat)) : Except Halt Syscalls :=
  rs.foldlM (fun k r => register k r.1 r.2) k

/-! ## Registration -/

/-- The two arrays list the names and functions of `rs`. -/
structure Registered (k : Syscalls) (rs : List (CString × Nat)) : Prop where
  names : k.lookup.items = rs.map (·.1)
  fns : k.fns.items = rs.map (·.2)
  installed : k.installed = true

theorem register_ok {k : Syscalls} {rs : List (CString × Nat)} (h : Registered k rs)
    (hs : rs.length < 64) (r : CString × Nat) :
    ∃ k', register k r.1 r.2 = .ok k' ∧ Registered k' (rs ++ [r]) := by
  have hl : k.lookup.size = rs.length := by
    rw [← Vector.length_items, h.names, List.length_map]
  have hf : k.fns.size = rs.length := by
    rw [← Vector.length_items, h.fns, List.length_map]
  obtain ⟨l, hl1, hl2, hl3⟩ := Vector.pushBack_items (v := k.lookup) (t := .outside r.1) (by omega)
  obtain ⟨f, hf1, hf2, hf3⟩ := Vector.pushBack_items (v := k.fns) (t := .outside r.2) (by omega)
  refine ⟨{ k with lookup := l, fns := f }, ?_, ⟨?_, ?_, h.installed⟩⟩
  · have heq : (f.size == l.size) = true := by
      rw [beq_iff_eq]
      omega
    simp only [register, hl1, hf1, ok_bind, heq, assert_true]
    rfl
  · rw [hl2, h.names, List.map_append]
    rfl
  · rw [hf2, h.fns, List.map_append]
    rfl

theorem registerAll_ok : ∀ (rs : List (CString × Nat)) {k : Syscalls} {before : List (CString × Nat)},
    Registered k before → before.length + rs.length ≤ 64 →
    ∃ k', registerAll k rs = .ok k' ∧ Registered k' (before ++ rs)
  | [], k, before, h, _ => ⟨k, rfl, by rwa [List.append_nil]⟩
  | r :: rs, k, before, h, hlen => by
    rw [List.length_cons] at hlen
    obtain ⟨k1, hk1, h1⟩ := register_ok h (by omega) r
    obtain ⟨k2, hk2, h2⟩ := registerAll_ok rs h1 (by simp; omega)
    refine ⟨k2, ?_, by simpa using h2⟩
    rw [registerAll, List.foldlM_cons, hk1, ok_bind]
    exact hk2

/-! ## The operands -/

theorem operands_not_mem : ∀ {order args : List Nat} {f : Nat → Nat} {i : Nat}, i ∉ order →
    operands order args f i = f i
  | [], _, _, _, _ => rfl
  | _ :: _, [], _, _, _ => rfl
  | p :: order, a :: args, f, i, h => by
    rw [List.mem_cons, not_or] at h
    rw [operands, operands_not_mem h.2]
    exact if_neg h.1

/-- The operand at position `i` is the argument whose turn came when `i` was evaluated. -/
theorem operands_mem : ∀ {order args : List Nat} {f : Nat → Nat} {i : Nat}, order.Nodup →
    i ∈ order → order.length = args.length →
    args[order.idxOf i]? = some (operands order args f i)
  | [], _, _, _, _, h, _ => absurd h List.not_mem_nil
  | p :: order, [], _, _, _, _, h => by simp at h
  | p :: order, a :: args, f, i, hn, hi, hl => by
    rw [List.nodup_cons] at hn
    by_cases hip : i = p
    · subst hip
      rw [operands, operands_not_mem hn.1, List.idxOf_cons_self]
      exact (congrArg some (if_pos rfl)).symm
    · have hm : i ∈ order := (List.mem_cons.1 hi).resolve_left hip
      rw [operands, List.idxOf_cons_ne _ (Ne.symm hip), List.getElem?_cons_succ]
      exact operands_mem hn.2 hm (by simpa using hl)

/-! ## The call -/

theorem scan_eq (lookup : Vector CString 64) (name : CString) : ∀ n i, i + n = lookup.size →
    scan lookup name n i =
      .ok (((lookup.items.drop i).findIdx? (· = name)).map (· + i))
  | 0, i, h => by
    rw [List.drop_eq_nil_of_le (by simp; omega)]
    rfl
  | n + 1, i, h => by
    have hi : i < lookup.items.length := by simp; omega
    have hx : lookup.array i = lookup.items[i] := (Slots.slots_getElem hi).symm
    rw [scan, Vector.atIndex_ok (by omega), ok_bind, hx, List.drop_eq_getElem_cons hi,
      List.findIdx?_cons]
    by_cases hc : lookup.items[i] = name
    · rw [if_pos (CString.compare_iff.2 hc), if_pos (decide_eq_true hc)]
      simp
      rfl
    · rw [if_neg (fun h => hc (CString.compare_iff.1 h)), if_neg (by simpa using hc),
        scan_eq lookup name n (i + 1) (by omega)]
      simp only [Option.map_map]
      congr 2
      funext j
      simp only [Function.comp_apply]
      omega

/-- The stack a function finds: the operands, then what the registers held. -/
def stackOf (regs : Registers) (n : Nat) (p : Nat → Nat) : List Nat :=
  [if 0 < n then p 0 else regs.ebx, if 1 < n then p 1 else regs.ecx,
    if 2 < n then p 2 else regs.edx, regs.esi, regs.edi]

/-! Single operations, run on a state. -/

@[simp] theorem get_apply (k : Syscalls) : (get : EStateM Halt Syscalls Syscalls) k = .ok k k := rfl

@[simp] theorem set_apply (k k' : Syscalls) : (set k' : EStateM Halt Syscalls PUnit) k = .ok ⟨⟩ k' :=
  rfl

@[simp] theorem throw_apply {α : Type} (e : Halt) (k : Syscalls) :
    (throw e : EStateM Halt Syscalls α) k = .error e k := rfl

theorem isrHandler_eq {results : Results} {regs : Registers} {k : Syscalls} {fn : Nat}
    (hi : k.installed = true) (hf : k.fns.atIndex regs.eax = .ok fn) :
    isrHandler results regs k =
      .ok { regs with
        eax := results fn [regs.ebx, regs.ecx, regs.edx, regs.esi, regs.edi] k.calls }
        { k with calls := ⟨fn, [regs.ebx, regs.ecx, regs.edx, regs.esi, regs.edi]⟩ :: k.calls } := by
  simp [isrHandler, handler, lift, push, hi, hf, bind, EStateM.bind, pure, EStateM.pure]

section
variable (results : Results) (regs : Registers) {k : Syscalls} {rs : List (CString × Nat)}
  (h : Registered k rs) {name : CString}
include h

/-- A name that is not registered stops `Call` before any function runs. -/
theorem call_none (hn : rs.find? (·.1 = name) = none) (n : Nat) (order args : List Nat) :
    call results regs name n order args k = .error (.panic "Failed to find syscall") k := by
  have hs := scan_eq k.lookup name k.lookup.size 0 (Nat.zero_add _)
  have hnone : (k.lookup.items.drop 0).findIdx? (· = name) = none := by
    rw [List.drop_zero, h.names, List.findIdx?_eq_none_iff]
    rw [List.find?_eq_none] at hn
    simpa using hn
  rw [hnone] at hs
  simp [call, lift, hs, bind, EStateM.bind]

/-- **A registered name runs the first function of that name**, once. -/
theorem call_some {r : CString × Nat} (hr : rs.find? (·.1 = name) = some r) {n : Nat} (hn : n ≤ 3)
    (order args : List Nat) :
    call results regs name n order args k =
      .ok (results r.2 (stackOf regs n (operands order args fun _ => 0)) k.calls)
        { k with
          calls := ⟨r.2, stackOf regs n (operands order args fun _ => 0)⟩ :: k.calls } := by
  have hs := scan_eq k.lookup name k.lookup.size 0 (Nat.zero_add _)
  rw [List.find?_eq_bind_findIdx?_getElem?] at hr
  obtain ⟨i, hi, hri⟩ := Option.bind_eq_some_iff.1 hr
  have hidx : (k.lookup.items.drop 0).findIdx? (· = name) = some i := by
    rw [List.drop_zero, h.names, List.findIdx?_map]
    exact hi
  have hfn : k.fns.atIndex i = .ok r.2 := by
    have hget : k.fns.items[i]? = some r.2 := by rw [h.fns, List.getElem?_map, hri]; rfl
    obtain ⟨hlt, hget⟩ := List.getElem?_eq_some_iff.1 hget
    rw [Vector.atIndex_ok (by simpa using hlt), ← hget]
    exact congrArg _ (Slots.slots_getElem hlt).symm
  rw [hidx] at hs
  -- one `syscall` function for each number of arguments
  have h0 (g : Registers) (hg : g.eax = i) :=
    @isrHandler_eq results g k r.2 h.installed (hg ▸ hfn)
  obtain rfl | rfl | rfl | rfl : n = 0 ∨ n = 1 ∨ n = 2 ∨ n = 3 := by omega
  all_goals
    simp [call, lift, hs, syscall0, syscall1, syscall2, syscall3, h0, stackOf, bind, EStateM.bind,
      pure, EStateM.pure]

end

/-- What the claim of a system call is: a registered name runs the first function of that name
once, with the arguments as its first parameters, and returns its result; another one panics and
runs nothing. -/
def Served (results : Results) (regs : Registers) (k : Syscalls) (rs : List (CString × Nat))
    (name : CString) (order args : List Nat) : Prop :=
  match rs.find? (·.1 = name) with
  | none => ∃ msg, call results regs name args.length order args k = .error (.panic msg) k
  | some r => ∃ params : List Nat, (∀ i < args.length, params[i]? = args[i]?) ∧
      call results regs name args.length order args k =
        .ok (results r.2 params k.calls) { k with calls := ⟨r.2, params⟩ :: k.calls }

/-- Each operand reads the argument of its own position, or an equal one. -/
def InPlace (order args : List Nat) : Prop := ∀ i < args.length, args[order.idxOf i]? = args[i]?

/-- The parameters are the arguments exactly when the operands read them in place. -/
theorem stackOf_eq_iff {regs : Registers} {order args : List Nat} (hl : args.length ≤ 3)
    (ho : order.Perm (List.range args.length)) :
    (∀ i < args.length,
      (stackOf regs args.length (operands order args fun _ => 0))[i]? = args[i]?) ↔
      InPlace order args := by
  have hlen : order.length = args.length := by rw [ho.length_eq, List.length_range]
  have hn : order.Nodup := ho.nodup_iff.2 List.nodup_range
  have hp : ∀ i < args.length, (stackOf regs args.length (operands order args fun _ => 0))[i]? =
      args[order.idxOf i]? := by
    intro i hi
    rw [operands_mem (f := fun _ => 0) hn (ho.mem_iff.2 (List.mem_range.2 hi)) hlen]
    obtain rfl | rfl | rfl : i = 0 ∨ i = 1 ∨ i = 2 := by omega
    all_goals simp [stackOf, hi]
  refine forall_congr' fun i => forall_congr' fun hi => ?_
  rw [hp i hi]

theorem served_iff {results : Results} {regs : Registers} {k : Syscalls}
    {rs : List (CString × Nat)} (h : Registered k rs) {name : CString} {order args : List Nat}
    (hl : args.length ≤ 3) (ho : order.Perm (List.range args.length)) :
    Served results regs k rs name order args ↔
      ((rs.find? (·.1 = name)).isSome → InPlace order args) := by
  unfold Served
  cases hf : rs.find? (·.1 = name) with
  | none => exact iff_of_true ⟨_, call_none results regs h hf _ _ _⟩ (fun h => by cases h)
  | some r =>
    have hcall := call_some results regs h hf hl order args
    simp only [Option.isSome_some, true_imp_iff]
    rw [← @stackOf_eq_iff regs order args hl ho, hcall]
    constructor
    · rintro ⟨params, hp, he⟩
      injection he with _ he
      injection he with _ _ _ he
      injection he with he _
      injection he with _ he
      rw [he]
      exact hp
    · intro hp
      exact ⟨_, hp, rfl⟩

theorem registered_init (names : Nat → CString) (fns : Nat → Nat) {rs : List (CString × Nat)}
    (h : rs.length ≤ 64) :
    ∃ k, registerAll (init (boot names fns)) rs = .ok k ∧ Registered k rs := by
  have hb : Registered (init (boot names fns)) [] := ⟨rfl, rfl, rfl⟩
  exact registerAll_ok rs hb (by simpa using h)

/-- **System calls reach the right function with the right arguments**, exactly when the operands
of the call are read in place. -/
theorem call_served (names : Nat → CString) (fns : Nat → Nat) (rs : List (CString × Nat))
    (h : rs.length ≤ 64) :
    ∃ k, registerAll (init (boot names fns)) rs = .ok k ∧
      ∀ results regs name order args, args.length ≤ 3 → order.Perm (List.range args.length) →
        (Served results regs k rs name order args ↔
          ((rs.find? (·.1 = name)).isSome → InPlace order args)) := by
  obtain ⟨k, hk, hreg⟩ := registered_init names fns h
  exact ⟨k, hk, fun results regs name order args hl ho => served_iff hreg hl ho⟩

/-- The string "f". -/
def nameF : CString := ⟨[102], by decide⟩

/-- The string "g". -/
def nameG : CString := ⟨[103], by decide⟩

/-- Three registrations, the last one under a name that is taken. -/
def threeCalls : List (CString × Nat) := [(nameF, 0x1000), (nameG, 0x2000), (nameF, 0x3000)]

theorem call_served_three :
    ∃ k, registerAll (init (boot (fun _ => nameF) fun _ => 0)) threeCalls = .ok k ∧
      ∀ results regs name order args, args.length ≤ 3 → order.Perm (List.range args.length) →
        (Served results regs k threeCalls name order args ↔
          ((threeCalls.find? (·.1 = name)).isSome → InPlace order args)) :=
  call_served _ _ threeCalls (by decide)

/-- **Two operands evaluated from the right are swapped**: `Call("f", 2, 10, 20)` runs the function
with 20 and 10. -/
theorem call_swapped :
    ∃ k, registerAll (init (boot (fun _ => nameF) fun _ => 0)) [(nameF, 0x1000)] = .ok k ∧
      ¬ Served (fun _ _ _ => 0) ⟨0, 0, 0, 0, 0, 0⟩ k [(nameF, 0x1000)] nameF [1, 0] [10, 20] := by
  obtain ⟨k, hk, hreg⟩ := registered_init (fun _ => nameF) (fun _ => 0)
    (show [(nameF, 0x1000)].length ≤ 64 by decide)
  refine ⟨k, hk, fun hs => ?_⟩
  have h := (served_iff hreg (by decide) (by decide)).1 hs rfl 0 (by decide)
  cases h

end Syscall

end Dmanix
