import Dmanix.Base.Assert
import Dmanix.Lib.Links
import Dmanix.Lib.Word32

/-!
# Tasks (`src/process/task.cc`)

The `Task` objects lie in memory at their addresses and are linked in a queue; `current` and `queue`
are pointers, 0 is `NULL`. What the kernel allocates or clones for a task is a parameter of the
operation that asks for it, and so are the registers at the moment of the call.
-/

namespace Dmanix

open Word32

/-- The registers `Switch` saves and loads. -/
structure Context where
  eip : Nat
  esp : Nat
  ebp : Nat
  deriving DecidableEq, Repr

/-- `Task` -/
structure Task where
  pid : Nat
  eax : Nat
  ebx : Nat
  esp : Nat
  ebp : Nat
  eip : Nat
  stack : Nat
  directory : Nat
  next : Nat
  deriving DecidableEq, Repr

/-- The context recorded for a task. -/
def Task.context (t : Task) : Context := ⟨t.eip, t.esp, t.ebp⟩

/-- The variables of the scheduler. `kernelStack` is what `dt::SetKernelStack` was told; `loaded` is
the context in the registers when `Switch` last left the kernel. -/
structure Tasks where
  task : Nat → Task
  nextPid : Nat
  current : Nat
  queue : Nat
  currentDirectory : Nat
  kernelStack : Nat
  loaded : Context

namespace Tasks

/-- `KERNEL_STACK_SIZE` -/
def kernelStackSize : Nat := 2048

/-- `STACK_START` -/
def stackStart : Nat := 0xE0000000

/-- The dummy value `Switch` leaves in eax for the task it resumes. -/
def switched : Nat := 0x12345

/-- A change of the object at `p`. -/
def modify (s : Tasks) (p : Nat) (f : Task → Task) : Tasks :=
  { s with task := Function.update s.task p (f (s.task p)) }

/-- `new (p) Task(directory)`, with its kernel stack; eax and ebx keep what memory holds. -/
def newTask (p directory stack : Nat) (s : Tasks) : Tasks :=
  { s.modify p fun t => { t with
      pid := s.nextPid, esp := 0, ebp := 0, eip := 0, stack, directory, next := 0 } with
    nextPid := add32 s.nextPid 1 }

/-- `Initialize()`, for a task at `p` -/
def init (p stack : Nat) (s : Tasks) : Tasks :=
  let s := { s.newTask p s.currentDirectory stack with current := p }
  { s with queue := s.current }

/-- `Fork()` as the parent runs it, for a task at `p` in the cloned directory; the walk to the end
of the queue is granted `rounds`. -/
def fork (rounds p directory stack : Nat) (c : Context) (s : Tasks) : Except Halt (Nat × Tasks) :=
  let s := s.newTask p directory stack
  match Links.lastNode (fun a => (s.task a).next) 0 rounds s.queue with
  | none => .error .hang
  | some it =>
    let s := s.modify it fun t => { t with next := p }
    let s := s.modify p fun t => { t with esp := c.esp, ebp := c.ebp, eip := c.eip }
    .ok ((s.task p).pid, s)

/-- `Switch()`, called in the context `c` -/
def switch (c : Context) (s : Tasks) : Tasks :=
  if s.current = 0 then s
  else if c.eip = switched then s
  else
    let s := s.modify s.current fun t => { t with eip := c.eip, esp := c.esp, ebp := c.ebp }
    let current := (s.task s.current).next
    let current := if current = 0 then s.queue else current
    { s with
      current
      loaded := (s.task current).context
      currentDirectory := (s.task current).directory
      kernelStack := add32 (s.task current).stack kernelStackSize }

/-- The end of `ExecVE`, for a program with the given entry point. -/
def execVE (entry arguments environment : Nat) (s : Tasks) : Tasks :=
  s.modify s.current fun t => { t with
    eax := arguments, ebx := environment, eip := entry, esp := stackStart - 0x100 }

/-- The link stored in the object at `a`. -/
def next (s : Tasks) (a : Nat) : Nat := (s.task a).next

end Tasks

end Dmanix
