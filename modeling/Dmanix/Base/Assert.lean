import Mathlib.Logic.Basic

/-!
# How kernel code stops (`src/base/assert.h`)

A kernel function returns, or the machine halts. `ASSERT(b)` panics with the text of `b`; the
other ways to halt are not calls of `panic`: a loop that never ends, an access outside an array,
and `GetPage` asking the allocator for a table while the allocator itself is running.
-/

namespace Dmanix

/-- Why a kernel function did not return. -/
inductive Halt where
  /-- `panic(msg, __FILE__, __LINE__)` -/
  | panic (msg : String)
  /-- the rounds granted to a loop or a recursion were used up -/
  | hang
  /-- an array access at an index outside its storage -/
  | wild (index : Nat)
  /-- the allocator was entered again from inside an allocation -/
  | reentry
  deriving DecidableEq, Repr

/-- `ASSERT(b)` -/
def assert (b : Bool) (msg : String) : Except Halt Unit :=
  if b then .ok () else .error (.panic msg)

@[simp] theorem assert_ok {b : Bool} {msg : String} : assert b msg = .ok () ↔ b = true := by
  unfold assert; split <;> simp_all

theorem assert_true (msg : String) : assert true msg = .ok () := by rfl

theorem assert_false (msg : String) : assert false msg = .error (.panic msg) := by rfl

theorem ok_bind {ε α β : Type} (a : α) (f : α → Except ε β) : (Except.ok a >>= f) = f a := by rfl

/-- A sequence returns when its first part returns and its second part does from there. -/
theorem bind_ok {ε α β : Type} {x : Except ε α} {f : α → Except ε β} {b : β} :
    (x >>= f) = .ok b ↔ ∃ a, x = .ok a ∧ f a = .ok b := by
  cases x with
  | error e => simp [bind, Except.bind]
  | ok a => simp [bind, Except.bind]

end Dmanix
