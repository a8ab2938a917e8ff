import Dmanix.Lib.Run
import Dmanix.Process.Proof.Queue

/-!
# Where a task resumes

`Watched` is the scheduler together with what an observer notes of its calls: the context last
recorded for each task, whether it was used since, and whether the running task called `ExecVE`
since it was resumed. `Kept` is what the observer expects of a call: it overwrites no context that
was not used, and `Switch` resumes a task in its directory with the context recorded for it.

`Switch` records the registers of the running task over what `ExecVE` recorded for it. So a call
keeps what is expected just when no context of an `ExecVE` is pending: `resumes_where_told`.
-/

namespace Dmanix

namespace Tasks

/-- A call of the scheduler, with what the kernel allocates, clones and reads for it. -/
inductive Call where
  | fork (rounds p directory stack : Nat) (c : Context)
  | switch (c : Context)
  | execVE (entry arguments environment : Nat)

structure Watched where
  tasks : Tasks
  created : List Nat
  recorded : Nat → Option Context
  unused : Nat → Bool
  execed : Bool

/-! ## What the calls record -/

theorem switch_eq {c : Context} {s : Tasks} (h0 : s.current ≠ 0) (hc : c.eip ≠ switched) :
    (s.switch c).task = (s.modify s.current fun t =>
        { t with eip := c.eip, esp := c.esp, ebp := c.ebp }).task ∧
      (s.switch c).loaded = ((s.switch c).task (s.switch c).current).context ∧
      (s.switch c).currentDirectory = ((s.switch c).task (s.switch c).current).directory := by
  unfold switch
  rw [if_neg h0, if_neg hc]
  exact ⟨rfl, rfl, rfl⟩

theorem switch_directory (c : Context) (s : Tasks) (a : Nat) :
    ((s.switch c).task a).directory = (s.task a).directory :=
  switch_field Task.directory (fun _ _ => rfl) c s a

theorem switch_context {c : Context} {s : Tasks} (h0 : s.current ≠ 0) (hc : c.eip ≠ switched)
    (a : Nat) : ((s.switch c).task a).context =
      if a = s.current then c else (s.task a).context := by
  rw [(switch_eq h0 hc).1]
  by_cases ha : a = s.current
  · rw [if_pos ha, ha, modify_self]
    rfl
  · rw [if_neg ha, modify_of_ne s _ ha]

theorem forked_context {b p directory stack : Nat} {c : Context} {s : Tasks} (a : Nat) :
    ((s.forked b p directory stack c).task a).context =
      if a = p then c else (s.task a).context := by
  by_cases ha : a = p
  · rw [if_pos ha, ha, forked, modify_self]
    rfl
  · have hf := modify_field Task.context (s.newTask p directory stack) b
      (f := fun t => { t with next := p }) (fun _ => rfl) a
    rw [if_neg ha, forked, modify_of_ne _ _ ha, hf, newTask_of_ne s directory stack ha]

theorem execVE_context {entry arguments environment : Nat} {s : Tasks} (a : Nat) :
    ((s.execVE entry arguments environment).task a).context =
      if a = s.current then ⟨entry, stackStart - 0x100, (s.task s.current).ebp⟩
      else (s.task a).context := by
  by_cases ha : a = s.current
  · rw [if_pos ha, ha, execVE, modify_self]
    rfl
  · rw [if_neg ha, execVE, modify_of_ne s _ ha]

theorem Queue.execVE {ps : List Nat} {s : Tasks} (h : Queue ps s)
    (entry arguments environment : Nat) : Queue ps (s.execVE entry arguments environment) where
  linked := h.linked.congr fun a _ => modify_field Task.next s s.current
    (f := fun t => { t with
      eax := arguments, ebx := environment, eip := entry, esp := stackStart - 0x100 })
    (fun _ => rfl) a
  words := h.words
  pid i p hp := (modify_field Task.pid s s.current
    (f := fun t => { t with
      eax := arguments, ebx := environment, eip := entry, esp := stackStart - 0x100 })
    (fun _ => rfl) p).trans (h.pid i p hp)
  nextPid := h.nextPid
  current := h.current

namespace Watched

/-- The state after `Initialize`, with nothing recorded. -/
def init (p stack : Nat) (s : Tasks) : Watched :=
  ⟨s.init p stack, [p], fun _ => none, fun _ => false, false⟩

/-- A context is recorded for the task at `p`, to be used later. -/
def record (w : Watched) (p : Nat) (c : Context) : Watched :=
  { w with recorded := Function.update w.recorded p (some c), unused := Function.update w.unused p true }

/-- The task at `p` is resumed: its context is used. -/
def use (w : Watched) (p : Nat) : Watched :=
  { w with unused := Function.update w.unused p false, execed := false }

/-- A call, and what is noted of it. `ExecVE` records no ebp. -/
def call (w : Watched) : Call → Except Halt Watched
  | .fork rounds p directory stack c => do
    let (_, s) ← w.tasks.fork rounds p directory stack c
    return { w.record p c with tasks := s, created := w.created ++ [p] }
  | .switch c =>
    let s := w.tasks.switch c
    return { (w.record w.tasks.current c).use s.current with tasks := s }
  | .execVE entry arguments environment =>
    let c := ⟨entry, stackStart - 0x100, (w.tasks.task w.tasks.current).ebp⟩
    return { w.record w.tasks.current c with
      tasks := w.tasks.execVE entry arguments environment, execed := true }

/-- What the kernel allocates is fresh, and `Switch` is called from kernel code. -/
def Legal (w : Watched) : Call → Prop
  | .fork _ p _ _ _ => Fresh w.created p
  | .switch c => c.eip ≠ switched
  | .execVE .. => True

/-- A legal call that returns. -/
def Step (w : Watched) (i : Call) (w' : Watched) : Prop := w.Legal i ∧ w.call i = .ok w'

/-- The call overwrites no context that is still to be used, and `Switch` resumes a task with the
directory of that task and the context last recorded for it. -/
def Kept (w : Watched) (i : Call) (w' : Watched) : Prop :=
  match i with
  | .fork _ p _ _ _ => w.unused p = false
  | .switch _ => w.unused w.tasks.current = false ∧
    w'.recorded w'.tasks.current = some w'.tasks.loaded ∧
    w'.tasks.currentDirectory = (w.tasks.task w'.tasks.current).directory
  | .execVE .. => w.unused w.tasks.current = false

/-- No `Switch` and no `ExecVE` while the running task has called `ExecVE` since it was resumed. -/
def NotExeced (w : Watched) : Call → Prop
  | .fork .. => True
  | _ => w.execed = false

/-- What holds while no call was made that `NotExeced` excludes. -/
structure Noted (w : Watched) : Prop where
  queue : Queue w.created w.tasks
  context : ∀ p ∈ w.created, ∀ c, w.recorded p = some c → (w.tasks.task p).context = c
  recorded : ∀ p ∈ w.created, p ≠ w.tasks.current → (w.recorded p).isSome
  unused : ∀ p, p ∉ w.created → w.unused p = false
  running : w.unused w.tasks.current = w.execed

theorem Noted.init {s : Tasks} {p stack : Nat} (hpid : s.nextPid = 1) (hp : Fresh [] p) :
    Noted (init p stack s) where
  queue := .init hpid hp
  context _ _ _ h := by cases h
  recorded q hq hne := absurd (List.mem_singleton.1 hq) hne
  unused _ _ := rfl
  running := rfl

theorem Noted.fork {w : Watched} (h : Noted w) {rounds p directory stack pid : Nat} {c : Context}
    {s : Tasks} (hp : Fresh w.created p)
    (hf : w.tasks.fork rounds p directory stack c = .ok (pid, s)) :
    Noted { w.record p c with tasks := s, created := w.created ++ [p] } := by
  have hq := h.queue.fork hp hf
  obtain ⟨l, b, hl⟩ := h.queue.last
  obtain rfl : s = w.tasks.forked b p directory stack c := by
    have hq := h.queue
    rw [hl] at hq hp
    exact hq.fork_eq hp hf
  have hcur : w.tasks.current ≠ p := fun he => hp.2.2 (he ▸ h.queue.current)
  refine ⟨hq, fun q hq c' hr => ?_, fun q hq hne => ?_, fun q hq => ?_, ?_⟩
  · dsimp only [record] at hr
    rw [forked_context]
    rw [Function.update_apply] at hr
    by_cases hqp : q = p
    · rw [if_pos hqp] at hr
      rw [if_pos hqp, Option.some.inj hr]
    · rw [if_neg hqp] at hr
      rw [if_neg hqp]
      exact h.context q ((List.mem_append.1 hq).resolve_right fun hm =>
        hqp (List.mem_singleton.1 hm)) c' hr
  · dsimp only [record]
    rw [Function.update_apply]
    by_cases hqp : q = p
    · rw [if_pos hqp]
      rfl
    · rw [if_neg hqp]
      exact h.recorded q ((List.mem_append.1 hq).resolve_right fun hm =>
        hqp (List.mem_singleton.1 hm)) hne
  · have hne : q ≠ p := fun he => hq (List.mem_append_right _ (he ▸ List.mem_singleton_self q))
    dsimp only [record]
    rw [Function.update_of_ne hne]
    exact h.unused q fun hm => hq (List.mem_append_left [p] hm)
  · exact (Function.update_of_ne hcur true w.unused).trans h.running

theorem Noted.switch {w : Watched} (h : Noted w) {c : Context} (hc : c.eip ≠ switched) :
    Noted { (w.record w.tasks.current c).use (w.tasks.switch c).current with
      tasks := w.tasks.switch c } := by
  have h0 := h.queue.linked.ne_null _ h.queue.current
  refine ⟨h.queue.switch hc, fun q hq c' hr => ?_, fun q hq hne => ?_, fun q hq => ?_, ?_⟩
  · dsimp only [record, use] at hr
    rw [switch_context h0 hc]
    rw [Function.update_apply] at hr
    by_cases hqc : q = w.tasks.current
    · rw [if_pos hqc] at hr
      rw [if_pos hqc, Option.some.inj hr]
    · rw [if_neg hqc] at hr
      rw [if_neg hqc]
      exact h.context q hq c' hr
  · dsimp only [record, use]
    rw [Function.update_apply]
    by_cases hqc : q = w.tasks.current
    · rw [if_pos hqc]
      rfl
    · rw [if_neg hqc]
      exact h.recorded q hq hqc
  · have hcur := (h.queue.switch hc).current
    have hne : q ≠ (w.tasks.switch c).current := fun he => hq (he ▸ hcur)
    have hne' : q ≠ w.tasks.current := fun he => hq (he ▸ h.queue.current)
    dsimp only [record, use]
    rw [Function.update_of_ne hne, Function.update_of_ne hne']
    exact h.unused q hq
  · exact Function.update_self ..

theorem Noted.execVE {w : Watched} (h : Noted w) (entry arguments environment : Nat) :
    Noted { w.record w.tasks.current
        ⟨entry, stackStart - 0x100, (w.tasks.task w.tasks.current).ebp⟩ with
      tasks := w.tasks.execVE entry arguments environment, execed := true } := by
  refine ⟨h.queue.execVE entry arguments environment, fun q hq c' hr => ?_, fun q hq hne => ?_,
    fun q hq => ?_, ?_⟩
  · dsimp only [record] at hr
    rw [execVE_context]
    rw [Function.update_apply] at hr
    by_cases hqc : q = w.tasks.current
    · rw [if_pos hqc] at hr
      rw [if_pos hqc, ← Option.some.inj hr]
    · rw [if_neg hqc] at hr
      rw [if_neg hqc]
      exact h.context q hq c' hr
  · have hqc : q ≠ w.tasks.current := hne
    dsimp only [record]
    rw [Function.update_of_ne hqc]
    exact h.recorded q hq hqc
  · have hne : q ≠ w.tasks.current := fun he => hq (he ▸ h.queue.current)
    dsimp only [record]
    rw [Function.update_of_ne hne]
    exact h.unused q hq
  · exact Function.update_self ..

/-- In a switch the task resumed finds its directory and the context last recorded for it. -/
theorem Noted.resumed {w : Watched} (h : Noted w) {c : Context} (hc : c.eip ≠ switched) :
    Function.update w.recorded w.tasks.current (some c) (w.tasks.switch c).current =
        some (w.tasks.switch c).loaded ∧
      (w.tasks.switch c).currentDirectory =
        (w.tasks.task (w.tasks.switch c).current).directory := by
  have h0 := h.queue.linked.ne_null _ h.queue.current
  obtain ⟨-, hloaded, hdir⟩ := switch_eq h0 hc
  refine ⟨?_, hdir.trans (switch_directory c _ _)⟩
  rw [hloaded, switch_context h0 hc, Function.update_apply]
  by_cases hcur : (w.tasks.switch c).current = w.tasks.current
  · rw [if_pos hcur, if_pos hcur]
  · rw [if_neg hcur, if_neg hcur]
    have hm := (h.queue.switch hc).current
    obtain ⟨c', hc'⟩ := Option.isSome_iff_exists.1 (h.recorded _ hm hcur)
    rw [hc', h.context _ hm c' hc']

/-- **One call.** The observer's notes stay right, and the call keeps what is expected just when no
context of an `ExecVE` is pending. -/
theorem Noted.step {w w' : Watched} {i : Call} (h : Noted w) (hs : w.Step i w') :
    Noted w' ∧ (w.Kept i w' ↔ w.NotExeced i) := by
  obtain ⟨hl, hc⟩ := hs
  cases i with
  | fork rounds p directory stack c =>
    obtain ⟨⟨pid, s⟩, hf, hr⟩ := bind_ok.1 hc
    cases hr
    exact ⟨h.fork hl hf, fun _ => trivial, fun _ => h.unused p hl.2.2⟩
  | switch c =>
    cases hc
    refine ⟨h.switch hl, fun hk => h.running.symm.trans hk.1, fun hn => ?_⟩
    exact ⟨h.running.trans hn, h.resumed hl⟩
  | execVE entry arguments environment =>
    cases hc
    exact ⟨h.execVE entry arguments environment, fun hk => h.running.symm.trans hk,
      fun hn => h.running.trans hn⟩

/-- **Each task resumes where it was last told to** just as long as `Switch` and `ExecVE` are not
called with the context of an `ExecVE` pending. -/
theorem resumes_where_told {s : Tasks} {p stack : Nat} {w w' : Watched} {i : Call}
    (hpid : s.nextPid = 1) (hp : Fresh [] p)
    (h : Guarded.Run Step (fun _ _ => True) (init p stack s) w) (hs : w.Step i w') :
    w.Kept i w' ↔ w.NotExeced i := by
  have hw : Noted w := h.invariant (Noted.init hpid hp) fun _ _ _ ht _ hs => (ht.step hs).1
  exact (hw.step hs).2

/-- The first task after it called `ExecVE`. -/
def afterExecVE : Watched :=
  { (init 0x2000 0x3000 unborn).record 0x2000 ⟨0x8048000, stackStart - 0x100, 0⟩ with
    tasks := (unborn.init 0x2000 0x3000).execVE 0x8048000 0 0, execed := true }

theorem afterExecVE_run : Guarded.Run Step (fun _ _ => True) (init 0x2000 0x3000 unborn) afterExecVE :=
  .tail (i := .execVE 0x8048000 0 0) .refl trivial ⟨trivial, rfl⟩

/-- The first task has forked another and is switched out; the second runs. -/
theorem resumes_where_told_forked : ∃ w w',
    Guarded.Run Step (fun _ _ => True) (init 0x2000 0x3000 unborn) w ∧
    w.created = [0x2000, 0x4000] ∧ w.tasks.current = 0x4000 ∧
    w.Step (.switch ⟨0x100030, 0x5F00, 0x5F08⟩) w' ∧ w'.tasks.loaded = ⟨0x100020, 0x2F10, 0x2F18⟩ ∧
    w.Kept (.switch ⟨0x100030, 0x5F00, 0x5F08⟩) w' := by
  have hkernel : ∀ (w : Watched) (c : Context), 0x100000 ≤ c.eip → w.Legal (.switch c) := fun w c hc => by
    show c.eip ≠ switched
    unfold switched
    omega
  have hrun : Guarded.Run Step (fun _ _ => True) (init 0x2000 0x3000 unborn) _ :=
    .tail (i := .switch ⟨0x100020, 0x2F10, 0x2F18⟩)
      (.tail (i := .fork 1 0x4000 0x5000 0x5800 ⟨0x100010, 0x2F00, 0x2F08⟩) .refl trivial
        ⟨⟨by decide, by decide, by decide⟩, rfl⟩) trivial ⟨hkernel _ _ (by decide), rfl⟩
  refine ⟨_, _, hrun, rfl, rfl, ⟨hkernel _ _ (by decide), rfl⟩, rfl, ?_⟩
  exact (resumes_where_told rfl ⟨by decide, by decide, by decide⟩ hrun
    ⟨hkernel _ _ (by decide), rfl⟩).2 rfl

/-- A task that calls `ExecVE` and is then switched out: its new context is lost. -/
theorem execVE_lost : ¬ ∀ (s : Tasks) (p stack : Nat) (w w' : Watched) (i : Call), s.nextPid = 1 →
    Fresh [] p → Guarded.Run Step (fun _ _ => True) (init p stack s) w → w.Step i w' →
    w.Kept i w' := by
  intro h
  have hk := h unborn 0x2000 0x3000 afterExecVE _ (.switch ⟨0x100000, 0, 0⟩) rfl
    ⟨by decide, by decide, by decide⟩ afterExecVE_run ⟨(by decide : 0x100000 ≠ switched), rfl⟩
  cases hk.1

end Watched

end Tasks

end Dmanix
