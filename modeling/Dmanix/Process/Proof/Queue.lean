import Dmanix.Process.Task
import Mathlib.Data.List.Perm.Subperm
import Mathlib.Data.List.Rotate
import Mathlib.Data.List.Range

/-!
# The scheduler's queue

`Reached ps s`: some run of `Fork` and `Switch` leads from `Initialize` to `s` and created the tasks
`ps`, in this order. `Queue ps s` is the invariant: the queue links `ps`, the pids count them and
`current` is one of them. It holds in every state reached (`Reached.queue`), so `Switch` runs the
tasks in turn: `round_robin`.
-/

namespace Dmanix

open Word32

namespace Tasks

/-! ## Changes of one task -/

@[simp] theorem modify_self (s : Tasks) (p : Nat) (f : Task → Task) :
    (s.modify p f).task p = f (s.task p) := Function.update_self ..

theorem modify_of_ne (s : Tasks) {p a : Nat} (f : Task → Task) (h : a ≠ p) :
    (s.modify p f).task a = s.task a := Function.update_of_ne h ..

/-- A field that `f` leaves alone is the same in all tasks. -/
theorem modify_field {β : Type} (g : Task → β) (s : Tasks) (p : Nat) {f : Task → Task}
    (hf : ∀ t, g (f t) = g t) (a : Nat) : g ((s.modify p f).task a) = g (s.task a) := by
  by_cases h : a = p
  · rw [h, modify_self, hf]
  · rw [modify_of_ne s f h]

theorem newTask_self (s : Tasks) (p directory stack : Nat) :
    (s.newTask p directory stack).task p = { s.task p with
      pid := s.nextPid, esp := 0, ebp := 0, eip := 0, stack, directory, next := 0 } :=
  Function.update_self ..

theorem newTask_of_ne (s : Tasks) {p a : Nat} (directory stack : Nat) (h : a ≠ p) :
    (s.newTask p directory stack).task a = s.task a := Function.update_of_ne h ..

/-! ## What `Switch` does to the queue -/

/-- `Switch` changes no field but the registers of the task it leaves. -/
theorem switch_field {β : Type} (g : Task → β)
    (hg : ∀ (t : Task) (c : Context), g { t with eip := c.eip, esp := c.esp, ebp := c.ebp } = g t)
    (c : Context) (s : Tasks) (a : Nat) : g ((s.switch c).task a) = g (s.task a) := by
  unfold switch
  split
  · rfl
  · split
    · rfl
    · exact modify_field g s s.current (fun t => hg t c) a

theorem switch_next (c : Context) (s : Tasks) : (s.switch c).next = s.next :=
  funext fun a => switch_field Task.next (fun _ _ => rfl) c s a

theorem switch_pid (c : Context) (s : Tasks) (a : Nat) :
    ((s.switch c).task a).pid = (s.task a).pid := switch_field Task.pid (fun _ _ => rfl) c s a

theorem switch_queue (c : Context) (s : Tasks) : (s.switch c).queue = s.queue := by
  unfold switch
  split
  · rfl
  · split <;> rfl

theorem switch_nextPid (c : Context) (s : Tasks) : (s.switch c).nextPid = s.nextPid := by
  unfold switch
  split
  · rfl
  · split <;> rfl

/-- `Switch` moves the cursor. -/
theorem switch_current {c : Context} {s : Tasks} (h0 : s.current ≠ 0) (hc : c.eip ≠ switched) :
    (s.switch c).current = Links.cursor s.next 0 s.queue s.current := by
  have hn := modify_field Task.next s s.current
    (f := fun t => { t with eip := c.eip, esp := c.esp, ebp := c.ebp }) (fun _ => rfl) s.current
  unfold switch
  rw [if_neg h0, if_neg hc]
  dsimp only
  unfold Links.cursor Tasks.next
  rw [show (s.modify s.current _).current = s.current from rfl, hn]
  rfl

/-! ## The invariant -/

/-- What an allocation of an object yields: a pointer, other than those in use. -/
def Fresh (ps : List Nat) (p : Nat) : Prop := p ≠ 0 ∧ p < 4294967296 ∧ p ∉ ps

/-- The queue holds the tasks `ps`. -/
structure Queue (ps : List Nat) (s : Tasks) : Prop where
  linked : Links.Linked s.next 0 s.queue ps
  words : ∀ p ∈ ps, p < 4294967296
  pid : ∀ i p, ps[i]? = some p → (s.task p).pid = i + 1
  nextPid : s.nextPid = add32 ps.length 1
  current : s.current ∈ ps

/-- The states that runs of `Fork` and `Switch` reach, with the tasks created on the way. -/
inductive Reached : List Nat → Tasks → Prop
  | init {s : Tasks} {p stack : Nat} : s.nextPid = 1 → Fresh [] p → Reached [p] (s.init p stack)
  | fork {ps : List Nat} {s s' : Tasks} {rounds p directory stack pid : Nat} {c : Context} :
      Reached ps s → Fresh ps p → s.fork rounds p directory stack c = .ok (pid, s') →
      Reached (ps ++ [p]) s'
  | switch {ps : List Nat} {s : Tasks} {c : Context} :
      Reached ps s → c.eip ≠ switched → Reached ps (s.switch c)

/-- There are fewer tasks than pointers. -/
theorem length_lt {ps : List Nat} {next : Nat → Nat} {a : Nat} (h : Links.Linked next 0 a ps)
    (hw : ∀ p ∈ ps, p < 4294967296) : ps.length < 4294967296 := by
  have hsub : ps ⊆ List.range' 1 4294967295 := fun p hp => by
    have h0 := h.ne_null p hp
    have h1 := hw p hp
    exact List.mem_range'_1.2 ⟨by omega, by omega⟩
  have hle := (h.nodup.subperm hsub).length_le
  rw [List.length_range'] at hle
  omega

theorem Queue.init {s : Tasks} {p stack : Nat} (hpid : s.nextPid = 1) (hp : Fresh [] p) :
    Queue [p] (s.init p stack) where
  linked := by
    refine ⟨rfl, hp.1, ?_⟩
    have := newTask_self s p s.currentDirectory stack
    exact congrArg Task.next this
  words q hq := by
    rw [List.mem_singleton.1 hq]
    exact hp.2.1
  pid i q hq := by
    obtain ⟨hi, rfl⟩ := List.getElem?_eq_some_iff.1 hq
    obtain rfl : i = 0 := Nat.lt_one_iff.1 hi
    have := newTask_self s p s.currentDirectory stack
    exact (congrArg Task.pid this).trans hpid
  nextPid := congrArg (add32 · 1) hpid
  current := List.mem_singleton_self p

theorem Queue.switch {ps : List Nat} {s : Tasks} (h : Queue ps s) {c : Context}
    (hc : c.eip ≠ switched) : Queue ps (s.switch c) where
  linked := by
    rw [switch_next, switch_queue]
    exact h.linked
  words := h.words
  pid i p hp := by rw [switch_pid, h.pid i p hp]
  nextPid := by rw [switch_nextPid, h.nextPid]
  current := by
    rw [switch_current (h.linked.ne_null _ h.current) hc]
    obtain ⟨i, hi⟩ := List.getElem?_of_mem h.current
    exact List.mem_of_getElem? (h.linked.cursor_eq hi)

/-! ## What `Fork` does to the queue -/

/-- The state after `Fork` has put a task at `p` behind the task `b`. -/
def forked (b p directory stack : Nat) (c : Context) (s : Tasks) : Tasks :=
  ((s.newTask p directory stack).modify b fun t => { t with next := p }).modify p fun t =>
    { t with esp := c.esp, ebp := c.ebp, eip := c.eip }

section
variable {ps l : List Nat} {s s' : Tasks} {b p rounds directory stack pid : Nat} {c : Context}

/-- The walk of `Fork` passes over the queue as it was. -/
theorem Queue.newTask_linked (h : Queue ps s) (hp : Fresh ps p) (directory stack : Nat) :
    Links.Linked (s.newTask p directory stack).next 0 s.queue ps :=
  h.linked.congr fun _ ha => congrArg Task.next
    (newTask_of_ne s directory stack fun he => hp.2.2 (he ▸ ha))

theorem Queue.fork_returns (h : Queue (l ++ [b]) s) (hp : Fresh (l ++ [b]) p) (directory stack : Nat)
    (c : Context) : s.fork (l.length + 1) p directory stack c =
      .ok (((s.forked b p directory stack c).task p).pid, s.forked b p directory stack c) := by
  have hw := (h.newTask_linked hp directory stack).lastNode_some
    (Nat.lt_succ_self l.length)
  unfold fork
  dsimp only
  rw [show (s.newTask p directory stack).queue = s.queue from rfl]
  unfold Tasks.next at hw
  rw [hw]
  rfl

theorem Queue.fork_eq (h : Queue (l ++ [b]) s) (hp : Fresh (l ++ [b]) p)
    (hf : s.fork rounds p directory stack c = .ok (pid, s')) :
    s' = s.forked b p directory stack c := by
  unfold fork at hf
  dsimp only at hf
  split at hf
  · cases hf
  · rename_i it hw
    obtain rfl := (h.newTask_linked hp directory stack).lastNode_eq hw
    cases hf
    rfl

theorem forked_new (hb : b ≠ p) (s : Tasks) (directory stack : Nat) (c : Context) :
    ((s.forked b p directory stack c).task p).pid = s.nextPid ∧
    (s.forked b p directory stack c).next p = 0 := by
  have h1 : (s.forked b p directory stack c).task p =
      { (s.newTask p directory stack).task p with esp := c.esp, ebp := c.ebp, eip := c.eip } := by
    unfold forked
    rw [modify_self, modify_of_ne _ _ (Ne.symm hb)]
  rw [newTask_self] at h1
  exact ⟨congrArg Task.pid h1, congrArg Task.next h1⟩

theorem forked_last (hb : b ≠ p) : (s.forked b p directory stack c).next b = p := by
  have h1 : (s.forked b p directory stack c).task b =
      { (s.newTask p directory stack).task b with next := p } := by
    unfold forked
    rw [modify_of_ne _ _ hb, modify_self]
  exact congrArg Task.next h1

theorem forked_other {a : Nat} (ha : a ≠ p) (hab : a ≠ b) :
    (s.forked b p directory stack c).task a = s.task a := by
  unfold forked
  rw [modify_of_ne _ _ ha, modify_of_ne _ _ hab, newTask_of_ne s directory stack ha]

theorem forked_pid {a : Nat} (ha : a ≠ p) :
    ((s.forked b p directory stack c).task a).pid = (s.task a).pid := by
  unfold forked
  have hb := modify_field Task.pid (s.newTask p directory stack) b
    (f := fun t => { t with next := p }) (fun _ => rfl) a
  rw [modify_of_ne _ _ ha, hb, newTask_of_ne s directory stack ha]

end

theorem Queue.last {ps : List Nat} {s : Tasks} (h : Queue ps s) : ∃ l b, ps = l ++ [b] :=
  (List.eq_nil_or_concat' ps).resolve_left (List.ne_nil_of_mem h.current)

theorem Queue.fork {ps : List Nat} {s s' : Tasks} {rounds p directory stack pid : Nat} {c : Context}
    (h : Queue ps s) (hp : Fresh ps p) (hf : s.fork rounds p directory stack c = .ok (pid, s')) :
    Queue (ps ++ [p]) s' := by
  obtain ⟨l, b, rfl⟩ := h.last
  obtain rfl := h.fork_eq hp hf
  have hne : ∀ a ∈ l ++ [b], a ≠ p := fun a ha he => hp.2.2 (he ▸ ha)
  have hbp : b ≠ p := hne b (List.mem_append_right l (List.mem_singleton_self b))
  have hlb : ∀ a ∈ l, a ≠ b := fun a ha he =>
    (List.nodup_append.1 h.linked.nodup).2.2 a ha b (List.mem_singleton_self b) he
  obtain ⟨hpid, hnext⟩ := forked_new hbp s directory stack c
  have hlinked : Links.Linked (s.forked b p directory stack c).next 0 s.queue (l ++ [b] ++ [p]) :=
    h.linked.snoc hp.1 (forked_last hbp) hnext fun a ha =>
      congrArg Task.next (forked_other (hne a (List.mem_append_left [b] ha)) (hlb a ha))
  have hwords : ∀ a ∈ l ++ [b] ++ [p], a < 4294967296 := fun a ha => by
    rcases List.mem_append.1 ha with ha | ha
    · exact h.words a ha
    · rw [List.mem_singleton.1 ha]
      exact hp.2.1
  have hlen := length_lt hlinked hwords
  rw [List.length_append, List.length_singleton] at hlen
  refine ⟨hlinked, hwords, fun i a ha => ?_, ?_, List.mem_append_left [p] h.current⟩
  · rcases Nat.lt_or_ge i (l ++ [b]).length with hi | hi
    · rw [List.getElem?_append_left hi] at ha
      rw [forked_pid (hne a (List.mem_of_getElem? ha)), h.pid i a ha]
    · rw [List.getElem?_append_right hi] at ha
      obtain ⟨hlt, rfl⟩ := List.getElem?_eq_some_iff.1 ha
      rw [List.length_singleton] at hlt
      rw [List.getElem_singleton, hpid, h.nextPid, add32_eq (by omega)]
      omega
  · rw [List.length_append, List.length_singleton]
    refine (congrArg (add32 · 1) h.nextPid).trans ?_
    unfold add32
    omega

/-- **The queue holds in every state reached.** -/
theorem Reached.queue {ps : List Nat} {s : Tasks} (h : Reached ps s) : Queue ps s := by
  induction h with
  | init hpid hp => exact .init hpid hp
  | fork _ hp hf ih => exact ih.fork hp hf
  | switch _ hc ih => exact ih.switch hc

/-! ## Round robin -/

/-- The task running after each of the given switches. -/
def visited : List Context → Tasks → List Nat
  | [], _ => []
  | c :: cs, s => (s.switch c).current :: visited cs (s.switch c)

theorem length_visited : ∀ (cs : List Context) (s : Tasks), (visited cs s).length = cs.length
  | [], _ => rfl
  | c :: cs, s => congrArg Nat.succ (length_visited cs (s.switch c))

/-- The tasks visited are those behind the current one, counted around. -/
theorem Queue.visited {ps : List Nat} : ∀ {cs : List Context} {s : Tasks} {pos k : Nat},
    Queue ps s → ps[pos]? = some s.current → (∀ c ∈ cs, c.eip ≠ switched) → k < cs.length →
      (visited cs s)[k]? = ps[(pos + (k + 1)) % ps.length]?
  | c :: cs, s, pos, k, h, hpos, hc, hk => by
    have hc0 := hc c List.mem_cons_self
    have hcur : ps[(pos + 1) % ps.length]? = some (s.switch c).current := by
      rw [switch_current (h.linked.ne_null _ h.current) hc0]
      exact h.linked.cursor_eq hpos
    unfold Tasks.visited
    cases k with
    | zero => rw [List.getElem?_cons_zero, hcur]
    | succ k =>
      rw [List.getElem?_cons_succ, (h.switch hc0).visited hcur
        (fun c' hc' => hc c' (List.mem_cons_of_mem c hc')) (Nat.lt_of_succ_lt_succ hk),
        Nat.mod_add_mod, show pos + 1 + (k + 1) = pos + (k + 1 + 1) by omega]

/-- Switching as often as there are tasks visits each of them. -/
theorem Queue.visited_perm {ps : List Nat} {cs : List Context} {s : Tasks} {pos : Nat}
    (h : Queue ps s) (hpos : ps[pos]? = some s.current) (hc : ∀ c ∈ cs, c.eip ≠ switched)
    (hlen : cs.length = ps.length) : (Tasks.visited cs s).Perm ps := by
  have hrot : Tasks.visited cs s = ps.rotate (pos + 1) := by
    refine List.ext_getElem? fun k => ?_
    rcases Nat.lt_or_ge k cs.length with hk | hk
    · rw [h.visited hpos hc hk, List.getElem?_rotate (hlen ▸ hk)]
      congr 2
      omega
    · rw [List.getElem?_eq_none (by rw [length_visited]; exact hk),
        List.getElem?_eq_none (by rw [List.length_rotate, ← hlen]; exact hk)]
  rw [hrot]
  exact List.rotate_perm ps (pos + 1)

/-- Switching `k` times moves the cursor `k` tasks on, counted around. -/
theorem Queue.switches {ps : List Nat} : ∀ {cs : List Context} {s : Tasks} {pos : Nat},
    Queue ps s → ps[pos]? = some s.current → (∀ c ∈ cs, c.eip ≠ switched) →
      ps[(pos + cs.length) % ps.length]? = some (cs.foldl (fun s c => s.switch c) s).current
  | [], s, pos, _, hpos, _ => by
    rw [List.length_nil, Nat.add_zero, Nat.mod_eq_of_lt (List.getElem?_eq_some_iff.1 hpos).1]
    exact hpos
  | c :: cs, s, pos, h, hpos, hc => by
    have hc0 := hc c List.mem_cons_self
    have hcur : ps[(pos + 1) % ps.length]? = some (s.switch c).current := by
      rw [switch_current (h.linked.ne_null _ h.current) hc0]
      exact h.linked.cursor_eq hpos
    rw [List.foldl_cons, ← (h.switch hc0).switches hcur fun c' hc' =>
      hc c' (List.mem_cons_of_mem c hc'), Nat.mod_add_mod, List.length_cons,
      show pos + 1 + cs.length = pos + (cs.length + 1) by omega]

/-- **The scheduler's queue and round robin.** In every state that a run of `Fork` and `Switch`
reaches, the queue ends in `NULL`, has no cycle and links the tasks created, in order and with rising
pids, and `current` is one of them; a `Fork` returns; switching `k` times leads `k` tasks on, counted
around, and switching as often as there are tasks runs each of them once. -/
theorem round_robin {ps : List Nat} {s : Tasks} (h : Reached ps s) :
    (Links.Linked s.next 0 s.queue ps ∧ ps.Nodup ∧
      (ps.map fun p => (s.task p).pid).Pairwise (· < ·) ∧ s.current ∈ ps) ∧
    (∀ p directory stack c, Fresh ps p →
      ∃ rounds pid s', s.fork rounds p directory stack c = .ok (pid, s')) ∧
    ∀ pos, ps[pos]? = some s.current → ∀ cs : List Context, (∀ c ∈ cs, c.eip ≠ switched) →
      ps[(pos + cs.length) % ps.length]? = some (cs.foldl (fun s c => s.switch c) s).current ∧
      (cs.length = ps.length → (visited cs s).Perm ps) := by
  have hq := h.queue
  refine ⟨⟨hq.linked, hq.linked.nodup, ?_, hq.current⟩, fun p directory stack c hp => ?_,
    fun pos hpos cs hcs => ⟨hq.switches hpos hcs, fun hlen => hq.visited_perm hpos hcs hlen⟩⟩
  · refine List.pairwise_map.2 (List.pairwise_iff_getElem.2 fun i j hi hj hij => ?_)
    rw [hq.pid i _ (List.getElem?_eq_getElem hi), hq.pid j _ (List.getElem?_eq_getElem hj)]
    exact Nat.succ_lt_succ hij
  · obtain ⟨l, b, rfl⟩ := hq.last
    exact ⟨_, _, _, hq.fork_returns hp directory stack c⟩

/-- The variables before `Initialize`. -/
def unborn : Tasks where
  task _ := ⟨0, 0, 0, 0, 0, 0, 0, 0, 0⟩
  nextPid := 1
  current := 0
  queue := 0
  currentDirectory := 0x1000
  kernelStack := 0
  loaded := ⟨0, 0, 0⟩

/-- A second task is forked, the first is switched out, and the second forks a third. -/
def threeTasks : Tasks :=
  (((unborn.init 0x2000 0x3000).forked 0x2000 0x4000 0x5000 0x5800 ⟨0x100010, 0x2F00, 0x2F08⟩).switch
    ⟨0x100020, 0x2F10, 0x2F18⟩).forked 0x4000 0x6000 0x7000 0x7800 ⟨0x100010, 0x5F00, 0x5F08⟩

theorem threeTasks_reached : Reached [0x2000, 0x4000, 0x6000] threeTasks := by
  have h1 := @Reached.init unborn 0x2000 0x3000 rfl ⟨by decide, by decide, by decide⟩
  have hp2 : Fresh [0x2000] 0x4000 := ⟨by decide, by decide, by decide⟩
  have h2 := (h1.fork hp2 (Queue.fork_returns (l := []) h1.queue hp2 0x5000 0x5800
    ⟨0x100010, 0x2F00, 0x2F08⟩)).switch (c := ⟨0x100020, 0x2F10, 0x2F18⟩) (by decide)
  have hp3 : Fresh [0x2000, 0x4000] 0x6000 := ⟨by decide, by decide, by decide⟩
  exact h2.fork hp3 (Queue.fork_returns (l := [0x2000]) h2.queue hp3 0x7000 0x7800
    ⟨0x100010, 0x5F00, 0x5F08⟩)

theorem round_robin_three :
    ([⟨0x100030, 0, 0⟩, ⟨0x100040, 0, 0⟩].foldl (fun s c => s.switch c) threeTasks).current = 0x2000 ∧
    (visited [⟨0x100030, 0, 0⟩, ⟨0x100040, 0, 0⟩, ⟨0x100050, 0, 0⟩] threeTasks).Perm
      [0x2000, 0x4000, 0x6000] := by
  have h := (round_robin threeTasks_reached).2.2 1 rfl
  refine ⟨?_, (h [⟨0x100030, 0, 0⟩, ⟨0x100040, 0, 0⟩, ⟨0x100050, 0, 0⟩] (by decide)).2 rfl⟩
  have h2 := (h [⟨0x100030, 0, 0⟩, ⟨0x100040, 0, 0⟩] (by decide)).1
  exact (Option.some.inj h2).symm

end Tasks

end Dmanix
