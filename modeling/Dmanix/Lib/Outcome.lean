import Mathlib.Logic.Basic

/-!
# What a computation that may stop satisfies

`Meets x Q E`: the computation `x` gives a value that satisfies `Q`, or stops with an error that
satisfies `E`. The rules follow the program: a value, a sequence (`Meets.bind`), a weaker claim
(`Meets.mono`), a loop over `0, …, n - 1` (`upTo`) and a counted loop with a test (`loop`), whose
rule is an invariant of counter and state. `Enters` are the rounds a loop makes; where each of them
returns and a measure of the counter falls, the loop returns (`loop_returns`). A program that carries
more state than another projects to it (`seq_map`, `upTo_map`).
-/

namespace Outcome

variable {ε α β σ : Type}

structure Meets (x : Except ε α) (Q : α → Prop) (E : ε → Prop) : Prop where
  ok : ∀ {a}, x = .ok a → Q a
  error : ∀ {e}, x = .error e → E e

variable {Q Q' : α → Prop} {R : β → Prop} {E E' : ε → Prop}

theorem Meets.pure {a : α} (h : Q a) : Meets (.ok a : Except ε α) Q E :=
  ⟨fun ha => Except.ok.inj ha ▸ h, nofun⟩

theorem Meets.stop {e : ε} (h : E e) : Meets (.error e : Except ε α) Q E :=
  ⟨nofun, fun he => Except.error.inj he ▸ h⟩

theorem Meets.intro {x : Except ε α} (h : ∀ a, x = .ok a → Q a) : Meets x Q fun _ => True :=
  ⟨fun hx => h _ hx, fun _ => trivial⟩

theorem Meets.mono {x : Except ε α} (h : Meets x Q E) (hQ : ∀ a, Q a → Q' a)
    (hE : ∀ e, E e → E' e) : Meets x Q' E' :=
  ⟨fun hx => hQ _ (h.ok hx), fun hx => hE _ (h.error hx)⟩

theorem Meets.imp {x : Except ε α} (h : Meets x Q E) (hQ : ∀ a, Q a → Q' a) : Meets x Q' E :=
  h.mono hQ fun _ he => he

theorem Meets.returns {x : Except ε α} (h : Meets x Q fun _ => False) : ∃ a, x = .ok a ∧ Q a := by
  cases x with
  | ok a => exact ⟨a, rfl, h.ok rfl⟩
  | error e => exact (h.error rfl).elim

/-- A sequence: the second part starts where the first gave a value. -/
theorem Meets.bind {x : Except ε α} {f : α → Except ε β} (h : Meets x Q E)
    (hf : ∀ a, Q a → Meets (f a) R E) : Meets (x >>= f) R E := by
  cases x with
  | ok a => exact hf a (h.ok rfl)
  | error e => exact .stop (h.error rfl)

/-! ## Projections -/

/-- A sequence whose parts project to the parts of another projects to it. -/
theorem seq_map {γ δ : Type} {x : Except ε α} {y : Except ε β} {f : α → Except ε γ}
    {g : β → Except ε δ} {p : α → β} {r : γ → δ} (hx : x.map p = y)
    (hf : ∀ a, (f a).map r = g (p a)) : (x >>= f).map r = y >>= g := by
  cases x with
  | ok a =>
    cases hx
    exact hf a
  | error e =>
    cases hx
    rfl

theorem seq_map_right {γ δ : Type} {x : Except ε α} {f : α → Except ε γ} {g : α → Except ε δ}
    {r : γ → δ} (hf : ∀ a, (f a).map r = g a) : (x >>= f).map r = x >>= g := by
  cases x with
  | ok a => exact hf a
  | error e => rfl

/-! ## Loops -/

/-- `for (i = 0; i < n; ++i) body` -/
def upTo (body : Nat → σ → Except ε σ) : Nat → σ → Except ε σ
  | 0, s => .ok s
  | n + 1, s => do
    let s ← upTo body n s
    body n s

theorem upTo_meets {body : Nat → σ → Except ε σ} {I : Nat → σ → Prop} {n : Nat} {s : σ}
    (h0 : I 0 s) (hstep : ∀ i s, i < n → I i s → Meets (body i s) (I (i + 1)) E) :
    Meets (upTo body n s) (I n) E := by
  induction n with
  | zero => exact .pure h0
  | succ n ih =>
    exact (ih fun i s hi => hstep i s (Nat.lt_succ_of_lt hi)).bind fun s hs =>
      hstep n s (Nat.lt_succ_self n) hs

/-- An invariant that the rounds of a loop keep, where it returns; each round starts from what the
rounds before it gave. -/
theorem upTo_ok {body : Nat → σ → Except ε σ} {I : Nat → σ → Prop} {n : Nat} {s s' : σ}
    (h : upTo body n s = .ok s') (h0 : I 0 s)
    (hstep : ∀ i t u, i < n → upTo body i s = .ok t → I i t → body i t = .ok u → I (i + 1) u) :
    I n s' := by
  induction n generalizing s' with
  | zero =>
    cases h
    exact h0
  | succ n ih =>
    cases ht : upTo body n s with
    | error e =>
      rw [upTo, ht] at h
      cases h
    | ok t =>
      rw [upTo, ht] at h
      exact hstep n t s' (Nat.lt_succ_self n) ht
        (ih ht fun i t u hi => hstep i t u (Nat.lt_succ_of_lt hi)) h

theorem upTo_stops {body : Nat → σ → Except ε σ} {n i : Nat} {s t : σ} {e : ε}
    (ht : upTo body i s = .ok t) (he : body i t = .error e) (hi : i < n) :
    upTo body n s = .error e := by
  induction n with
  | zero => exact absurd hi (Nat.not_lt_zero i)
  | succ n ih =>
    by_cases hin : i = n
    · subst hin
      rw [upTo, ht]
      exact he
    · rw [upTo, ih (Nat.lt_of_le_of_ne (Nat.le_of_lt_succ hi) hin)]
      rfl

theorem upTo_map {σ' : Type} {body : Nat → σ → Except ε σ} {body' : Nat → σ' → Except ε σ'}
    {p : σ → σ'} (h : ∀ i s, (body i s).map p = body' i (p s)) (n : Nat) (s : σ) :
    (upTo body n s).map p = upTo body' n (p s) := by
  induction n with
  | zero => rfl
  | succ n ih => exact seq_map ih (h n)

/-- `for (; test; i = next(i)) body`, granted `rounds` tests; then it stops with `hang`. -/
def loop (hang : ε) (test : Nat → σ → Bool) (next : Nat → Nat) (body : Nat → σ → Except ε σ) :
    Nat → Nat → σ → Except ε σ
  | 0, _, _ => .error hang
  | rounds + 1, i, s =>
    if test i s then do
      let s ← body i s
      loop hang test next body rounds (next i) s
    else .ok s

section
variable {hang : ε} {test : Nat → σ → Bool} {next : Nat → Nat} {body : Nat → σ → Except ε σ}
  {I : Nat → σ → Prop}

/-- An invariant of counter and state that the body keeps holds where the test first fails. -/
theorem loop_meets (hhang : E hang)
    (hstep : ∀ i s, I i s → test i s = true → Meets (body i s) (I (next i)) E) :
    ∀ (rounds i : Nat) (s : σ), I i s →
      Meets (loop hang test next body rounds i s) (fun s' => ∃ j, I j s' ∧ test j s' = false) E
  | 0, _, _, _ => .stop hhang
  | rounds + 1, i, s, h => by
    unfold loop
    by_cases ht : test i s = true
    · rw [if_pos ht]
      exact (hstep i s h ht).bind fun s' hs' => loop_meets hhang hstep rounds (next i) s' hs'
    · rw [if_neg ht]
      exact .pure ⟨i, h, Bool.eq_false_iff.2 ht⟩

/-- The loop from counter `i` and state `s` enters its body with counter `j` and state `t`. -/
inductive Enters (test : Nat → σ → Bool) (next : Nat → Nat) (body : Nat → σ → Except ε σ) (i : Nat)
    (s : σ) : Nat → σ → Prop
  | start : test i s = true → Enters test next body i s i s
  | round {j : Nat} {t u : σ} : Enters test next body i s j t → body j t = .ok u →
      test (next j) u = true → Enters test next body i s (next j) u

theorem Enters.test_eq {i j : Nat} {s t : σ} (h : Enters test next body i s j t) :
    test j t = true := by
  cases h with
  | start ht => exact ht
  | round _ _ ht => exact ht

theorem Enters.later {i j : Nat} {s t u : σ} (ht : test i s = true) (hb : body i s = .ok u)
    (h : Enters test next body (next i) u j t) : Enters test next body i s j t := by
  induction h with
  | start h' => exact .round (.start ht) hb h'
  | round _ hb' ht' ih => exact .round ih hb' ht'

theorem Enters.invariant {i j : Nat} {s t : σ} (h : Enters test next body i s j t) (h0 : I i s)
    (hstep : ∀ j t u, Enters test next body i s j t → I j t → body j t = .ok u → I (next j) u) :
    I j t := by
  induction h with
  | start _ => exact h0
  | round he hb _ ih => exact hstep _ _ _ he ih hb

/-- An invariant that the rounds a loop makes keep, where it returns. -/
theorem loop_ok {i rounds : Nat} {s s' : σ} (h : loop hang test next body rounds i s = .ok s')
    (h0 : I i s)
    (hstep : ∀ j t u, Enters test next body i s j t → I j t → body j t = .ok u → I (next j) u) :
    ∃ j, I j s' ∧ test j s' = false := by
  obtain ⟨j, ⟨hj, -⟩, hf⟩ := (@loop_meets ε σ (fun _ => True) hang test next body
    (fun j t => I j t ∧ (test j t = true → Enters test next body i s j t)) trivial
    (fun j t ⟨hj, he⟩ ht => .intro fun u hu =>
      ⟨hstep j t u (he ht) hj hu, fun ht' => .round (he ht) hu ht'⟩)
    rounds i s ⟨h0, .start⟩).ok h
  exact ⟨j, hj, hf⟩

/-- **A loop returns** where each round does and a measure of the counter falls. -/
theorem loop_returns (hang : ε) (m : Nat → Nat) : ∀ (k i : Nat) (s : σ), m i ≤ k →
    (∀ j t, Enters test next body i s j t → (∃ u, body j t = .ok u) ∧ m (next j) < m j) →
    ∃ rounds s', loop hang test next body rounds i s = .ok s' := by
  intro k
  induction k with
  | zero =>
    intro i s hk h
    by_cases ht : test i s = true
    · have := (h i s (.start ht)).2
      omega
    · exact ⟨1, s, if_neg ht⟩
  | succ k ih =>
    intro i s hk h
    by_cases ht : test i s = true
    · obtain ⟨⟨u, hu⟩, hm⟩ := h i s (.start ht)
      obtain ⟨rounds, s', hs'⟩ := ih (next i) u (by omega) fun j t he => h j t (he.later ht hu)
      refine ⟨rounds + 1, s', ?_⟩
      unfold loop
      rw [if_pos ht, hu]
      exact hs'
    · exact ⟨1, s, if_neg ht⟩

end

end Outcome
