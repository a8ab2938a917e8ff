import Mathlib.Data.List.Nodup
import Mathlib.Logic.Function.Iterate

/-!
# Linked lists in memory

`next` gives the link stored in a node. `Linked next null a l`: the list that starts at `a` has the
nodes `l` and ends in `null`. Such a list is determined by its start (`Linked.unique`), so no node
occurs in it twice (`Linked.nodup`). `Linked.snoc` is what linking a new node behind the last one
does; `lastNode` is the walk that finds the last node. `cursor` is a cursor that follows the links
and wraps to the start: it visits the nodes in turn (`Linked.cursor_eq`).
-/

namespace Links

variable {α : Type} {next next' : α → α} {null a b p : α} {l : List α}

def Linked (next : α → α) (null : α) : α → List α → Prop
  | a, [] => a = null
  | a, b :: l => a = b ∧ b ≠ null ∧ Linked next null (next b) l

theorem Linked.congr : ∀ {l : List α} {a : α}, Linked next null a l →
    (∀ b ∈ l, next' b = next b) → Linked next' null a l
  | [], _, h, _ => h
  | b :: l, _, ⟨ha, hb, hl⟩, he => by
    refine ⟨ha, hb, ?_⟩
    rw [he b List.mem_cons_self]
    exact hl.congr fun c hc => he c (List.mem_cons_of_mem b hc)

theorem Linked.ne_null : ∀ {l : List α} {a : α}, Linked next null a l → ∀ b ∈ l, b ≠ null
  | [], _, _, b, hb => absurd hb List.not_mem_nil
  | c :: l, _, ⟨_, hc, hl⟩, b, hb => by
    rcases List.mem_cons.1 hb with rfl | hb
    · exact hc
    · exact hl.ne_null b hb

/-- The start of a list determines its nodes. -/
theorem Linked.unique : ∀ {l l' : List α} {a : α}, Linked next null a l →
    Linked next null a l' → l = l'
  | [], [], _, _, _ => rfl
  | [], _ :: _, _, h, ⟨ha, hb, _⟩ => absurd (ha.symm.trans h) hb
  | _ :: _, [], _, ⟨ha, hb, _⟩, h => absurd (ha.symm.trans h) hb
  | _ :: _, _ :: _, _, ⟨ha, _, hl⟩, ⟨ha', _, hl'⟩ => by
    subst ha
    subst ha'
    rw [hl.unique hl']

theorem Linked.of_append : ∀ {l l' : List α} {a : α}, Linked next null a (l ++ b :: l') →
    Linked next null b (b :: l')
  | [], _, _, ⟨_, hb, hl⟩ => ⟨rfl, hb, hl⟩
  | _ :: _, _, _, ⟨_, _, hl⟩ => hl.of_append

theorem Linked.nodup : ∀ {l : List α} {a : α}, Linked next null a l → l.Nodup
  | [], _, _ => List.nodup_nil
  | b :: l, a, h => by
    obtain ⟨ha, hb, hl⟩ := h
    refine List.nodup_cons.2 ⟨fun hm => ?_, hl.nodup⟩
    obtain ⟨l1, l2, rfl⟩ := List.append_of_mem hm
    have hcyc : Linked next null b (b :: (l1 ++ b :: l2)) := ⟨rfl, hb, hl⟩
    have := congrArg List.length (hcyc.unique hl.of_append)
    simp only [List.length_cons, List.length_append] at this
    omega

/-- The link of the node at `i` leads to the node at `i + 1`, or to `null` behind the last one. -/
theorem Linked.next_eq : ∀ {l : List α} {a : α} {i : Nat}, Linked next null a l → l[i]? = some b →
    next b = (l[i + 1]?).getD null
  | [], _, _, _, h => by cases h
  | c :: l, a, 0, ⟨_, _, hl⟩, h => by
    cases h
    cases l with
    | nil => exact hl
    | cons d l => exact hl.1
  | c :: l, a, i + 1, ⟨_, _, hl⟩, h => by
    rw [List.getElem?_cons_succ] at h ⊢
    exact hl.next_eq h

theorem Linked.snoc : ∀ {l : List α} {a : α}, Linked next null a (l ++ [b]) → p ≠ null →
    next' b = p → next' p = null → (∀ c ∈ l, next' c = next c) →
      Linked next' null a (l ++ [b] ++ [p])
  | [], _, ⟨ha, hb, _⟩, hp, hbp, hpn, _ => ⟨ha, hb, hbp, hp, hpn⟩
  | c :: l, _, ⟨ha, hc, hl⟩, hp, hbp, hpn, he => by
    refine ⟨ha, hc, ?_⟩
    rw [he c List.mem_cons_self]
    exact hl.snoc hp hbp hpn fun d hd => he d (List.mem_cons_of_mem c hd)

/-! ## The walk to the last node -/

/-- `while (next(a) != null) a = next(a);`, at most `rounds` nodes long. -/
def lastNode [DecidableEq α] (next : α → α) (null : α) : Nat → α → Option α
  | 0, _ => none
  | rounds + 1, a => if next a ≠ null then lastNode next null rounds (next a) else some a

/-- A node that is not the last one leads on. -/
theorem Linked.next_ne {c : α} (h : Linked next null a (c :: (l ++ [b]))) : next a ≠ null := by
  obtain ⟨rfl, -, hl⟩ := h
  intro hn
  cases l with
  | nil => exact hl.2.1 (hl.1.symm.trans hn)
  | cons d l => exact hl.2.1 (hl.1.symm.trans hn)

theorem Linked.next_last (h : Linked next null a [b]) : a = b ∧ next a = null := by
  obtain ⟨rfl, -, hn⟩ := h
  exact ⟨rfl, hn⟩

theorem Linked.lastNode_some [DecidableEq α] : ∀ {l : List α} {a : α} {rounds : Nat},
    Linked next null a (l ++ [b]) → l.length < rounds → lastNode next null rounds a = some b
  | [], _, rounds + 1, h, _ => by
    obtain ⟨rfl, hn⟩ := Linked.next_last h
    rw [lastNode, if_neg (not_not.2 hn)]
  | c :: l, _, rounds + 1, h, hr => by
    rw [lastNode, if_pos (Linked.next_ne h)]
    obtain ⟨rfl, -, hl⟩ := h
    exact hl.lastNode_some (Nat.lt_of_succ_lt_succ hr)

/-- However many rounds the walk is granted, the node it returns is the last one. -/
theorem Linked.lastNode_eq [DecidableEq α] : ∀ {l : List α} {a c : α} {rounds : Nat},
    Linked next null a (l ++ [b]) → lastNode next null rounds a = some c → c = b
  | [], _, _, rounds + 1, h, hw => by
    obtain ⟨rfl, hn⟩ := Linked.next_last h
    rw [lastNode, if_neg (not_not.2 hn)] at hw
    exact (Option.some.inj hw).symm
  | d :: l, _, _, rounds + 1, h, hw => by
    rw [lastNode, if_pos (Linked.next_ne h)] at hw
    obtain ⟨rfl, -, hl⟩ := h
    exact hl.lastNode_eq hw

/-! ## A cursor that wraps -/

/-- The node behind `a`, or the start behind the last node. -/
def cursor [DecidableEq α] (next : α → α) (null start a : α) : α :=
  if next a = null then start else next a

theorem Linked.cursor_eq [DecidableEq α] {i : Nat} (h : Linked next null a l) (hb : l[i]? = some b) :
    l[(i + 1) % l.length]? = some (cursor next null a b) := by
  have hi : i < l.length := (List.getElem?_eq_some_iff.1 hb).1
  have hn := h.next_eq hb
  unfold cursor
  by_cases hlast : i + 1 = l.length
  · rw [List.getElem?_eq_none (by omega), Option.getD_none] at hn
    rw [hlast, Nat.mod_self, if_pos hn]
    cases l with
    | nil => cases hb
    | cons c l => rw [h.1, List.getElem?_cons_zero]
  · obtain ⟨c, hc⟩ : ∃ c, l[i + 1]? = some c := ⟨_, List.getElem?_eq_getElem (by omega)⟩
    rw [hc, Option.getD_some] at hn
    have hne : next b ≠ null := fun hnull =>
      h.ne_null c (List.mem_of_getElem? hc) (hn.symm.trans hnull)
    rw [Nat.mod_eq_of_lt (by omega), if_neg hne, hc, hn]

end Links
