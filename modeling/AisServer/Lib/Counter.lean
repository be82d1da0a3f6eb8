import Mathlib.Algebra.BigOperators.Group.List.Basic
import Mathlib.Algebra.GroupWithZero.Nat
import Mathlib.Data.List.Induction

/-!
# A counter that goes off

The counter goes up with every hit and goes off, starting again from zero, as soon as it has come to `k`; a reset sets
it to zero without going off.  A list of inputs has `true` for a reset and `false` for a hit, so the hits between two
resets are the blocks of the list split at `true`.

* `Counter.foldl_feed` — the count and how often it went off, from the lengths of the blocks;
* `Counter.feed_fired`, `Counter.feed_count`, `Counter.feed_count_succ` — it goes off only when it has come to `k`, and
  counts every hit until then.
-/

namespace AisServer.Lib

/-! ### The blocks of a list -/

section Blocks

variable {α : Type} [DecidableEq α] {c a : α} {l last : List α} {init : List (List α)}

theorem splitOn_concat_self (c : α) (l : List α) : (l ++ [c]).splitOn c = l.splitOn c ++ [[]] :=
  List.splitOn_append_cons_self l []

theorem splitOn_concat_of_ne (ha : a ≠ c) (h : l.splitOn c = init ++ [last]) :
    (l ++ [a]).splitOn c = init ++ [last ++ [a]] := by
  induction l generalizing init last with
  | nil =>
    obtain ⟨rfl, rfl⟩ : init = [] ∧ last = [] := by
      cases init with
      | nil => simpa using h.symm
      | cons b init => simp at h
    exact List.splitOn_eq_singleton (by simpa using ha.symm)
  | cons x l ih =>
    rw [List.cons_append, List.splitOn_cons_eq_if_modifyHead]
    rw [List.splitOn_cons_eq_if_modifyHead] at h
    by_cases hx : x == c
    · rw [if_pos hx] at h ⊢
      cases init with
      | nil =>
        have hnil : l.splitOn c = [] := (List.cons.inj h).2
        exact absurd hnil (List.splitOn_ne_nil c l)
      | cons b init =>
        obtain ⟨rfl, hl⟩ := List.cons.inj h
        rw [ih hl]
        rfl
    · rw [if_neg hx] at h ⊢
      rcases hsplit : l.splitOn c with _ | ⟨g, gs⟩
      · exact absurd hsplit (List.splitOn_ne_nil c l)
      · rw [hsplit, List.modifyHead_cons] at h
        cases init with
        | nil =>
          obtain ⟨rfl, rfl⟩ := List.cons.inj h
          have hlast : l.splitOn c = [] ++ [g] := hsplit
          rw [ih hlast]
          rfl
        | cons b init =>
          obtain ⟨rfl, rfl⟩ := List.cons.inj h
          have hlast : l.splitOn c = (g :: init) ++ [last] := hsplit
          rw [ih hlast]
          rfl

end Blocks

/-! ### The counter -/

structure Counter where
  count : ℕ := 0
  fired : ℕ := 0

namespace Counter

def hit (k : ℕ) (c : Counter) : Counter :=
  if k ≤ c.count + 1 then ⟨0, c.fired + 1⟩ else ⟨c.count + 1, c.fired⟩

def reset (c : Counter) : Counter := ⟨0, c.fired⟩

def feed (k : ℕ) (c : Counter) : Bool → Counter
  | true => c.reset
  | false => c.hit k

variable {k : ℕ} {c : Counter}

theorem hit_of_le (h : k ≤ c.count + 1) : c.hit k = ⟨0, c.fired + 1⟩ := if_pos h

theorem hit_of_lt (h : c.count + 1 < k) : c.hit k = ⟨c.count + 1, c.fired⟩ := if_neg (by omega)

theorem hit_mod_div (hk : 1 ≤ k) (n s : ℕ) : hit k ⟨n % k, s + n / k⟩ = ⟨(n + 1) % k, s + (n + 1) / k⟩ := by
  have hlt := Nat.mod_lt n (show k > 0 by omega)
  have hmod : (n + 1) % k = (n % k + 1) % k := (Nat.mod_add_mod n k 1).symm
  rcases Nat.lt_or_ge (n % k + 1) k with h | h
  · rw [Nat.mod_eq_of_lt h] at hmod
    rw [hit_of_lt h, hmod, Nat.succ_div_of_mod_ne_zero (by omega)]
  · rw [show n % k + 1 = k by omega, Nat.mod_self] at hmod
    rw [hit_of_le h, hmod, Nat.succ_div_of_mod_eq_zero hmod, Nat.add_assoc]

/-- How often a counter has gone off over blocks of such lengths. -/
def firings (k : ℕ) (blocks : List (List Bool)) : ℕ := (blocks.map fun b => b.length / k).sum

/-- **The counter in closed form**: the count is the rest of the last block, and it went off once for every `k` hits of
a block. -/
theorem foldl_feed (hk : 1 ≤ k) (l : List Bool) : ∃ init last, l.splitOn true = init ++ [last] ∧
    l.foldl (feed k) {} = ⟨last.length % k, firings k (init ++ [last])⟩ := by
  have hsum : ∀ init last, firings k (init ++ [last]) = firings k init + last.length / k := by
    intro init last
    simp [firings]
  induction l using List.reverseRecOn with
  | nil => exact ⟨[], [], rfl, by simp [firings]⟩
  | append_singleton l a ih =>
    obtain ⟨init, last, hsplit, hfold⟩ := ih
    rw [List.foldl_append, hfold]
    cases a with
    | true =>
      refine ⟨init ++ [last], [], by rw [splitOn_concat_self, hsplit], ?_⟩
      rw [hsum (init ++ [last]) [], List.length_nil, Nat.zero_mod, Nat.zero_div]
      rfl
    | false =>
      refine ⟨init, last ++ [false], splitOn_concat_of_ne Bool.false_ne_true hsplit, ?_⟩
      rw [hsum, hsum, List.length_append, List.length_singleton, ← hit_mod_div hk]
      rfl

theorem feed_count_succ (h : (c.feed k false).fired = c.fired) : (c.feed k false).count = c.count + 1 := by
  rcases Nat.lt_or_ge (c.count + 1) k with hlt | hle
  · exact congrArg count (hit_of_lt hlt)
  · rw [feed, hit_of_le hle] at h
    exact absurd h (Nat.succ_ne_self _)

theorem feed_fired {a : Bool} (h : (c.feed k a).fired ≠ c.fired) : a = false ∧ k ≤ c.count + 1 := by
  cases a with
  | true => exact absurd rfl h
  | false =>
    refine ⟨rfl, ?_⟩
    by_contra hlt
    have hcount : c.hit k = ⟨c.count + 1, c.fired⟩ := hit_of_lt (by omega)
    exact h (by rw [feed, hcount])

theorem feed_count {a : Bool} (h : a = true ∨ (c.feed k a).fired ≠ c.fired) : (c.feed k a).count = 0 := by
  rcases h with rfl | h
  · rfl
  · obtain ⟨rfl, hk⟩ := feed_fired h
    exact congrArg count (hit_of_le hk)

end Counter

end AisServer.Lib
