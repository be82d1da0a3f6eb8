import Mathlib.Algebra.Order.Group.Defs
import Mathlib.Algebra.Order.Group.Basic
import Mathlib.Logic.Function.Basic
import Mathlib.Tactic.Abel

/-!
# Events a fixed time apart

`Spaced d times` says that each of the times is at least `d` later than those before it.  A throttle remembers for
every key when it last let an event through, and lets another one through when the interval of the key has passed
since; a key that is forgotten starts over.

* `Spaced.exists_span` — how far apart many times are;
* `Throttle.Faithful.foldl` — what a throttle let through of a key is spaced, and it remembers the last of it;
* `Throttle.Faithful.due_eq_false` — which events a throttle refuses.
-/

namespace AisServer.Lib

variable {κ τ : Type} [AddCommGroup τ] [LinearOrder τ]

/-! ### Spaced times -/

def Spaced (d : τ) (times : List τ) : Prop := times.Pairwise fun a b => a + d ≤ b

section Spaced

variable {d now : τ} {times : List τ}

theorem Spaced.exists_span [IsOrderedAddMonoid τ] {n : ℕ} (h : Spaced d times) (hn : n < times.length) :
    ∃ a ∈ times, ∃ b ∈ times, a + n • d ≤ b := by
  induction n generalizing times with
  | zero =>
    obtain ⟨a, ha⟩ := List.exists_mem_of_length_pos hn
    exact ⟨a, ha, a, ha, by rw [zero_nsmul, add_zero]⟩
  | succ n ih =>
    rcases times with _ | ⟨a, times⟩
    · exact absurd hn (Nat.not_lt_zero _)
    · obtain ⟨hfirst, htail⟩ := List.pairwise_cons.1 h
      obtain ⟨b, hb, c, hc, hle⟩ := ih htail (Nat.lt_of_succ_lt_succ hn)
      refine ⟨a, List.mem_cons_self, c, List.mem_cons_of_mem _ hc, ?_⟩
      calc a + (n + 1) • d = a + d + n • d := by rw [succ_nsmul]; abel
        _ ≤ b + n • d := add_le_add_left (hfirst b hb) _
        _ ≤ c := hle

theorem Spaced.append_singleton (h : Spaced d times) (hlast : ∀ a ∈ times, a + d ≤ now) :
    Spaced d (times ++ [now]) := by
  refine List.pairwise_append.2 ⟨h, List.pairwise_singleton _ _, fun a ha b hb => ?_⟩
  obtain rfl := List.mem_singleton.1 hb
  exact hlast a ha

end Spaced

/-! ### Throttles -/

/-- `last` is when an event of the key was last let through, `passed` all that were since the key was forgotten. -/
structure Throttle (κ τ : Type) where
  last : κ → τ
  passed : κ → List τ

inductive ThrottleEvent (κ τ : Type)
  | offer (k : κ) (now : τ)
  | forget (k : κ)

namespace Throttle

/-- Nothing was let through; `origin` stands for the time of it. -/
def new (origin : τ) : Throttle κ τ where
  last _ := origin
  passed _ := []

/-- The interval of the key has passed. -/
def due (d : κ → τ) (s : Throttle κ τ) (k : κ) (now : τ) : Bool := d k ≤ now - s.last k

def step [DecidableEq κ] (d : κ → τ) (origin : τ) (s : Throttle κ τ) : ThrottleEvent κ τ → Throttle κ τ
  | .offer k now =>
    if s.due d k now then
      ⟨Function.update s.last k now, Function.update s.passed k (s.passed k ++ [now])⟩
    else s
  | .forget k => ⟨Function.update s.last k origin, Function.update s.passed k []⟩

variable {d : κ → τ} {origin now : τ} {s : Throttle κ τ} {k k' : κ}

/-- What was let through is spaced, and the last of it is remembered. -/
structure Faithful (d : κ → τ) (origin : τ) (s : Throttle κ τ) : Prop where
  spaced : ∀ k, Spaced (d k) (s.passed k)
  le_last : ∀ k, ∀ a ∈ s.passed k, a ≤ s.last k
  last : ∀ k, (s.passed k).getLast?.getD origin = s.last k

theorem faithful_new (d : κ → τ) (origin : τ) : Faithful d origin (new origin) where
  spaced _ := List.Pairwise.nil
  le_last _ _ h := absurd h List.not_mem_nil
  last _ := rfl

variable [DecidableEq κ]

/-- Only the key that is written has to be looked at. -/
theorem Faithful.update (hs : Faithful d origin s) {last : τ} {passed : List τ} (hspaced : Spaced (d k) passed)
    (hle : ∀ a ∈ passed, a ≤ last) (hlast : passed.getLast?.getD origin = last) :
    Faithful d origin ⟨Function.update s.last k last, Function.update s.passed k passed⟩ := by
  refine ⟨fun k' => ?_, fun k' => ?_, fun k' => ?_⟩ <;> by_cases hk : k' = k
  · subst hk
    simpa using hspaced
  · simpa [Function.update_of_ne hk] using hs.spaced k'
  · subst hk
    simpa using hle
  · simpa [Function.update_of_ne hk] using hs.le_last k'
  · subst hk
    simpa using hlast
  · simpa [Function.update_of_ne hk] using hs.last k'

variable [IsOrderedAddMonoid τ]

theorem Faithful.step (hd : ∀ k, 0 ≤ d k) (hs : Faithful d origin s) (e : ThrottleEvent κ τ) :
    Faithful d origin (s.step d origin e) := by
  cases e with
  | offer k now =>
    rw [Throttle.step]
    by_cases hdue : s.due d k now = true
    · rw [if_pos hdue]
      have hgap : s.last k + d k ≤ now := by
        rw [add_comm]
        exact le_sub_iff_add_le.1 (of_decide_eq_true hdue)
      have hpast : ∀ a ∈ s.passed k, a + d k ≤ now := fun a ha =>
        (add_le_add_left (hs.le_last k a ha) (d k)).trans hgap
      refine hs.update ((hs.spaced k).append_singleton hpast) (fun a ha => ?_) (by simp)
      rcases List.mem_append.1 ha with ha | ha
      · exact (le_add_of_nonneg_right (hd k)).trans (hpast a ha)
      · exact (List.mem_singleton.1 ha).le
    · rw [if_neg hdue]
      exact hs
  | forget k => exact hs.update List.Pairwise.nil (fun a ha => absurd ha List.not_mem_nil) rfl

theorem Faithful.foldl (hd : ∀ k, 0 ≤ d k) (hs : Faithful d origin s) (es : List (ThrottleEvent κ τ)) :
    Faithful d origin (es.foldl (Throttle.step d origin) s) := by
  induction es generalizing s with
  | nil => exact hs
  | cons e es ih => exact ih (hs.step hd e)

omit [DecidableEq κ] in
/-- An event is refused exactly when it comes within the interval of one that was let through, or of the origin. -/
theorem Faithful.due_eq_false (hs : Faithful d origin s) : s.due d k now = false ↔
    (s.passed k = [] ∧ now < origin + d k) ∨ ∃ a ∈ s.passed k, now < a + d k := by
  have hdue : s.due d k now = false ↔ now < s.last k + d k := by
    rw [due, decide_eq_false_iff_not, not_le, sub_lt_iff_lt_add, add_comm]
  rw [hdue]
  constructor
  · intro hlt
    rw [← hs.last k] at hlt
    cases hlast : (s.passed k).getLast? with
    | none => exact Or.inl ⟨List.getLast?_eq_none_iff.1 hlast, by simpa [hlast] using hlt⟩
    | some a => exact Or.inr ⟨a, List.mem_of_getLast? hlast, by simpa [hlast] using hlt⟩
  · rintro (⟨hnone, hlt⟩ | ⟨a, ha, hlt⟩)
    · rwa [← hs.last k, hnone]
    · exact hlt.trans_le (add_le_add_left (hs.le_last k a ha) _)

omit [IsOrderedAddMonoid τ] in
theorem foldl_offer (d : κ → τ) (origin now : τ) (s : Throttle κ τ) (k : κ) {keys : List κ} (hnd : keys.Nodup) :
    ((keys.map fun k => ThrottleEvent.offer k now).foldl (Throttle.step d origin) s).last k =
        (if k ∈ keys ∧ s.due d k now = true then now else s.last k) ∧
      ((keys.map fun k => ThrottleEvent.offer k now).foldl (Throttle.step d origin) s).passed k =
        if k ∈ keys ∧ s.due d k now = true then s.passed k ++ [now] else s.passed k := by
  induction keys generalizing s with
  | nil => simp
  | cons k' keys ih =>
    obtain ⟨hk', hnd⟩ := List.nodup_cons.1 hnd
    rw [List.map_cons, List.foldl_cons, (ih _ hnd).1, (ih _ hnd).2]
    by_cases hk : k = k'
    · subst hk
      by_cases hdue : s.due d k now = true <;> simp [Throttle.step, hdue, hk']
    · have hlast : (s.step d origin (.offer k' now)).last k = s.last k := by
        rw [Throttle.step]
        split
        · exact Function.update_of_ne hk _ _
        · rfl
      have hpassed : (s.step d origin (.offer k' now)).passed k = s.passed k := by
        rw [Throttle.step]
        split
        · exact Function.update_of_ne hk _ _
        · rfl
      have hdue : (s.step d origin (.offer k' now)).due d k now = s.due d k now := by rw [due, due, hlast]
      simp [hk, hlast, hpassed, hdue]

end Throttle

end AisServer.Lib
