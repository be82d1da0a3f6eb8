import AisServer.Lib.Calendar
import AisServer.Lib.Run
import Mathlib.Algebra.Order.Ring.Rat
import Mathlib.Tactic.Linarith

/-!
# The supervisor of a thread

`SupervisedThread.run` starts its target again and again: at once when it returned, and after a sleep when it raised,
whose length doubles up to half a minute and is reset by a return.

* `Restarts.step` — the sleep of a thread, and how long it has slept in all;
* `supervised_restarts` — how often the target is started.
-/

namespace AisServer.Main

open AisServer.Lib

/-- Where a supervised thread stands. -/
inductive SupervisorPc
  /-- At the head of the loop. -/
  | head
  /-- In the target. -/
  | running
  | sleeping (wakeAt : Time)
  /-- `run` has returned. -/
  | done

/-- `crashes` are those since the target last returned; the other counts are of the whole run. -/
structure Supervised where
  pc : SupervisorPc := .head
  backoff : Time := 1
  stopped : Bool := false
  clock : Time
  crashes : ℕ := 0
  starts : ℕ := 0
  returns : ℕ := 0

inductive SupervisorEvent
  /-- The head of the loop, which starts the target unless the thread is told to stop. -/
  | head (now : Time)
  | ret (now : Time)
  | crash (now : Time)
  | wake (now : Time)
  | stop

/-- `_MAX_BACKOFF` -/
def maxBackoff : Time := 30

namespace Supervised

/-- A step, by a clock that does not go back. -/
def step (s : Supervised) : SupervisorEvent → Option Supervised
  | .head now =>
    match s.pc with
    | .head =>
      if now < s.clock then none
      else if s.stopped then some { s with pc := .done, clock := now }
      else some { s with pc := .running, clock := now, starts := s.starts + 1 }
    | _ => none
  | .ret now =>
    match s.pc with
    | .running =>
      if now < s.clock then none
      else some { s with pc := .head, clock := now, backoff := 1, crashes := 0, returns := s.returns + 1 }
    | _ => none
  | .crash now =>
    match s.pc with
    | .running =>
      if now < s.clock then none
      else some { s with
        pc := .sleeping (now + s.backoff), clock := now, backoff := min maxBackoff (s.backoff * 2)
        crashes := s.crashes + 1 }
    | _ => none
  | .wake now =>
    match s.pc with
    | .sleeping wakeAt => if now < s.clock ∨ now < wakeAt then none else some { s with pc := .head, clock := now }
    | _ => none
  | .stop => some { s with stopped := true }

variable {s t : Supervised} {now : Time}

/-! ### What a step can do -/

theorem step_head (h : s.step (.head now) = some t) : s.pc = .head ∧ s.clock ≤ now ∧
    ((s.stopped = true ∧ t = { s with pc := .done, clock := now }) ∨
      (s.stopped = false ∧ t = { s with pc := .running, clock := now, starts := s.starts + 1 })) := by
  rw [step] at h
  split at h
  · rename_i hpc
    by_cases hlt : now < s.clock
    · simp [hlt] at h
    · rw [if_neg hlt] at h
      refine ⟨hpc, not_lt.1 hlt, ?_⟩
      cases hstop : s.stopped with
      | true => exact Or.inl ⟨rfl, by simpa [hstop] using h.symm⟩
      | false => exact Or.inr ⟨rfl, by simpa [hstop] using h.symm⟩
  · cases h

theorem step_ret (h : s.step (.ret now) = some t) : s.pc = .running ∧ s.clock ≤ now ∧
    t = { s with pc := .head, clock := now, backoff := 1, crashes := 0, returns := s.returns + 1 } := by
  rw [step] at h
  split at h
  · rename_i hpc
    by_cases hlt : now < s.clock
    · simp [hlt] at h
    · rw [if_neg hlt] at h
      exact ⟨hpc, not_lt.1 hlt, (Option.some.inj h).symm⟩
  · cases h

theorem step_crash (h : s.step (.crash now) = some t) : s.pc = .running ∧ s.clock ≤ now ∧ t = { s with
    pc := .sleeping (now + s.backoff), clock := now, backoff := min maxBackoff (s.backoff * 2)
    crashes := s.crashes + 1 } := by
  rw [step] at h
  split at h
  · rename_i hpc
    by_cases hlt : now < s.clock
    · simp [hlt] at h
    · rw [if_neg hlt] at h
      exact ⟨hpc, not_lt.1 hlt, (Option.some.inj h).symm⟩
  · cases h

theorem step_wake (h : s.step (.wake now) = some t) : ∃ wakeAt, s.pc = .sleeping wakeAt ∧ s.clock ≤ now ∧
    wakeAt ≤ now ∧ t = { s with pc := .head, clock := now } := by
  rw [step] at h
  split at h
  · rename_i wakeAt hpc
    by_cases hlt : now < s.clock ∨ now < wakeAt
    · simp [hlt] at h
    · rw [if_neg hlt] at h
      push Not at hlt
      exact ⟨wakeAt, hpc, hlt.1, hlt.2, (Option.some.inj h).symm⟩
  · cases h

end Supervised

/-! ### The sleeps -/

/-- How long a thread sleeps after the `k`-th crash in a row. -/
def backoffAfter (k : ℕ) : Time := min maxBackoff (2 ^ k)

theorem backoffAfter_zero : backoffAfter 0 = 1 := by decide +kernel

theorem backoffAfter_succ (k : ℕ) : min maxBackoff (backoffAfter k * 2) = backoffAfter (k + 1) := by
  unfold backoffAfter
  have hpow : (2 : Time) ^ (k + 1) = 2 ^ k * 2 := pow_succ 2 k
  have hmax : maxBackoff ≤ maxBackoff * 2 := by decide +kernel
  rw [hpow, min_mul_of_nonneg _ _ (by decide : (0 : Time) ≤ 2), ← min_assoc, min_eq_left hmax]

/-- The sleeps of `k` crashes in a row. -/
def sleepsOf : ℕ → Time
  | 0 => 0
  | k + 1 => sleepsOf k + backoffAfter k

/-- From the sixth crash on the thread sleeps half a minute. -/
theorem le_sleepsOf (k : ℕ) : 30 * k ≤ sleepsOf k + 119 := by
  rcases Nat.lt_or_ge k 5 with hk | hk
  · have hsmall : ∀ k : ℕ, k < 5 → (30 * k : Time) ≤ sleepsOf k + 119 := by decide +kernel
    exact hsmall k hk
  · induction k, hk using Nat.le_induction with
    | base => decide +kernel
    | succ k hk ih =>
      have hpow : (2 : Time) ^ 5 ≤ 2 ^ k := pow_le_pow_right₀ (by decide) hk
      have hmax : backoffAfter k = 30 := min_eq_left (le_trans (by decide +kernel) hpow)
      rw [sleepsOf, hmax]
      push_cast
      linarith

/-! ### How often the target is started -/

namespace Supervised

variable {s t : Supervised} {e : SupervisorEvent} {startedAt slept : Time} {earlier : ℕ}

/-- The target was started and has not come back. -/
def inTarget (s : Supervised) : ℕ :=
  match s.pc with
  | .running => 1
  | .head | .sleeping _ | .done => 0

/-- When the sleep of a thread is over, or its clock. -/
def awakeAt (s : Supervised) : Time :=
  match s.pc with
  | .sleeping wakeAt => wakeAt
  | .head | .running | .done => s.clock

/-- The invariant of the counts: `earlier` are the crashes before the last return, `slept` their sleeps. -/
structure Restarts (startedAt slept : Time) (earlier : ℕ) (s : Supervised) : Prop where
  backoff : s.backoff = backoffAfter s.crashes
  starts : s.starts = s.returns + earlier + s.crashes + s.inTarget
  earlier : 30 * earlier ≤ slept + 119 * s.returns
  slept : startedAt + slept + sleepsOf s.crashes ≤ s.awakeAt
  asleep : s.awakeAt ≤ s.clock + 30 * (1 - s.inTarget)
  done : s.pc = .done → s.stopped = true

theorem restarts_new (startedAt : Time) : Restarts startedAt 0 0 { clock := startedAt } where
  backoff := backoffAfter_zero.symm
  starts := rfl
  earlier := by simp
  slept := by simp [sleepsOf, awakeAt]
  asleep := by simp [awakeAt, inTarget]
  done h := by cases h

theorem Restarts.step (hs : Restarts startedAt slept earlier s) (h : s.step e = some t) :
    ∃ slept earlier, Restarts startedAt slept earlier t := by
  have hslept := hs.slept
  have hearlier := hs.earlier
  have hstarts := hs.starts
  cases e with
  | head now =>
    obtain ⟨hpc, hclock, ⟨hstop, rfl⟩ | ⟨hstop, rfl⟩⟩ := step_head h
    · simp only [awakeAt, inTarget, hpc] at hslept hstarts
      refine ⟨slept, earlier, hs.backoff, hstarts, hearlier, hslept.trans hclock, ?_, fun _ => hstop⟩
      simp [awakeAt, inTarget]
    · simp only [awakeAt, inTarget, hpc] at hslept hstarts
      refine ⟨slept, earlier, hs.backoff, ?_, hearlier, hslept.trans hclock, ?_, ?_⟩
      · simp only [inTarget]
        omega
      · simp [awakeAt, inTarget]
      · intro hdone
        cases hdone
  | ret now =>
    obtain ⟨hpc, hclock, rfl⟩ := step_ret h
    simp only [awakeAt, inTarget, hpc] at hslept hstarts
    refine ⟨slept + sleepsOf s.crashes, earlier + s.crashes, backoffAfter_zero.symm, ?_, ?_, ?_, ?_, ?_⟩
    · simp only [inTarget]
      omega
    · have hcrashes := le_sleepsOf s.crashes
      push_cast
      linarith
    · simp only [awakeAt, sleepsOf]
      linarith
    · simp [awakeAt, inTarget]
    · intro hdone
      cases hdone
  | crash now =>
    obtain ⟨hpc, hclock, rfl⟩ := step_crash h
    simp only [awakeAt, inTarget, hpc] at hslept hstarts
    refine ⟨slept, earlier, ?_, ?_, hearlier, ?_, ?_, ?_⟩
    · show min maxBackoff (s.backoff * 2) = backoffAfter (s.crashes + 1)
      rw [hs.backoff, backoffAfter_succ]
    · simp only [inTarget]
      omega
    · simp only [awakeAt, sleepsOf, hs.backoff]
      linarith
    · have hmax : s.backoff ≤ 30 := hs.backoff ▸ min_le_left _ _
      simp only [awakeAt, inTarget]
      norm_num
      exact hmax
    · intro hdone
      cases hdone
  | wake now =>
    obtain ⟨wakeAt, hpc, hclock, hwake, rfl⟩ := step_wake h
    simp only [awakeAt, inTarget, hpc] at hslept hstarts
    refine ⟨slept, earlier, hs.backoff, hstarts, hearlier, hslept.trans hwake, ?_, ?_⟩
    · simp [awakeAt, inTarget]
    · intro hdone
      cases hdone
  | stop =>
    obtain rfl := Option.some.inj h
    exact ⟨slept, earlier, hs.1, hs.2, hs.3, hs.4, hs.5, fun _ => rfl⟩

end Supervised

/-- **How often a target is started.**  In every run of a supervised thread its next sleep is `2 ^ k` seconds after `k`
crashes in a row, at most half a minute; the target is started once in half a minute at most, but for five times at the
beginning and after each return; and the thread ends only when it is told to stop. -/
theorem supervised_restarts {startedAt : Time} {es : List SupervisorEvent} {s : Supervised}
    (h : run Supervised.step { clock := startedAt } es = some s) :
    s.backoff = min 30 (2 ^ s.crashes) ∧ 30 * s.starts ≤ (s.clock - startedAt) + 149 * (s.returns + 1) ∧
    (s.pc = .done → s.stopped = true) := by
  obtain ⟨slept, earlier, hs⟩ := run_inv_of_step
    (I := fun s => ∃ slept earlier, Supervised.Restarts startedAt slept earlier s)
    (fun _ _ _ ⟨_, _, hs⟩ hst => hs.step hst) ⟨0, 0, Supervised.restarts_new startedAt⟩ h
  refine ⟨hs.backoff, ?_, hs.done⟩
  have hstarts : (s.starts : Time) = s.returns + earlier + s.crashes + s.inTarget := by exact_mod_cast hs.starts
  have hcrashes := le_sleepsOf s.crashes
  have hearlier := hs.earlier
  have hslept := hs.slept
  have hasleep := hs.asleep
  rw [hstarts]
  linarith

/-- A target that raises at once, again and again, and returns once. -/
def crashingTarget : List SupervisorEvent :=
  [.head 0, .crash 0, .wake 1, .head 1, .crash 1, .wake 3, .head 3, .ret 4, .head 4, .crash 4, .wake 5, .head 5]

theorem supervised_restarts_crashingTarget :
    ∃ s, run Supervised.step { clock := 0 } crashingTarget = some s ∧ s.starts = 5 ∧
      30 * (s.starts : Time) ≤ (s.clock - 0) + 149 * (s.returns + 1) := by
  have hrun : (run Supervised.step { clock := 0 } crashingTarget).map (·.starts) = some 5 := by decide +kernel
  obtain ⟨s, hs, hstarts⟩ := Option.map_eq_some_iff.1 hrun
  exact ⟨s, hs, hstarts, (supervised_restarts hs).2.1⟩

end AisServer.Main
