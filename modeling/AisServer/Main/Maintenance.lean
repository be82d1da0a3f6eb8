import AisServer.Lib.Calendar
import AisServer.Lib.Run
import AisServer.Lib.Throttle
import Mathlib.Algebra.Order.Ring.Rat
import Mathlib.Data.List.Chain
import Mathlib.Tactic.Linarith

/-!
# The maintenance loop

`_maintenance_loop` wakes once in a `tick` and runs each task whose interval has passed since its last run, whether
that run succeeded or not.

* `Refines.turn` — the loop is a throttle with a key for each enabled task;
* `maintenance_schedule` — how far apart the runs of a task are.
-/

namespace AisServer.Main

open AisServer.Lib

inductive Task
  | checkpoint
  | vacuum
  | prune
  deriving DecidableEq

/-- The section `maintenance` of the configuration, with the defaults that the loop gives to absent entries. -/
structure MaintenanceConfig where
  walCheckpointInterval : Time := 3600
  vacuumInterval : Time := 7 * 24 * 3600
  nodePruneInterval : Time := 3600
  nodeMaxAge : Time := 30 * 24 * 3600

namespace MaintenanceConfig

def interval (m : MaintenanceConfig) : Task → Time
  | .checkpoint => m.walCheckpointInterval
  | .vacuum => m.vacuumInterval
  | .prune => m.nodePruneInterval

/-- A task with an interval that is not positive is switched off, and so is the pruning without a maximal age. -/
def enabled (m : MaintenanceConfig) (task : Task) : Bool :=
  0 < m.interval task && match task with
    | .prune => 0 < m.nodeMaxAge
    | .checkpoint | .vacuum => true

/-- How long the loop sleeps between two turns. -/
def tick (m : MaintenanceConfig) : Time :=
  max 30 <| match [m.walCheckpointInterval, m.vacuumInterval, m.nodePruneInterval].filter (0 < ·) with
    | [] => 3600
    | t :: ts => ts.foldl min t

end MaintenanceConfig

/-- `wakeAt` is when the wait of the loop is over; `runs` are the tasks with the times at which they were run, and
whether they succeeded. -/
structure Maintenance where
  lastCkpt : Time := 0
  lastVac : Time := 0
  lastPrune : Time := 0
  wakeAt : Time
  stopped : Bool := false
  runs : List (Task × Time × Bool) := []

inductive MaintenanceEvent
  /-- A turn of the loop, with the tasks that raise. -/
  | turn (now : Time) (raises : List Task)
  /-- The stop event is set. -/
  | stop

namespace Maintenance

/-- `last_ckpt`, `last_vac` or `last_prune` -/
def last (s : Maintenance) : Task → Time
  | .checkpoint => s.lastCkpt
  | .vacuum => s.lastVac
  | .prune => s.lastPrune

def setLast (s : Maintenance) (now : Time) : Task → Maintenance
  | .checkpoint => { s with lastCkpt := now }
  | .vacuum => { s with lastVac := now }
  | .prune => { s with lastPrune := now }

/-- The block of one task; an exception is logged. -/
def runTask (m : MaintenanceConfig) (raises : List Task) (now : Time) (s : Maintenance) (task : Task) : Maintenance :=
  if m.enabled task && m.interval task ≤ now - s.last task then
    setLast { s with runs := s.runs ++ [(task, now, !raises.contains task)] } now task
  else s

/-- The body of the loop up to the wait. -/
def turn (m : MaintenanceConfig) (s : Maintenance) (now : Time) (raises : List Task) : Maintenance :=
  [Task.checkpoint, .vacuum, .prune].foldl (runTask m raises now) s

def step (m : MaintenanceConfig) (s : Maintenance) : MaintenanceEvent → Option Maintenance
  | .turn now raises =>
    if s.stopped ∨ now < s.wakeAt then none else some { s.turn m now raises with wakeAt := now + m.tick }
  | .stop => some { s with stopped := true }

/-- When the task was run. -/
def times (s : Maintenance) (task : Task) : List Time := (s.runs.filter fun r => r.1 = task).map (·.2.1)

/-- No turn is more than `δ` late. -/
def InTime (δ : Time) (s : Maintenance) : MaintenanceEvent → Prop
  | .turn now _ => now ≤ s.wakeAt + δ
  | .stop => True

instance (δ : Time) (s : Maintenance) : ∀ e, Decidable (InTime δ s e)
  | .turn now _ => inferInstanceAs (Decidable (now ≤ s.wakeAt + δ))
  | .stop => inferInstanceAs (Decidable True)

end Maintenance

/-! ### The tick -/

theorem foldl_min_le {a t : Time} {ts : List Time} (h : a ∈ t :: ts) : ts.foldl min t ≤ a := by
  induction ts generalizing a t with
  | nil => exact (List.mem_singleton.1 h).ge
  | cons u ts ih =>
    rw [List.foldl_cons]
    have hfirst : ts.foldl min (min t u) ≤ min t u := ih List.mem_cons_self
    rcases List.mem_cons.1 h with rfl | h
    · exact hfirst.trans (min_le_left _ _)
    · rcases List.mem_cons.1 h with rfl | h
      · exact hfirst.trans (min_le_right _ _)
      · exact ih (List.mem_cons_of_mem _ h)

variable {m : MaintenanceConfig} {task : Task}

theorem tick_le (h : 0 < m.interval task) : m.tick ≤ max 30 (m.interval task) := by
  refine max_le_max_left _ ?_
  have hmem : m.interval task ∈
      [m.walCheckpointInterval, m.vacuumInterval, m.nodePruneInterval].filter (0 < ·) := by
    refine List.mem_filter.2 ⟨?_, by simpa using h⟩
    cases task <;> simp [MaintenanceConfig.interval]
  cases hl : [m.walCheckpointInterval, m.vacuumInterval, m.nodePruneInterval].filter (0 < ·) with
  | nil =>
    rw [hl] at hmem
    exact absurd hmem List.not_mem_nil
  | cons t ts =>
    rw [hl] at hmem
    exact foldl_min_le hmem

/-! ### A throttle for each task -/

/-- The interval of a task that is switched off does not matter. -/
def gap (m : MaintenanceConfig) (task : Task) : Time := max 0 (m.interval task)

theorem gap_of_enabled (h : m.enabled task = true) : gap m task = m.interval task := by
  unfold MaintenanceConfig.enabled at h
  rw [Bool.and_eq_true, decide_eq_true_eq] at h
  exact max_eq_right h.1.le

/-- The loop as a throttle. -/
def Maintenance.view (s : Maintenance) : Throttle Task Time := ⟨s.last, s.times⟩

/-- What a turn offers to the throttle. -/
def offers (m : MaintenanceConfig) (now : Time) : List (ThrottleEvent Task Time) :=
  ([Task.checkpoint, .vacuum, .prune].filter m.enabled).map fun task => .offer task now

namespace Maintenance

variable {s t : Maintenance} {raises : List Task} {now δ startedAt : Time} {task' : Task}

theorem last_setLast : (s.setLast now task).last = Function.update s.last task now := by
  funext task'
  cases task <;> cases task' <;> rfl

theorem times_setLast : (s.setLast now task).times = s.times := by cases task <;> rfl

theorem times_append {run : Task × Time × Bool} :
    times { s with runs := s.runs ++ [run] } = Function.update s.times run.1 (s.times run.1 ++ [run.2.1]) := by
  funext task'
  unfold times
  rw [List.filter_append, List.map_append]
  by_cases h : task' = run.1
  · subst h
    simp
  · simp [Function.update_of_ne h, Ne.symm h]

theorem view_runTask : (s.runTask m raises now task).view =
    if m.enabled task then s.view.step (gap m) 0 (.offer task now) else s.view := by
  unfold runTask
  cases h : m.enabled task with
  | false => simp
  | true =>
    have hdue : s.view.due (gap m) task now = decide (m.interval task ≤ now - s.last task) := by
      rw [Throttle.due, gap_of_enabled h, view]
    rw [Bool.true_and, Throttle.step, if_pos rfl, hdue]
    by_cases hlong : m.interval task ≤ now - s.last task
    · rw [if_pos (decide_eq_true hlong), if_pos (decide_eq_true hlong)]
      rw [view, last_setLast, times_setLast, times_append]
      rfl
    · rw [if_neg (by simpa using hlong), if_neg (by simpa using hlong)]

/-- **One turn.**  It offers the enabled tasks to the throttle. -/
theorem view_turn : (s.turn m now raises).view = (offers m now).foldl (Throttle.step (gap m) 0) s.view := by
  have hfold : ∀ (tasks : List Task) (s : Maintenance), (tasks.foldl (runTask m raises now) s).view =
      ((tasks.filter m.enabled).map fun task => ThrottleEvent.offer task now).foldl
        (Throttle.step (gap m) 0) s.view := by
    intro tasks
    induction tasks with
    | nil => exact fun s => rfl
    | cons task tasks ih =>
      intro s
      rw [List.foldl_cons, ih, view_runTask]
      cases h : m.enabled task <;> simp [h]
  exact hfold _ s

/-- A task is due at a turn. -/
def Due (m : MaintenanceConfig) (s : Maintenance) (now : Time) (task : Task) : Prop :=
  m.enabled task = true ∧ m.interval task ≤ now - s.last task

instance (m : MaintenanceConfig) (s : Maintenance) (now : Time) (task : Task) : Decidable (s.Due m now task) :=
  inferInstanceAs (Decidable (_ ∧ _))

theorem turn_spec (task : Task) :
    (s.turn m now raises).last task = (if s.Due m now task then now else s.last task) ∧
      (s.turn m now raises).times task = if s.Due m now task then s.times task ++ [now] else s.times task := by
  have hnd : ([Task.checkpoint, .vacuum, .prune].filter m.enabled).Nodup :=
    List.Nodup.sublist List.filter_sublist (by decide)
  have hdue : (task ∈ [Task.checkpoint, .vacuum, .prune].filter m.enabled ∧ s.view.due (gap m) task now = true) ↔
      s.Due m now task := by
    have hmem : task ∈ [Task.checkpoint, .vacuum, .prune] := by cases task <;> decide
    rw [List.mem_filter, and_iff_right hmem, Due]
    refine and_congr_right fun h => ?_
    rw [Throttle.due, gap_of_enabled h, decide_eq_true_eq]
    rfl
  obtain ⟨hlast, htimes⟩ := Throttle.foldl_offer (gap m) 0 now s.view task hnd
  simp only [hdue] at hlast htimes
  exact ⟨(congrFun (congrArg Throttle.last view_turn) task).trans hlast,
    (congrFun (congrArg Throttle.passed view_turn) task).trans htimes⟩

/-- Every run of a task is followed by the next in time. -/
structure Scheduled (m : MaintenanceConfig) (δ : Time) (s : Maintenance) : Prop where
  faithful : s.view.Faithful (gap m) 0
  off : ∀ task, m.enabled task = false → s.times task = []
  /-- After a turn no task is overdue. -/
  fresh : s.runs = [] ∨ ∀ task, m.enabled task = true → s.wakeAt < s.last task + m.interval task + m.tick
  close : ∀ task, m.enabled task = true →
    (s.times task).IsChain fun a b => b < a + (m.interval task + m.tick + δ)

theorem scheduled_new (m : MaintenanceConfig) (δ startedAt : Time) : Scheduled m δ { wakeAt := startedAt } where
  faithful := by
    have hview : view { wakeAt := startedAt } = Throttle.new 0 :=
      congrArg₂ Throttle.mk (funext fun task => by cases task <;> rfl) rfl
    exact hview ▸ Throttle.faithful_new _ _
  off _ _ := rfl
  fresh := Or.inl rfl
  close _ _ := List.isChain_nil

/-- After a turn less than the interval of a task has passed since its last run. -/
theorem lt_last_turn (s : Maintenance) (h : m.enabled task = true) (now : Time) (raises : List Task) :
    now < (s.turn m now raises).last task + m.interval task := by
  have hpos : 0 < m.interval task := by
    unfold MaintenanceConfig.enabled at h
    exact of_decide_eq_true (Bool.and_eq_true _ _ ▸ h).1
  rw [(turn_spec task).1]
  by_cases hdue : s.Due m now task
  · rw [if_pos hdue]
    linarith
  · rw [if_neg hdue]
    have hlate : ¬ m.interval task ≤ now - s.last task := fun hle => hdue ⟨h, hle⟩
    linarith

theorem Scheduled.step {e : MaintenanceEvent} (hs : Scheduled m δ s) (hin : InTime δ s e) (h : s.step m e = some t) :
    Scheduled m δ t := by
  cases e with
  | stop =>
    obtain rfl := Option.some.inj h
    exact ⟨hs.1, hs.2, hs.3, hs.4⟩
  | turn now raises =>
    simp only [Maintenance.step] at h
    split at h
    · cases h
    · obtain rfl := Option.some.inj h
      have hnow : now ≤ s.wakeAt + δ := hin
      refine ⟨?_, fun task hoff => ?_, Or.inr fun task hon => ?_, fun task hon => ?_⟩
      · show (s.turn m now raises).view.Faithful (gap m) 0
        rw [view_turn]
        exact hs.faithful.foldl (fun _ => le_max_left _ _) _
      · show (s.turn m now raises).times task = []
        rw [(turn_spec task).2, if_neg (by simp [Due, hoff]), hs.off task hoff]
      · show now + m.tick < (s.turn m now raises).last task + m.interval task + m.tick
        have hlt := s.lt_last_turn hon now raises
        linarith
      · show ((s.turn m now raises).times task).IsChain _
        rw [(turn_spec task).2]
        by_cases hdue : s.Due m now task
        · rw [if_pos hdue]
          refine List.isChain_append.2 ⟨hs.close task hon, List.isChain_singleton _, fun a ha b hb => ?_⟩
          obtain rfl : b = now := by simpa using hb.symm
          -- the last run was the one that the loop remembers
          have hlast : s.last task = a := by
            have hlast : ((s.times task).getLast?).getD 0 = s.last task := hs.faithful.last task
            rw [← hlast, Option.mem_def.1 ha, Option.getD_some]
          rcases hs.fresh with hnone | hfresh
          · simp [times, hnone] at ha
          · have hlt := hfresh task hon
            rw [hlast] at hlt
            linarith
        · rw [if_neg hdue]
          exact hs.close task hon

end Maintenance

/-- **The schedule.**  When no turn of the loop is more than `δ` late: a task that is switched off never runs; the runs
of any other are at least its interval apart and less than its interval, a tick and `δ`, whichever runs raise; and
after every turn less than its interval has passed since its last run.  A tick is no longer than the shortest interval,
but at least half a minute. -/
theorem maintenance_schedule {startedAt δ : Time} {es : List MaintenanceEvent} {s : Maintenance}
    (hg : Guarded (Maintenance.step m) (Maintenance.InTime δ) { wakeAt := startedAt } es)
    (h : run (Maintenance.step m) { wakeAt := startedAt } es = some s) (task : Task) :
    (m.enabled task = false → s.times task = []) ∧
    (m.enabled task = true →
      (s.times task).Pairwise (fun a b => a + m.interval task ≤ b) ∧
      (s.times task).IsChain (fun a b => b < a + (m.interval task + m.tick + δ)) ∧
      ∀ now raises t, s.step m (.turn now raises) = some t → now < t.last task + m.interval task) ∧
    ∀ other, 0 < m.interval other → m.tick ≤ max 30 (m.interval other) := by
  have hs : Maintenance.Scheduled m δ s :=
    run_inv (fun _ _ _ hs hin hst => hs.step hin hst) (Maintenance.scheduled_new m δ startedAt) hg h
  refine ⟨hs.off task, fun hon => ⟨?_, hs.close task hon, fun now raises t ht => ?_⟩, fun other => tick_le⟩
  · have hspaced : Spaced (gap m task) (s.times task) := hs.faithful.spaced task
    rwa [gap_of_enabled hon] at hspaced
  · simp only [Maintenance.step] at ht
    split at ht
    · cases ht
    · obtain rfl := Option.some.inj ht
      exact Maintenance.lt_last_turn _ hon now raises

/-- A checkpoint in a minute, the first of which raises, and no `VACUUM`. -/
def everyMinute : MaintenanceConfig := { walCheckpointInterval := 60, vacuumInterval := 0 }

def fourTurns : List MaintenanceEvent :=
  [.turn 5000 [.checkpoint], .turn 5060 [], .turn 5120 [.prune], .turn 5181 [], .stop]

theorem maintenance_schedule_everyMinute :
    ∃ s, run (Maintenance.step everyMinute) { wakeAt := 5000 } fourTurns = some s ∧ s.times .vacuum = [] ∧
      (s.times .checkpoint).length = 4 ∧
      (s.times .checkpoint).Pairwise fun a b => a + everyMinute.interval .checkpoint ≤ b := by
  have hrun : (run (Maintenance.step everyMinute) { wakeAt := 5000 } fourTurns).map
      (fun s => (s.times .checkpoint).length) = some 4 := by decide +kernel
  have hg : Guarded (Maintenance.step everyMinute) (Maintenance.InTime 1) { wakeAt := 5000 } fourTurns := by
    decide +kernel
  obtain ⟨s, hs, hlen⟩ := Option.map_eq_some_iff.1 hrun
  have hschedule := maintenance_schedule hg hs
  exact ⟨s, hs, (hschedule .vacuum).1 (by decide +kernel), hlen, ((hschedule .checkpoint).2.1 (by decide +kernel)).1⟩

end AisServer.Main
