import AisServer.Lib.Calendar
import AisServer.Lib.Text

/-!
# The watch on the disk

`DiskCheck` of `diskcheck.py` and `system_info` of `api.py`.  A tick samples the disk, keeps the sample as the last
snapshot, and then moves the state; a change of the state is logged.  Of a snapshot only what goes with the disk is
kept here.

* `classified_iff` — when the state after every tick is the level of the disk;
* `logged_once` — every change of the state is logged, and nothing else as a change;
* `disk_state_sound` — when in addition the snapshot has the state of its own disk.
-/

namespace AisServer.Host

open AisServer.Lib

inductive DiskState
  | ok
  | warn
  | low
  deriving DecidableEq

/-- How bad a state is. -/
def DiskState.severity : DiskState → ℕ
  | ok => 0
  | warn => 1
  | low => 2

/-- What `shutil.disk_usage` yields; the percentage that is made of it is left out. -/
structure Usage where
  total : ℕ
  used : ℕ
  free : ℕ
  deriving DecidableEq

/-- What a call of `snapshot` finds: `none` is an `OSError`. -/
structure Sample where
  data : Option Usage
  root : Option Usage := none
  ts : Time := 0

structure Snapshot where
  path : Str
  disk : Option Usage
  state : DiskState
  ts : Time
  deriving DecidableEq

/-- The lines of the log, with the free space in MB where it is named. -/
inductive Record
  | starting
  /-- `snapshot failed` -/
  | failed
  /-- `LOW disk space`, an error. -/
  | low (freeMb : ℕ)
  /-- `disk space getting tight`, a warning. -/
  | tight (freeMb : ℕ)
  /-- `disk space recovered` -/
  | recovered (freeMb : ℕ)
  deriving DecidableEq

structure DiskCheck where
  dataPath : Str
  lowWater : ℤ
  warnWater : ℤ
  state : DiskState := .ok
  lastSnapshot : Option Snapshot := none
  log : List Record := []

/-- `disk_usage(data_path) or disk_usage("/")` -/
def Sample.disk (sample : Sample) : Option Usage := sample.data.or sample.root

/-- `int(disk.get("free", 0) or 0)` -/
def Sample.free (sample : Sample) : ℕ := (sample.disk.map (·.free)).getD 0

/-- The line for a new state. -/
def Record.of (state : DiskState) (free : ℕ) : Record :=
  match state with
  | .low => .low (free / (1024 * 1024))
  | .warn => .tight (free / (1024 * 1024))
  | .ok => .recovered (free / (1024 * 1024))

namespace DiskCheck

def new (dataPath : Str) (lowWaterMb warnWaterMb : ℤ) : DiskCheck where
  dataPath := dataPath
  lowWater := lowWaterMb * 1024 * 1024
  warnWater := warnWaterMb * 1024 * 1024

/-- `snapshot` -/
def snapshot (d : DiskCheck) (sample : Sample) : DiskCheck :=
  { d with lastSnapshot := some ⟨d.dataPath, sample.disk, d.state, sample.ts⟩ }

/-- The state that `run` goes to. -/
def newState (d : DiskCheck) (free : ℕ) : DiskState :=
  if free ≠ 0 ∧ free < d.lowWater then .low
  else if free ≠ 0 ∧ free < d.warnWater then .warn
  else .ok

/-- One turn of the loop; without a sample `snapshot` has raised. -/
def tick (d : DiskCheck) : Option Sample → DiskCheck
  | none => { d with log := d.log ++ [.failed] }
  | some sample =>
    let d := d.snapshot sample
    if d.newState sample.free ≠ d.state then
      { d with
        state := d.newState sample.free
        log := d.log ++ [Record.of (d.newState sample.free) sample.free] }
    else d

/-- The first lines of `run`, in front of the loop. -/
def start (d : DiskCheck) (first : Sample) : DiskCheck :=
  snapshot { d with log := d.log ++ [.starting] } first

/-- The loop of `run`. -/
def after (d : DiskCheck) (ticks : List (Option Sample)) : DiskCheck := ticks.foldl tick d

/-- What `system_info` takes from the watch: `dc.last() or dc.snapshot()`. -/
def systemInfo (d : DiskCheck) (sample : Sample) : DiskCheck × Option Snapshot :=
  match d.lastSnapshot with
  | some snap => (d, some snap)
  | none => (d.snapshot sample, (d.snapshot sample).lastSnapshot)

/-! ### What it should do -/

/-- The level of a disk with so much free space. -/
def level (d : DiskCheck) (free : ℕ) : DiskState :=
  if free < d.lowWater then .low else if free < d.warnWater then .warn else .ok

/-- The disk is known at the tick after `ts`. -/
def Known (ticks ts : List (Option Sample)) (sample : Sample) (u : Usage) : Prop :=
  ts ++ [some sample] <+: ticks ∧ sample.disk = some u

/-- After each tick the state is the level. -/
def Classified (d : DiskCheck) (ticks : List (Option Sample)) : Prop :=
  ∀ ts sample u, Known ticks ts sample u → (d.after (ts ++ [some sample])).state = d.level u.free

/-- The lines for the changes in a list of states, each with the free space it was found at. -/
def changes : DiskState → List (DiskState × ℕ) → List Record
  | _, [] => []
  | s, (t, free) :: rest => if t = s then changes s rest else Record.of t free :: changes t rest

/-- The states after the ticks that have a sample. -/
def visited (d : DiskCheck) : List (Option Sample) → List (DiskState × ℕ)
  | [] => []
  | none :: ticks => visited (d.tick none) ticks
  | some sample :: ticks =>
    ((d.tick (some sample)).state, sample.free) :: visited (d.tick (some sample)) ticks

/-- A line about a change. -/
def isChange : Record → Bool
  | .starting | .failed => false
  | .low _ | .tight _ | .recovered _ => true

structure SoundRun (d : DiskCheck) (ticks : List (Option Sample)) : Prop where
  classified : d.Classified ticks
  /-- Less space is never a milder state. -/
  monotone : ∀ ts sample u ts' sample' u', Known ticks ts sample u → Known ticks ts' sample' u' → u.free ≤ u'.free →
    (d.after (ts' ++ [some sample'])).state.severity ≤ (d.after (ts ++ [some sample])).state.severity
  logged : (d.after ticks).log.filter isChange = d.log.filter isChange ++ changes d.state (d.visited ticks)
  /-- What the pages show is a disk with its own state. -/
  carried : ∀ ts sample u, Known ticks ts sample u → ∀ other, ∃ snap,
    ((d.after (ts ++ [some sample])).systemInfo other).2 = some snap ∧ snap.disk = some u ∧
      snap.state = d.level u.free

variable {d : DiskCheck} {ticks ts : List (Option Sample)} {sample : Sample} {u : Usage} {free : ℕ}

/-! ### The levels -/

theorem level_antitone (d : DiskCheck) {free free' : ℕ} (h : free ≤ free') :
    (d.level free').severity ≤ (d.level free).severity := by
  unfold level
  split_ifs <;> simp only [DiskState.severity] <;> omega

theorem level_eq_ok : d.level free = .ok ↔ d.lowWater ≤ free ∧ d.warnWater ≤ free := by
  unfold level
  split_ifs with h1 h2
  · simp only [false_iff]
    omega
  · simp only [false_iff]
    omega
  · simp only [true_iff]
    omega

/-- Only a full disk is misjudged. -/
theorem newState_eq_level : d.newState free = d.level free ↔ (free = 0 → d.lowWater ≤ 0 ∧ d.warnWater ≤ 0) := by
  by_cases hfree : free = 0
  · subst hfree
    have hok : d.newState 0 = .ok := by simp [newState]
    rw [hok, eq_comm, level_eq_ok]
    simp
  · simp [newState, level, hfree]

theorem newState_of_level_ok (h : d.level free = .ok) : d.newState free = .ok := by
  rw [newState_eq_level.2, h]
  rintro rfl
  simpa using level_eq_ok.1 h

theorem Known.free_eq (h : Known ticks ts sample u) : sample.free = u.free := by
  rw [Sample.free, h.2]
  rfl

/-! ### One tick -/

/-- A tick with a sample: the state is the new one, and the snapshot has the old one. -/
theorem tick_some (d : DiskCheck) (sample : Sample) :
    (d.tick (some sample)).state = d.newState sample.free ∧
      (d.tick (some sample)).lastSnapshot = some ⟨d.dataPath, sample.disk, d.state, sample.ts⟩ ∧
      (d.tick (some sample)).log =
        d.log ++ if d.newState sample.free = d.state then [] else [Record.of (d.newState sample.free) sample.free] := by
  have hsame : (d.snapshot sample).newState = d.newState := rfl
  unfold tick
  simp only [hsame]
  split_ifs with h1 h2 h2
  · exact absurd h2 h1
  · exact ⟨rfl, rfl, rfl⟩
  · exact ⟨h2.symm, rfl, (List.append_nil _).symm⟩
  · exact absurd (not_not.1 h1) h2

theorem tick_marks (d : DiskCheck) (t : Option Sample) :
    (d.tick t).lowWater = d.lowWater ∧ (d.tick t).warnWater = d.warnWater := by
  cases t with
  | none => exact ⟨rfl, rfl⟩
  | some sample =>
    unfold tick
    dsimp only
    split_ifs <;> exact ⟨rfl, rfl⟩

theorem after_marks (d : DiskCheck) (ts : List (Option Sample)) :
    (d.after ts).lowWater = d.lowWater ∧ (d.after ts).warnWater = d.warnWater := by
  induction ts generalizing d with
  | nil => exact ⟨rfl, rfl⟩
  | cons t ts ih =>
    obtain ⟨h1, h2⟩ := ih (d.tick t)
    exact ⟨h1.trans (tick_marks d t).1, h2.trans (tick_marks d t).2⟩

theorem after_append (d : DiskCheck) (ts us : List (Option Sample)) : d.after (ts ++ us) = (d.after ts).after us :=
  List.foldl_append

theorem newState_after (d : DiskCheck) (ts : List (Option Sample)) : (d.after ts).newState = d.newState := by
  funext free
  rw [newState, newState, (after_marks d ts).1, (after_marks d ts).2]

theorem after_state (d : DiskCheck) (ts : List (Option Sample)) (sample : Sample) :
    (d.after (ts ++ [some sample])).state = d.newState sample.free := by
  rw [after_append]
  exact (tick_some (d.after ts) sample).1.trans (congrFun (newState_after d ts) _)

/-- The snapshot after a tick has the state before it. -/
theorem after_systemInfo (d : DiskCheck) (ts : List (Option Sample)) (sample other : Sample) :
    ((d.after (ts ++ [some sample])).systemInfo other).2 =
      some ⟨(d.after ts).dataPath, sample.disk, (d.after ts).state, sample.ts⟩ := by
  rw [after_append]
  have h := (tick_some (d.after ts) sample).2.1
  unfold systemInfo
  rw [show (d.after ts).after [some sample] = (d.after ts).tick (some sample) from rfl, h]

/-! ### Runs -/

/-- What was read of the disk. -/
def readings (ticks : List (Option Sample)) : List Usage := ticks.filterMap fun t => t.bind Sample.disk

theorem mem_readings : u ∈ readings ticks ↔ ∃ ts sample, Known ticks ts sample u := by
  rw [readings, List.mem_filterMap]
  constructor
  · rintro ⟨t, ht, hu⟩
    obtain ⟨sample, rfl, hdisk⟩ := Option.bind_eq_some_iff.1 hu
    obtain ⟨ts, rest, rfl⟩ := List.append_of_mem ht
    exact ⟨ts, sample, ⟨rest, by simp⟩, hdisk⟩
  · rintro ⟨ts, sample, hprefix, hdisk⟩
    exact ⟨some sample, hprefix.subset (by simp), hdisk⟩

/-- **The state after every tick is the level** exactly when the disk is never full, or there is no level below `ok`
for a full one. -/
theorem classified_iff (d : DiskCheck) (ticks : List (Option Sample)) :
    d.Classified ticks ↔ ∀ u ∈ readings ticks, u.free = 0 → d.lowWater ≤ 0 ∧ d.warnWater ≤ 0 := by
  have hone : ∀ ts sample u, Known ticks ts sample u → ((d.after (ts ++ [some sample])).state = d.level u.free ↔
      (u.free = 0 → d.lowWater ≤ 0 ∧ d.warnWater ≤ 0)) := by
    intro ts sample u hu
    rw [after_state, hu.free_eq, newState_eq_level]
  constructor
  · intro h u hu
    obtain ⟨ts, sample, hknown⟩ := mem_readings.1 hu
    exact (hone ts sample u hknown).1 (h ts sample u hknown)
  · intro h ts sample u hknown
    exact (hone ts sample u hknown).2 (h u (mem_readings.2 ⟨ts, sample, hknown⟩))

/-- **Every change of the state is logged once.** -/
theorem logged_once (d : DiskCheck) (ticks : List (Option Sample)) :
    (d.after ticks).log.filter isChange = d.log.filter isChange ++ changes d.state (d.visited ticks) := by
  induction ticks generalizing d with
  | nil => simp [after, visited, changes]
  | cons t ticks ih =>
    rw [show d.after (t :: ticks) = (d.tick t).after ticks from rfl, ih]
    cases t with
    | none => simp [tick, visited, isChange]
    | some sample =>
      obtain ⟨hstate, -, hlog⟩ := tick_some d sample
      have hof : ∀ s free, isChange (Record.of s free) = true := by
        intro s free
        cases s <;> rfl
      rw [visited, changes, hlog, hstate]
      by_cases h : d.newState sample.free = d.state
      · simp [h]
      · simp [h, hof]

theorem after_state_ok (hd : d.state = .ok) (hok : ∀ u ∈ readings ticks, d.level u.free = .ok) (hts : ts <+: ticks) :
    (d.after ts).state = .ok := by
  induction ts using List.reverseRecOn with
  | nil => exact hd
  | append_singleton ts t ih =>
    cases t with
    | none =>
      rw [after_append]
      exact ih ((List.prefix_append ts _).trans hts)
    | some sample =>
      rw [after_state]
      rcases hdisk : sample.disk with _ | u
      · simp [newState, Sample.free, hdisk]
      · have hknown : Known ticks ts sample u := ⟨hts, hdisk⟩
        rw [hknown.free_eq]
        exact newState_of_level_ok (hok u (mem_readings.2 ⟨ts, sample, hknown⟩))

/-- In a sound run the state before a tick is the level that the tick finds: the snapshot has it. -/
theorem SoundRun.before (h : SoundRun d ticks) (hknown : Known ticks ts sample u) :
    (d.after ts).state = d.level u.free := by
  obtain ⟨snap, hsnap, -, hstate⟩ := h.carried ts sample u hknown sample
  rw [after_systemInfo] at hsnap
  rw [← hstate, ← Option.some.inj hsnap]

/-- So it never leaves `ok`: the first tick that does finds a level that the state before it is not. -/
theorem SoundRun.state_ok (h : SoundRun d ticks) (hd : d.state = .ok) (hts : ts <+: ticks) :
    (d.after ts).state = .ok := by
  induction ts using List.reverseRecOn with
  | nil => exact hd
  | append_singleton ts t ih =>
    have hok := ih ((List.prefix_append ts _).trans hts)
    cases t with
    | none =>
      rw [after_append]
      exact hok
    | some sample =>
      rcases hdisk : sample.disk with _ | u
      · rw [after_state]
        simp [newState, Sample.free, hdisk]
      · have hknown : Known ticks ts sample u := ⟨hts, hdisk⟩
        rw [h.classified ts sample u hknown, ← h.before hknown, hok]

theorem soundRun_iff (hd : d.state = .ok) : SoundRun d ticks ↔ ∀ u ∈ readings ticks, d.level u.free = .ok := by
  constructor
  · intro h u hu
    obtain ⟨ts, sample, hknown⟩ := mem_readings.1 hu
    rw [← h.before hknown]
    exact h.state_ok hd ((List.prefix_append ts _).trans hknown.1)
  · intro hok
    have hlevel : ∀ ts sample u, Known ticks ts sample u → d.level u.free = .ok := fun ts sample u hknown =>
      hok u (mem_readings.2 ⟨ts, sample, hknown⟩)
    have hclassified : d.Classified ticks := by
      intro ts sample u hknown
      rw [hlevel ts sample u hknown]
      exact after_state_ok hd hok hknown.1
    refine ⟨hclassified, ?_, logged_once d ticks, ?_⟩
    · intro ts sample u ts' sample' u' h h' hle
      rw [hclassified ts sample u h, hclassified ts' sample' u' h']
      exact level_antitone d hle
    · intro ts sample u hknown other
      refine ⟨_, after_systemInfo d ts sample other, hknown.2, ?_⟩
      rw [hlevel ts sample u hknown]
      exact after_state_ok hd hok ((List.prefix_append ts _).trans hknown.1)

/-- **The state of the disk.**  In a run of the watch the state is right, the changes are logged once, and the pages
see each disk with its own state, exactly when no reading is below one of the marks. -/
theorem disk_state_sound (dataPath : Str) (lowWaterMb warnWaterMb : ℤ) (first : Sample) (ticks : List (Option Sample)) :
    SoundRun ((new dataPath lowWaterMb warnWaterMb).start first) ticks ↔
      ∀ u ∈ readings ticks, lowWaterMb * 1024 * 1024 ≤ u.free ∧ warnWaterMb * 1024 * 1024 ≤ u.free := by
  rw [soundRun_iff rfl]
  exact forall₂_congr fun u _ => level_eq_ok

/-- A disk with so many MB free. -/
def sampleOf (freeMb : ℕ) : Sample where
  data := some ⟨2 ^ 35, 2 ^ 35 - freeMb * 2 ^ 20, freeMb * 2 ^ 20⟩

/-- The marks of the defaults, and a disk with space on it at the start. -/
def watch : DiskCheck := (new "/var".toList 500 1500).start (sampleOf 2000)

/-- A full disk is reported as `ok`; one that gets tight is shown as `ok` until the next tick. -/
theorem disk_state_fails :
    ((watch.after [some (sampleOf 0)]).state = .ok ∧ watch.level 0 = .low ∧ ¬SoundRun watch [some (sampleOf 0)]) ∧
    (watch.after [some (sampleOf 1000)]).state = .warn ∧
      (watch.after [some (sampleOf 1000)]).lastSnapshot.map (fun snap => (snap.disk.map (·.free), snap.state)) =
        some (some (1000 * 2 ^ 20), .ok) ∧ ¬SoundRun watch [some (sampleOf 1000)] := by
  refine ⟨⟨by decide +kernel, by decide +kernel, fun h => ?_⟩, by decide +kernel, by decide +kernel, fun h => ?_⟩
  · exact absurd ((soundRun_iff rfl).1 h ⟨2 ^ 35, 2 ^ 35, 0⟩ (by decide +kernel)) (by decide +kernel)
  · exact absurd ((soundRun_iff rfl).1 h ⟨2 ^ 35, 2 ^ 35 - 1000 * 2 ^ 20, 1000 * 2 ^ 20⟩ (by decide +kernel))
      (by decide +kernel)

end DiskCheck

end AisServer.Host
