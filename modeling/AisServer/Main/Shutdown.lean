import AisServer.Forward.Manager
import AisServer.Main.Supervisor

/-!
# The end of the forwarders

`_endpoint_sync_loop` runs in a supervised thread, and `main` ends by setting the stop event and calling `stop_all`.
Nobody stops the thread: the loop returns when it finds the event set, and is started again.  A turn of the loop that
has looked at the event before it was set still calls `sync`.

* `stopAll_dropped` — `stop_all` leaves no worker that was not told to stop;
* `shutdown` — at most one `sync` comes after the stop event, and without it no forwarder is left.
-/

namespace AisServer.Forward

open AisServer.Lib AisServer.Store

namespace ForwarderManager

/-- `stop_all` -/
def stopAll (m : ForwarderManager) : ForwarderManager :=
  { m with workers := (m.workers.refs.keys.foldl (fun d eid => d.update eid Thread.stop) m.workers).clear }

/-- Every worker that is no longer registered was told to stop. -/
def Retired (d : Table ℕ Thread) : Prop := d.Dropped fun t => t.worker.stopped = true

variable {m : ForwarderManager} {d : Table ℕ Thread} {existing raises : List ℕ} {w : Dict ℕ Endpoint}
  {queueSize eid : ℕ} {endpoints : List Endpoint} {keys : List ℕ}

theorem stopped_stop (t : Thread) : t.stop.worker.stopped = true := by
  show ((Worker.putNowait { t.worker with stopped := true } .wake).getD _).stopped = true
  unfold Worker.putNowait
  split <;> rfl

theorem Retired.stopLoop (hd : Retired d) : Retired (stopLoop w raises d existing).1 := by
  induction existing generalizing d with
  | nil => exact hd
  | cons k existing ih =>
    rw [ForwarderManager.stopLoop]
    cases ht : d.get k with
    | none => exact hd
    | some t =>
      have hstopped : Retired (d.update k Thread.stop) := hd.update fun t _ => stopped_stop t
      have herased : Retired ((d.update k Thread.stop).erase k) := by
        refine hstopped.erase fun t' ht' => ?_
        rw [Table.get_update, if_pos rfl, ht] at ht'
        obtain rfl : t.stop = t' := by simpa using ht'
        exact stopped_stop t
      dsimp only
      split
      · split
        · exact hstopped
        · exact ih herased
      · exact ih hd

theorem Retired.startLoop (hd : Retired d) : Retired (startLoop queueSize d w) := by
  induction w generalizing d with
  | nil => exact hd
  | cons i w ih =>
    rw [ForwarderManager.startLoop]
    refine ih ?_
    split
    · rename_i hnone
      exact hd.add (Table.get_eq_none.1 (Option.isNone_iff_eq_none.1 hnone))
    · exact hd

theorem Retired.sync (hd : Retired m.workers) : Retired (m.sync endpoints existing raises).1.workers := by
  have hloop : Retired (ForwarderManager.stopLoop (wanted endpoints) raises m.workers existing).1 := hd.stopLoop
  unfold ForwarderManager.sync
  split
  · rename_i d hstop
    rwa [hstop] at hloop
  · rename_i d hstop
    rw [hstop] at hloop
    exact hloop.startLoop

theorem foldl_stop_stopped (h : ∀ eid ∉ keys, ∀ t ∈ d.get eid, t.worker.stopped = true) :
    ∀ eid, ∀ t ∈ (keys.foldl (fun d eid => d.update eid Thread.stop) d).get eid, t.worker.stopped = true := by
  induction keys generalizing d with
  | nil => exact fun eid => h eid List.not_mem_nil
  | cons k keys ih =>
    refine ih fun eid heid t ht => ?_
    rw [Table.get_update] at ht
    by_cases hk : eid = k
    · rw [if_pos hk] at ht
      obtain ⟨t', -, rfl⟩ := Option.map_eq_some_iff.1 (Option.mem_def.1 ht)
      exact stopped_stop t'
    · rw [if_neg hk] at ht
      exact h eid (fun hmem => (List.mem_cons.1 hmem).elim hk heid) t ht

theorem Retired.foldl_stop (hd : Retired d) : Retired (keys.foldl (fun d eid => d.update eid Thread.stop) d) := by
  induction keys generalizing d with
  | nil => exact hd
  | cons k keys ih => exact ih (hd.update fun t _ => stopped_stop t)

/-- **`stop_all`.**  It registers no worker and leaves none that was not told to stop. -/
theorem stopAll_dropped (hd : Retired m.workers) :
    (∀ eid, m.stopAll.workers.get eid = none) ∧ ∀ t ∈ m.stopAll.workers.objs, t.worker.stopped = true := by
  refine ⟨fun eid => Table.get_eq_none.2 (AList.lookup_empty eid), ?_⟩
  refine Table.Dropped.clear hd.foldl_stop (foldl_stop_stopped fun eid heid t ht => ?_)
  have hnone : m.workers.get eid = none :=
    Table.get_eq_none.2 (AList.lookup_eq_none.2 fun h => heid (AList.mem_keys.1 h))
  rw [hnone] at ht
  cases ht

end ForwarderManager

end AisServer.Forward

namespace AisServer.Main

open AisServer.Lib AisServer.Store AisServer.Forward

/-- Where `_endpoint_sync_loop` stands. -/
inductive SyncLoopPc
  /-- Before it looks at the stop event. -/
  | head
  /-- It found the event not set and reads the rows. -/
  | reading
  | sleeping (wakeAt : Time)

/-- The supervised thread of `_endpoint_sync_loop` and the end of `main`. -/
structure Shutdown where
  thread : Supervised
  pc : SyncLoopPc := .head
  manager : ForwarderManager
  /-- The stop event is set. -/
  stop : Bool := false
  /-- `stop_all` was called. -/
  closed : Bool := false
  /-- The calls of `sync` since the stop event was set, and since `stop_all`. -/
  lateSyncs : ℕ := 0
  closedSyncs : ℕ := 0

inductive ShutdownEvent
  /-- The supervisor starts the loop. -/
  | start (now : Time)
  /-- The head of the loop, which returns when the event is set. -/
  | check (now : Time)
  /-- `list_endpoints` or `sync` raises before it has done anything. -/
  | fail (now : Time)
  | sync (now : Time) (endpoints : List Endpoint) (existing raises : List ℕ)
  | wake (now : Time)
  /-- A worker terminates. -/
  | die (r : Ref)
  /-- The stop event is set, by a signal or by the end of `main`. -/
  | term
  | stopAll

namespace Shutdown

/-- How long the loop sleeps between two calls of `sync`. -/
def syncInterval : Time := 2

def new (queueSize : ℕ) (startedAt : Time) : Shutdown where
  thread := { clock := startedAt }
  manager := { queueSize }

def step (s : Shutdown) : ShutdownEvent → Option Shutdown
  | .start now => (s.thread.step (.head now)).map fun thread => { s with thread, pc := .head }
  | .check now =>
    match s.thread.pc, s.pc with
    | .running, .head =>
      if s.stop then (s.thread.step (.ret now)).map fun thread => { s with thread }
      else some { s with pc := .reading }
    | _, _ => none
  | .fail now =>
    match s.pc with
    | .reading => some { s with pc := .sleeping (now + syncInterval) }
    | _ => none
  | .sync now endpoints existing raises =>
    match s.pc with
    | .reading =>
      if existing.Perm s.manager.workers.refs.keys then
        some { s with
          manager := (s.manager.sync endpoints existing raises).1, pc := .sleeping (now + syncInterval)
          lateSyncs := if s.stop then s.lateSyncs + 1 else s.lateSyncs
          closedSyncs := if s.closed then s.closedSyncs + 1 else s.closedSyncs }
      else none
    | _ => none
  | .wake now =>
    match s.pc with
    | .sleeping wakeAt => if now < wakeAt then none else some { s with pc := .head }
    | _ => none
  | .die r => some { s with
      manager := { s.manager with workers := s.manager.workers.modify r fun t => { t with alive := false } } }
  | .term => some { s with stop := true }
  | .stopAll =>
    if s.stop then some { s with manager := s.manager.stopAll, closed := true, closedSyncs := 0 } else none

/-- After the stop event the turn that was under way may still call `sync`, and no other. -/
structure Ending (s : Shutdown) : Prop where
  retired : ForwarderManager.Retired s.manager.workers
  waits : s.stop = false → s.lateSyncs = 0
  late : s.lateSyncs ≤ 1
  reading : s.stop = true → s.pc = .reading → s.lateSyncs = 0
  closed : s.closed = true → s.stop = true
  after : s.closedSyncs ≤ s.lateSyncs
  empty : s.closed = true → s.closedSyncs = 0 →
    (∀ eid, s.manager.workers.get eid = none) ∧ ∀ t ∈ s.manager.workers.objs, t.worker.stopped = true
  unstopped : s.thread.stopped = false
  alive : s.thread.pc ≠ .done

variable {s t : Shutdown} {e : ShutdownEvent}

theorem ending_new (queueSize : ℕ) (startedAt : Time) : Ending (new queueSize startedAt) where
  retired := Table.dropped_empty
  waits _ := rfl
  late := Nat.zero_le _
  reading h := by cases h
  closed h := by cases h
  after := le_rfl
  empty h := by cases h
  unstopped := rfl
  alive h := by cases h

theorem Ending.step (hs : Ending s) (h : s.step e = some t) : Ending t := by
  cases e with
  | start now =>
    obtain ⟨thread, hthread, rfl⟩ := Option.map_eq_some_iff.1 h
    obtain ⟨-, -, ⟨hstop, -⟩ | ⟨hstop, rfl⟩⟩ := Supervised.step_head hthread
    · cases hs.unstopped.symm.trans hstop
    · exact { hs with reading := fun _ hpc => (by cases hpc), alive := fun hdone => by cases hdone }
  | check now =>
    simp only [Shutdown.step] at h
    split at h
    · rename_i hrunning hpc
      by_cases hstop : s.stop = true
      · rw [if_pos hstop] at h
        obtain ⟨thread, hthread, rfl⟩ := Option.map_eq_some_iff.1 h
        obtain ⟨-, -, rfl⟩ := Supervised.step_ret hthread
        exact { hs with unstopped := hs.unstopped, alive := fun hdone => by cases hdone }
      · rw [if_neg hstop] at h
        obtain rfl := Option.some.inj h
        exact { hs with reading := fun hset => absurd hset hstop }
    · cases h
  | fail now =>
    simp only [Shutdown.step] at h
    split at h
    · obtain rfl := Option.some.inj h
      exact { hs with reading := fun _ hpc => by cases hpc }
    · cases h
  | sync now endpoints existing raises =>
    simp only [Shutdown.step] at h
    split at h
    · rename_i hpc
      split at h
      · obtain rfl := Option.some.inj h
        have hafter := hs.after
        by_cases hstop : s.stop = true
        · have hzero : s.lateSyncs = 0 := hs.reading hstop hpc
          refine { hs with
            retired := hs.retired.sync, waits := fun hset => ?_, late := ?_, reading := fun _ hpc => by cases hpc
            after := ?_, empty := fun hc hcount => ?_ }
          · cases hset.symm.trans hstop
          · simp [hstop, hzero]
          · simp only [hstop, if_true]
            split <;> omega
          · simp [show s.closed = true from hc] at hcount
        · have hclosed : ¬ s.closed = true := fun hclosed => hstop (hs.closed hclosed)
          refine { hs with
            retired := hs.retired.sync, waits := fun hset => ?_, late := ?_, reading := fun _ hpc => by cases hpc
            after := ?_, empty := fun hc => absurd hc hclosed }
          · simpa [hstop] using hs.waits hset
          · simpa [hstop] using hs.late
          · simpa [hstop, hclosed] using hafter
      · cases h
    · cases h
  | wake now =>
    simp only [Shutdown.step] at h
    split at h
    · split at h
      · cases h
      · obtain rfl := Option.some.inj h
        exact { hs with reading := fun _ hpc => by cases hpc }
    · cases h
  | die r =>
    obtain rfl := Option.some.inj h
    refine { hs with retired := hs.retired.modify fun t ht => ht, empty := fun hc hcount => ?_ }
    obtain ⟨hnone, hstopped⟩ := hs.empty hc hcount
    refine ⟨fun eid => ?_, fun t ht => ?_⟩
    · show (s.manager.workers.modify r _).get eid = none
      rw [Table.get_modify, hnone, Option.map_none, ite_self]
    · obtain ⟨i, hi⟩ := List.mem_iff_getElem?.1 ht
      simp only [Table.modify, List.getElem?_modify] at hi
      obtain ⟨t', ht', rfl⟩ := Option.map_eq_some_iff.1 hi
      have hold := hstopped t' (List.mem_of_getElem? ht')
      split
      · exact hold
      · exact hold
  | term =>
    obtain rfl := Option.some.inj h
    refine { hs with waits := fun hset => ?_, reading := fun _ hpc => ?_, closed := fun _ => rfl }
    · cases hset
    · by_cases hstop : s.stop = true
      · exact hs.reading hstop hpc
      · exact hs.waits (by simpa using hstop)
  | stopAll =>
    simp only [Shutdown.step] at h
    split at h
    · rename_i hstop
      obtain rfl := Option.some.inj h
      have hall := ForwarderManager.stopAll_dropped hs.retired
      refine { hs with
        retired := fun r t ht _ => hall.2 t (List.mem_of_getElem? ht), closed := fun _ => hstop
        after := Nat.zero_le _, empty := fun _ _ => hall }
    · cases h

/-- The loop returns at once and is started again. -/
theorem spin (hpc : s.thread.pc = .head) (hstopped : s.thread.stopped = false) (hstop : s.stop = true) (n : ℕ) :
    ∃ es t, run step s es = some t ∧ t.thread.starts = s.thread.starts + n ∧ t.thread.clock = s.thread.clock := by
  induction n generalizing s with
  | zero => exact ⟨[], s, rfl, rfl, rfl⟩
  | succ n ih =>
    have hstart : s.step (.start s.thread.clock) = some { s with
        thread := { s.thread with pc := .running, starts := s.thread.starts + 1 }, pc := .head } := by
      simp [Shutdown.step, Supervised.step, hpc, hstopped]
    have hcheck : Shutdown.step { s with
          thread := { s.thread with pc := .running, starts := s.thread.starts + 1 }, pc := .head }
        (.check s.thread.clock) = some { s with
          thread := { s.thread with
            pc := .head, starts := s.thread.starts + 1, backoff := 1, crashes := 0, returns := s.thread.returns + 1 }
          pc := .head } := by
      simp [Shutdown.step, Supervised.step, hstop]
    obtain ⟨es, t, hrun, hstarts, hclock⟩ := ih (s := { s with
      thread := { s.thread with
        pc := .head, starts := s.thread.starts + 1, backoff := 1, crashes := 0, returns := s.thread.returns + 1 }
      pc := .head }) rfl hstopped hstop
    refine ⟨.start s.thread.clock :: .check s.thread.clock :: es, t, ?_, ?_, hclock⟩
    · rw [run_cons, hstart, Option.bind_some, run_cons, hcheck, Option.bind_some, hrun]
    · rw [hstarts]
      show s.thread.starts + 1 + n = s.thread.starts + (n + 1)
      omega

end Shutdown

/-- **The end of the forwarders.**  In every run, once the stop event is set: at most one `sync` comes after it, that of
the turn which had looked at the event before; if none came after `stop_all`, no worker is registered and every one
that there ever was is told to stop; and the thread of the loop does not end, but starts it again as often as there is
time for, without any sleep. -/
theorem shutdown {queueSize : ℕ} {startedAt : Time} {es : List ShutdownEvent} {s : Shutdown}
    (h : run Shutdown.step (Shutdown.new queueSize startedAt) es = some s) (hstop : s.stop = true) :
    s.lateSyncs ≤ 1 ∧
    (s.closed = true → s.closedSyncs = 0 →
      (∀ eid, s.manager.workers.get eid = none) ∧ ∀ t ∈ s.manager.workers.objs, t.worker.stopped = true) ∧
    s.thread.pc ≠ .done ∧
    (s.thread.pc = .head → ∀ n, ∃ es t, run Shutdown.step s es = some t ∧
      t.thread.starts = s.thread.starts + n ∧ t.thread.clock = s.thread.clock) := by
  have hs : s.Ending := run_inv_of_step (fun _ _ _ hs hst => hs.step hst) (Shutdown.ending_new queueSize startedAt) h
  exact ⟨hs.late, hs.empty, hs.alive, fun hpc => Shutdown.spin hpc hs.unstopped hstop⟩

/-- A turn of the loop reads the rows, and everything is stopped before it calls `sync`. -/
def lateSync : List ShutdownEvent :=
  [.start 0, .check 0, .term, .stopAll, .sync 1 [plotter 7000] [] [], .wake 3, .check 3]

theorem shutdown_lateSync :
    ∃ s, run Shutdown.step (Shutdown.new 9 0) lateSync = some s ∧ s.closed = true ∧ s.lateSyncs = 1 ∧
      (s.manager.workers.get 1).any (·.working) = true ∧ s.thread.pc ≠ .done := by
  have hrun : (run Shutdown.step (Shutdown.new 9 0) lateSync).map (fun s =>
      (s.stop, s.closed, s.lateSyncs, (s.manager.workers.get 1).any (·.working))) =
      some (true, true, 1, true) := by decide +kernel
  obtain ⟨s, hs, hfacts⟩ := Option.map_eq_some_iff.1 hrun
  obtain ⟨hstop, hfacts⟩ := Prod.mk.inj hfacts
  obtain ⟨hclosed, hfacts⟩ := Prod.mk.inj hfacts
  obtain ⟨hlate, hworks⟩ := Prod.mk.inj hfacts
  exact ⟨s, hs, hclosed, hlate, hworks, (shutdown hs hstop).2.2.1⟩

end AisServer.Main
