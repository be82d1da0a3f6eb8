import AisServer.Forward.Loop

/-!
# What a worker can hold

* `Feed.step_fits` — `put` and `stop` add to the queue only while it has room;
* `HttpForwarder.Collecting.step` — a batch of a hundred sentences is posted or given up before the next is taken;
* `Loop.holds_of_run` — so what a worker holds over any run of its loop.
-/

namespace AisServer.Forward

open AisServer.Lib AisServer.Store

/-! ### The queue -/

namespace Worker

/-- The queue of the worker holds no more than `queueSize`, unless that is zero. -/
structure Fits (queueSize : ℕ) (w : Worker) : Prop where
  maxsize : w.maxsize = queueSize
  queue : 0 < queueSize → w.queue.length ≤ queueSize

variable {queueSize : ℕ} {w w' : Worker} {q : Queued}

theorem Fits.of_sublist (hw : w.Fits queueSize) (hmax : w'.maxsize = w.maxsize) (hq : w'.queue.Sublist w.queue) :
    w'.Fits queueSize :=
  ⟨hmax.trans hw.maxsize, fun h => hq.length_le.trans (hw.queue h)⟩

theorem Fits.putNowait (hw : w.Fits queueSize) (h : w.putNowait q = some w') : w'.Fits queueSize := by
  rcases hfull : w.full with _ | _
  · rw [putNowait_of_not_full hfull] at h
    obtain rfl := Option.some.inj h
    refine ⟨hw.maxsize, fun hpos => ?_⟩
    simp only [full, hw.maxsize, decide_eq_false_iff_not, not_and] at hfull
    have hroom := hfull hpos
    rw [List.length_append, List.length_singleton]
    omega
  · rw [putNowait_of_full hfull] at h
    cases h

theorem Fits.putOrDrop (hw : w.Fits queueSize) : (w.putOrDrop q).Fits queueSize := by
  unfold Worker.putOrDrop
  rcases hput : w.putNowait q with _ | w'
  · exact hw.of_sublist rfl (List.Sublist.refl _)
  · exact hw.putNowait hput

theorem Fits.wake (hw : w.Fits queueSize) : ((w.putNowait .wake).getD w).Fits queueSize := by
  rcases hput : w.putNowait .wake with _ | w'
  · exact hw
  · exact hw.putNowait hput

theorem Fits.closeSock (hw : w.Fits queueSize) : w.closeSock.Fits queueSize := by
  refine hw.of_sublist ?_ (by rw [closeSock_queue])
  unfold Worker.closeSock
  split <;> rfl

end Worker

variable {queueSize : ℕ}

theorem Feed.step_fits {s t : Feed} {e : FeedEvent} (hs : s.worker.Fits queueSize) (h : s.step e = some t) :
    t.worker.Fits queueSize := by
  cases e with
  | put sentence =>
    obtain ⟨-, ⟨hfull, rfl⟩ | ⟨-, rfl⟩⟩ := step_put h
    · exact hs.putNowait (Worker.putNowait_of_not_full hfull)
    · exact hs
  | evict =>
    obtain ⟨q, -, rfl⟩ := step_evict h
    exact hs.of_sublist rfl (List.tail_sublist _)
  | retry =>
    obtain ⟨q, -, rfl⟩ := step_retry h
    exact hs.putOrDrop
  | stop =>
    rw [← Option.some.inj h]
    exact hs.of_sublist rfl (List.Sublist.refl _)
  | wake =>
    obtain ⟨-, rfl⟩ := step_wake h
    exact hs.wake

theorem TcpForwarder.step_fits {s t : TcpForwarder} {e : TcpEvent} (hs : s.worker.Fits queueSize)
    (h : s.step e = some t) : t.worker.Fits queueSize := by
  cases e with
  | put _ | evict | retry | stop | wake => exact Feed.step_fits hs (step_feed rfl h).1
  | check =>
    obtain ⟨-, ⟨-, rfl⟩ | ⟨-, rfl⟩⟩ := step_check h
    · exact hs.closeSock
    · exact hs
  | connect result =>
    obtain ⟨-, rfl⟩ := step_connect h
    cases result with
    | raises => exact hs.closeSock
    | _ => exact hs.of_sublist rfl (List.Sublist.refl _)
  | get =>
    obtain ⟨-, ⟨-, rfl⟩ | ⟨q, queue, hq, rfl⟩⟩ := step_get h
    · exact hs
    · exact hs.of_sublist rfl (hq ▸ List.sublist_cons_self q queue)
  | send err now =>
    obtain ⟨q, -, rfl⟩ := step_send h
    cases err with
    | none => exact hs.of_sublist rfl (List.Sublist.refl _)
    | some err =>
      have hcount : (s.worker.countError err).Fits queueSize := hs.of_sublist rfl (List.Sublist.refl _)
      exact hcount.closeSock
  | requeue =>
    obtain ⟨q, -, rfl⟩ := step_requeue h
    exact hs.putOrDrop

theorem UdpForwarder.step_fits {s t : UdpForwarder} {e : UdpEvent} (hs : s.worker.Fits queueSize)
    (h : s.step e = some t) : t.worker.Fits queueSize := by
  cases e with
  | feed e =>
    obtain ⟨f, hf, rfl⟩ := Option.map_eq_some_iff.1 h
    exact Feed.step_fits hs hf
  | start created =>
    obtain ⟨-, ⟨-, rfl⟩ | ⟨-, rfl⟩⟩ := step_start h
    · exact hs.of_sublist rfl (List.Sublist.refl _)
    · exact hs.closeSock
  | check =>
    obtain ⟨-, ⟨-, rfl⟩ | ⟨-, rfl⟩⟩ := step_check h
    · exact hs.closeSock
    · exact hs
  | get =>
    obtain ⟨-, ⟨-, rfl⟩ | ⟨q, queue, hq, rfl⟩⟩ := step_get h
    · exact hs
    · exact hs.of_sublist rfl (hq ▸ List.sublist_cons_self q queue)
  | send result now =>
    obtain ⟨q, -, rfl⟩ := step_send h
    cases result with
    | raises => exact hs.closeSock
    | _ => exact hs.of_sublist rfl (List.Sublist.refl _)

/-! ### The batch -/

namespace HttpForwarder

/-- The sentences that the batch may hold where the thread stands. -/
def batchMax (s : HttpForwarder) : ℕ :=
  match s.pc with
  | .start | .loop | .get => 99
  | .flush | .post _ | .finished => 100

structure Collecting (queueSize : ℕ) (s : HttpForwarder) : Prop where
  worker : s.worker.Fits queueSize
  batch : s.batch.length ≤ s.batchMax

variable {s t : HttpForwarder} {e : HttpEvent}

theorem Collecting.step (hs : s.Collecting queueSize) (h : s.step e = some t) : t.Collecting queueSize := by
  obtain ⟨hworker, hbatch⟩ := hs
  unfold batchMax at hbatch
  cases e with
  | feed e =>
    obtain ⟨f, hf, rfl⟩ := Option.map_eq_some_iff.1 h
    exact ⟨Feed.step_fits hworker hf, hbatch⟩
  | start now =>
    obtain ⟨hpc, rfl⟩ := step_start h
    rw [hpc] at hbatch
    exact ⟨hworker.of_sublist rfl (List.Sublist.refl _), hbatch⟩
  | check =>
    obtain ⟨hpc, ⟨-, rfl⟩ | ⟨-, rfl⟩⟩ := step_check h
    · rw [hpc] at hbatch
      exact ⟨hworker.closeSock, Nat.le_succ_of_le hbatch⟩
    · rw [hpc] at hbatch
      exact ⟨hworker, hbatch⟩
  | get =>
    obtain ⟨hpc, h⟩ := step_get h
    rw [hpc] at hbatch
    have hbatch : s.batch.length ≤ 99 := hbatch
    obtain ⟨-, rfl⟩ | ⟨q, queue, hq, rfl⟩ := h
    · exact ⟨hworker, Nat.le_succ_of_le hbatch⟩
    · refine ⟨hworker.of_sublist rfl (hq ▸ List.sublist_cons_self q queue), ?_⟩
      show (if q.nonempty then s.batch ++ [q] else s.batch).length ≤ 100
      split
      · rw [List.length_append, List.length_singleton]
        omega
      · exact Nat.le_succ_of_le hbatch
  | flush now =>
    obtain ⟨hpc, rfl⟩ := step_flush h
    rw [hpc] at hbatch
    have hbatch : s.batch.length ≤ 100 := hbatch
    refine ⟨hworker, ?_⟩
    rcases hflush : s.flushes now with _ | _
    · -- a batch that is not posted is empty or smaller
      simp only [flushes, decide_eq_false_iff_not, not_and_or, not_not, not_or, not_le] at hflush
      show s.batch.length ≤ 99
      rcases hflush with hnil | ⟨hlt, -⟩
      · rw [hnil]
        exact Nat.zero_le _
      · omega
    · exact hbatch
  | post err =>
    obtain ⟨now, -, rfl⟩ := step_post h
    cases err with
    | none => exact ⟨hworker.of_sublist rfl (List.Sublist.refl _), Nat.zero_le _⟩
    | some err => exact ⟨hworker.of_sublist rfl (List.Sublist.refl _), Nat.zero_le _⟩

end HttpForwarder

/-! ### The loop -/

namespace Loop

variable {l m : Loop} {e : LoopEvent}

/-- The sentences that the worker has taken out of its queue and not sent. -/
def collected : Loop → ℕ
  | .tcp _ | .udp _ => 0
  | .http s => s.batch.length

/-- What a worker may hold. -/
def Holds (queueSize : ℕ) : Loop → Prop
  | .tcp s => s.worker.Fits queueSize
  | .udp s => s.worker.Fits queueSize
  | .http s => s.Collecting queueSize

theorem holds_new (queueSize : ℕ) (ep : Endpoint) : (Loop.new queueSize ep).Holds queueSize := by
  unfold Loop.new
  split
  · exact ⟨rfl, fun _ => Nat.zero_le _⟩
  · exact ⟨rfl, fun _ => Nat.zero_le _⟩
  · exact ⟨⟨rfl, fun _ => Nat.zero_le _⟩, Nat.zero_le _⟩

theorem Holds.step (hl : l.Holds queueSize) (h : l.step e = some m) : m.Holds queueSize := by
  cases l with
  | tcp s => cases e with
    | tcp e =>
      obtain ⟨t, ht, rfl⟩ := Option.map_eq_some_iff.1 h
      exact TcpForwarder.step_fits hl ht
    | udp e => cases h
    | http e => cases h
  | udp s => cases e with
    | tcp e => cases h
    | udp e =>
      obtain ⟨t, ht, rfl⟩ := Option.map_eq_some_iff.1 h
      exact UdpForwarder.step_fits hl ht
    | http e => cases h
  | http s => cases e with
    | tcp e => cases h
    | udp e => cases h
    | http e =>
      obtain ⟨t, ht, rfl⟩ := Option.map_eq_some_iff.1 h
      exact HttpForwarder.Collecting.step hl ht

/-- Over any run of its loop a worker keeps to its queue, and an HTTP worker to a hundred sentences beside it. -/
theorem holds_of_run {ep : Endpoint} {es : List LoopEvent} (h : run Loop.step (Loop.new queueSize ep) es = some l) :
    (0 < queueSize → l.worker.queue.length ≤ queueSize) ∧ l.collected ≤ 100 := by
  have hl : l.Holds queueSize := run_inv_of_step (fun _ _ _ hl hst => hl.step hst) (holds_new queueSize ep) h
  cases l with
  | tcp s => exact ⟨hl.queue, Nat.zero_le _⟩
  | udp s => exact ⟨hl.queue, Nat.zero_le _⟩
  | http s =>
    refine ⟨hl.worker.queue, hl.batch.trans ?_⟩
    unfold HttpForwarder.batchMax
    split <;> decide

end Loop

end AisServer.Forward
