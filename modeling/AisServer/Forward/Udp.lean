import AisServer.Forward.Tcp

/-!
# The UDP forwarder

`UdpForwarder.step` interleaves the loop `_run_udp` of a worker with its feed.  The outcome of every `sendto` is
in the event.  What the loop remembers of the last error is for the log alone and left out.
-/

namespace AisServer.Forward

open AisServer.Lib AisServer.Store AisServer.Stream

/-- Where the worker's thread stands. -/
inductive UdpPc
  | start
  /-- At `while not self._stop.is_set()`. -/
  | loop
  | get
  | send (q : Queued)
  | finished
  deriving DecidableEq

inductive SendResult
  | ok
  | failed (err : Str)
  /-- An exception that is no `OSError`, as for a port out of range, leaves the loop. -/
  | raises
  deriving DecidableEq

structure UdpForwarder extends Feed where
  pc : UdpPc := .start
  published : List UiEvent := []

inductive UdpEvent
  | feed (e : FeedEvent)
  /-- Whether there is a socket to be had. -/
  | start (created : Bool)
  | check
  | get
  | send (result : SendResult) (now : Time)

namespace UdpForwarder

def new (ep : Endpoint) (queueSize : ℕ) : UdpForwarder := { worker := { ep, maxsize := queueSize } }

/-- The thread leaves `run`. -/
def leave (s : UdpForwarder) : UdpForwarder := { s with worker := s.worker.closeSock, pc := .finished }

/-- `sendto` and what follows it. -/
def trySend (s : UdpForwarder) (q : Queued) (now : Time) : SendResult → UdpForwarder
  | .ok => { s with
      worker := s.worker.countSent now, pc := .loop
      published := s.published ++ [TcpForwarder.outgoing s.worker.ep q.sentence now] }
  | .failed err => { s with worker := s.worker.noteError err, pc := .loop }
  | .raises => s.leave

def step (s : UdpForwarder) : UdpEvent → Option UdpForwarder
  | .feed e => (s.toFeed.step e).map fun toFeed => { s with toFeed }
  | .start created =>
    if s.pc = .start then
      if created then some { s with
        worker := { s.worker with sock := true, stats := { s.worker.stats with connected := true } }
        pc := .loop }
      else some s.leave
    else none
  | .check =>
    if s.pc = .loop then
      if s.worker.stopped then some s.leave else some { s with pc := .get }
    else none
  | .get =>
    if s.pc = .get then
      match s.worker.queue with
      | [] => some { s with pc := .loop }
      | q :: queue => some { s with
          worker := { s.worker with queue }, pc := if q.nonempty then .send q else .loop }
    else none
  | .send result now =>
    match s.pc with
    | .send q => some (s.trySend q now result)
    | _ => none

/-! ### What a step does -/

variable {s t : UdpForwarder}

theorem step_start {created : Bool} (h : s.step (.start created) = some t) : s.pc = .start ∧
    (created = true ∧ t = { s with
        worker := { s.worker with sock := true, stats := { s.worker.stats with connected := true } }, pc := .loop } ∨
      created = false ∧ t = s.leave) := by
  obtain ⟨hpc, h⟩ := Option.ite_none_right_eq_some.1 h
  cases created with
  | false => exact ⟨hpc, Or.inr ⟨rfl, (Option.some.inj h).symm⟩⟩
  | true => exact ⟨hpc, Or.inl ⟨rfl, (Option.some.inj h).symm⟩⟩

theorem step_check (h : s.step .check = some t) : s.pc = .loop ∧
    (s.worker.stopped = true ∧ t = s.leave ∨ s.worker.stopped = false ∧ t = { s with pc := .get }) :=
  Feed.of_check h

theorem step_get (h : s.step .get = some t) : s.pc = .get ∧
    (s.worker.queue = [] ∧ t = { s with pc := .loop } ∨
      ∃ q queue, s.worker.queue = q :: queue ∧ t = { s with
        worker := { s.worker with queue }, pc := if q.nonempty then .send q else .loop }) :=
  Feed.of_get h

theorem step_send {result : SendResult} {now : Time} (h : s.step (.send result now) = some t) :
    ∃ q, s.pc = .send q ∧ t = s.trySend q now result := by
  rw [step] at h
  split at h
  · rename_i q hpc
    exact ⟨q, hpc, (Option.some.inj h).symm⟩
  · cases h

end UdpForwarder

end AisServer.Forward
