import AisServer.Forward.Feed

/-!
# The HTTP forwarder

`HttpForwarder.step` interleaves the loop `_run_http` of a worker with its feed.  The sentences are collected in a
batch, which is posted when it is large or old enough.  Whether a `post` returns is in the event; the state keeps
the bodies of those that did.
-/

namespace AisServer.Forward

open AisServer.Lib AisServer.Store

/-- Where the worker's thread stands. -/
inductive HttpPc
  | start
  /-- At `while not self._stop.is_set()`. -/
  | loop
  | get
  | flush
  | post (now : Time)
  | finished
  deriving DecidableEq

structure HttpForwarder extends Feed where
  pc : HttpPc := .start
  batch : List Queued := []
  lastFlush : Time := 0
  posted : List Str := []

inductive HttpEvent
  | feed (e : FeedEvent)
  | start (now : Time)
  | check
  | get
  | flush (now : Time)
  /-- `none` for a `post` that returns. -/
  | post (err : Option Str)

namespace HttpForwarder

def new (ep : Endpoint) (queueSize : ℕ) : HttpForwarder := { worker := { ep, maxsize := queueSize } }

/-- `"\r\n".join(batch)` -/
def body (batch : List Queued) : Str := ['\r', '\n'].intercalate (batch.map (·.sentence))

/-- `batch and (len(batch) >= 100 or now - last_flush > 1.0)` -/
def flushes (s : HttpForwarder) (now : Time) : Bool :=
  s.batch ≠ [] ∧ (100 ≤ s.batch.length ∨ 1 < now - s.lastFlush)

/-- `requests.post` and what follows it. -/
def tryPost (s : HttpForwarder) (now : Time) : Option Str → HttpForwarder
  | none => { s with
      worker := { s.worker with stats := { s.worker.stats with
        sent := s.worker.stats.sent + s.batch.length, lastSend := now } }
      pc := .loop, batch := [], lastFlush := now, posted := s.posted ++ [body s.batch] }
  | some err => { s with worker := s.worker.noteError err, pc := .loop, batch := [], lastFlush := now }

def step (s : HttpForwarder) : HttpEvent → Option HttpForwarder
  | .feed e => (s.toFeed.step e).map fun toFeed => { s with toFeed }
  | .start now =>
    if s.pc = .start then some { s with
      worker := { s.worker with stats := { s.worker.stats with connected := true } }
      pc := .loop, lastFlush := now }
    else none
  | .check =>
    if s.pc = .loop then
      if s.worker.stopped then some { s with worker := s.worker.closeSock, pc := .finished }
      else some { s with pc := .get }
    else none
  | .get =>
    if s.pc = .get then
      match s.worker.queue with
      | [] => some { s with pc := .flush }
      | q :: queue => some { s with
          worker := { s.worker with queue }, pc := .flush
          batch := if q.nonempty then s.batch ++ [q] else s.batch }
    else none
  | .flush now =>
    if s.pc = .flush then some { s with pc := if s.flushes now then .post now else .loop } else none
  | .post err =>
    match s.pc with
    | .post now => some (s.tryPost now err)
    | _ => none

/-! ### What a step does -/

variable {s t : HttpForwarder}

theorem step_start {now : Time} (h : s.step (.start now) = some t) : s.pc = .start ∧ t = { s with
    worker := { s.worker with stats := { s.worker.stats with connected := true } }, pc := .loop, lastFlush := now } := by
  obtain ⟨hpc, h⟩ := Option.ite_none_right_eq_some.1 h
  exact ⟨hpc, (Option.some.inj h).symm⟩

theorem step_check (h : s.step .check = some t) : s.pc = .loop ∧
    (s.worker.stopped = true ∧ t = { s with worker := s.worker.closeSock, pc := .finished } ∨
      s.worker.stopped = false ∧ t = { s with pc := .get }) :=
  Feed.of_check h

theorem step_get (h : s.step .get = some t) : s.pc = .get ∧
    (s.worker.queue = [] ∧ t = { s with pc := .flush } ∨
      ∃ q queue, s.worker.queue = q :: queue ∧ t = { s with
        worker := { s.worker with queue }, pc := .flush
        batch := if q.nonempty then s.batch ++ [q] else s.batch }) :=
  Feed.of_get h

theorem step_flush {now : Time} (h : s.step (.flush now) = some t) :
    s.pc = .flush ∧ t = { s with pc := if s.flushes now then .post now else .loop } := by
  obtain ⟨hpc, h⟩ := Option.ite_none_right_eq_some.1 h
  exact ⟨hpc, (Option.some.inj h).symm⟩

theorem step_post {err : Option Str} (h : s.step (.post err) = some t) :
    ∃ now, s.pc = .post now ∧ t = s.tryPost now err := by
  rw [step] at h
  split at h
  · rename_i now hpc
    exact ⟨now, hpc, (Option.some.inj h).symm⟩
  · cases h

end HttpForwarder

end AisServer.Forward
