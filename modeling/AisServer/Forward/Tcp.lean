import AisServer.Forward.Feed
import AisServer.Lib.Run

/-!
# The TCP forwarder

`TcpForwarder.step` interleaves the loop `_run_tcp` of a worker with its feed.  The outcome of every connection
and of every `sendall` is in the event; a failure carries the text of the `OSError`.  Next to the feed the state
keeps where the loop stands and the history of `put` and of the sentences whose `sendall` returned.
-/

namespace AisServer.Forward

open AisServer.Lib AisServer.Store AisServer.Stream

/-- Where the worker's thread stands. -/
inductive TcpPc
  /-- At `while not self._stop.is_set()`. -/
  | loop
  | connect
  | get
  | send (q : Queued)
  /-- A send failed and the sentence is to be queued again. -/
  | requeue (q : Queued)
  | finished
  deriving DecidableEq

/-- What `create_connection` and `setsockopt` do. -/
inductive ConnectResult
  | ok
  | refused (err : Str)
  /-- The connection stands and `setsockopt` fails. -/
  | noDelay (err : Str)
  /-- An exception that is no `OSError` leaves the loop. -/
  | raises

structure TcpForwarder extends Feed where
  backoff : Time := 1
  pc : TcpPc := .loop
  puts : List Queued := []
  sent : List Queued := []
  published : List UiEvent := []

inductive TcpEvent
  | put (sentence : Str)
  | evict
  | retry
  | stop
  | wake
  | check
  | connect (result : ConnectResult)
  | get
  /-- `none` for a `sendall` that returns. -/
  | send (err : Option Str) (now : Time)
  | requeue

/-- The event of the feed that an event is. -/
def TcpEvent.feed : TcpEvent → Option FeedEvent
  | .put sentence => some (.put sentence)
  | .evict => some .evict
  | .retry => some .retry
  | .stop => some .stop
  | .wake => some .wake
  | .check | .connect _ | .get | .send _ _ | .requeue => none

/-- `_MAX_BACKOFF` -/
def maxBackoff : Time := 30

namespace TcpForwarder

/-- A worker that was just started. -/
def new (ep : Endpoint) (queueSize : ℕ) : TcpForwarder := { worker := { ep, maxsize := queueSize } }

/-- The payload of the topic `outgoing`; the name of an endpoint is text. -/
def outgoing (ep : Endpoint) (sentence : Str) (now : Time) : UiEvent :=
  .outgoing ep.id (match ep.name with | .text s => s | _ => []) sentence now

/-- A failed connection is counted and the pause doubled. -/
def connectFailed (s : TcpForwarder) (err : Str) : TcpForwarder :=
  { s with worker := s.worker.countError err, backoff := min maxBackoff (s.backoff * 2), pc := .loop }

/-- The thread leaves `run`. -/
def leave (s : TcpForwarder) : TcpForwarder := { s with worker := s.worker.closeSock, pc := .finished }

/-- The attempt to connect. -/
def tryConnect (s : TcpForwarder) : ConnectResult → TcpForwarder
  | .ok => { s with
      worker := { s.worker with sock := true, stats := { s.worker.stats with connected := true } }
      backoff := 1, pc := .get }
  | .refused err => s.connectFailed err
  | .noDelay err => { s.connectFailed err with
      worker := { s.worker.countError err with sock := true } }
  | .raises => s.leave

/-- `sendall` and what follows it. -/
def trySend (s : TcpForwarder) (q : Queued) (now : Time) : Option Str → TcpForwarder
  | none => { s with
      worker := s.worker.countSent now, pc := .loop, sent := s.sent ++ [q]
      published := s.published ++ [outgoing s.worker.ep q.sentence now] }
  | some err => { s with worker := (s.worker.countError err).closeSock, pc := .requeue q }

def step (s : TcpForwarder) : TcpEvent → Option TcpForwarder
  | .put sentence => (s.toFeed.step (.put sentence)).map fun toFeed =>
      { s with toFeed, puts := s.puts ++ [⟨s.calls, sentence⟩] }
  | .evict => (s.toFeed.step .evict).map fun toFeed => { s with toFeed }
  | .retry => (s.toFeed.step .retry).map fun toFeed => { s with toFeed }
  | .stop => (s.toFeed.step .stop).map fun toFeed => { s with toFeed }
  | .wake => (s.toFeed.step .wake).map fun toFeed => { s with toFeed }
  | .check =>
    if s.pc = .loop then
      if s.worker.stopped then some s.leave
      else some { s with pc := if s.worker.sock then .get else .connect }
    else none
  | .connect result => if s.pc = .connect then some (s.tryConnect result) else none
  | .get =>
    if s.pc = .get then
      match s.worker.queue with
      | [] => some { s with pc := .loop }
      | q :: queue => some { s with
          worker := { s.worker with queue }, pc := if q.nonempty then .send q else .loop }
    else none
  | .send err now =>
    match s.pc with
    | .send q => some (s.trySend q now err)
    | _ => none
  | .requeue =>
    match s.pc with
    | .requeue q => some { s with worker := s.worker.putOrDrop q, pc := .loop }
    | _ => none

/-! ### What a step can do -/

variable {s t : TcpForwarder} {e : TcpEvent} {f : FeedEvent} {sentence : Str} {now : Time}

theorem step_feed (he : e.feed = some f) (h : s.step e = some t) :
    s.toFeed.step f = some t.toFeed ∧ t.pc = s.pc ∧ t.sent = s.sent ∧ t.backoff = s.backoff := by
  cases e with
  | stop =>
    obtain rfl := Option.some.inj he
    obtain rfl := Option.some.inj h
    exact ⟨rfl, rfl, rfl, rfl⟩
  | put sentence | evict | retry | wake =>
    obtain rfl := Option.some.inj he
    obtain ⟨feed, hfeed, rfl⟩ := Option.map_eq_some_iff.1 h
    exact ⟨hfeed, rfl, rfl, rfl⟩
  | check | connect _ | get | send _ _ | requeue => cases he

theorem step_put (h : s.step (.put sentence) = some t) :
    s.producer = .idle ∧
    ((s.worker.full = false ∧ t = { s with
        worker := { s.worker with queue := s.worker.queue ++ [⟨s.calls, sentence⟩] }
        calls := s.calls + 1, puts := s.puts ++ [⟨s.calls, sentence⟩] }) ∨
      (s.worker.full = true ∧ t = { s with
        producer := .evict ⟨s.calls, sentence⟩
        calls := s.calls + 1, puts := s.puts ++ [⟨s.calls, sentence⟩] })) := by
  obtain ⟨feed, hfeed, rfl⟩ := Option.map_eq_some_iff.1 h
  obtain ⟨hidle, ⟨hfull, rfl⟩ | ⟨hfull, rfl⟩⟩ := Feed.step_put hfeed
  · exact ⟨hidle, Or.inl ⟨hfull, rfl⟩⟩
  · exact ⟨hidle, Or.inr ⟨hfull, rfl⟩⟩

theorem step_evict (h : s.step .evict = some t) : ∃ q, s.producer = .evict q ∧ t = { s with
    worker := { s.worker with queue := s.worker.queue.tail }, producer := .retry q } := by
  obtain ⟨feed, hfeed, rfl⟩ := Option.map_eq_some_iff.1 h
  obtain ⟨q, hq, rfl⟩ := Feed.step_evict hfeed
  exact ⟨q, hq, rfl⟩

theorem step_retry (h : s.step .retry = some t) : ∃ q, s.producer = .retry q ∧
    t = { s with worker := s.worker.putOrDrop q, producer := .idle } := by
  obtain ⟨feed, hfeed, rfl⟩ := Option.map_eq_some_iff.1 h
  obtain ⟨q, hq, rfl⟩ := Feed.step_retry hfeed
  exact ⟨q, hq, rfl⟩

theorem step_wake (h : s.step .wake = some t) : s.worker.stopped = true ∧
    t = { s with worker := (s.worker.putNowait .wake).getD s.worker } := by
  obtain ⟨feed, hfeed, rfl⟩ := Option.map_eq_some_iff.1 h
  obtain ⟨hstop, rfl⟩ := Feed.step_wake hfeed
  exact ⟨hstop, rfl⟩

theorem step_check (h : s.step .check = some t) : s.pc = .loop ∧
    (s.worker.stopped = true ∧ t = s.leave ∨
      s.worker.stopped = false ∧ t = { s with pc := if s.worker.sock then .get else .connect }) :=
  Feed.of_check h

theorem step_connect {result : ConnectResult} (h : s.step (.connect result) = some t) :
    s.pc = .connect ∧ t = s.tryConnect result := by
  obtain ⟨hpc, h⟩ := Option.ite_none_right_eq_some.1 h
  exact ⟨hpc, (Option.some.inj h).symm⟩

theorem tryConnect_frame (s : TcpForwarder) (result : ConnectResult) :
    ∃ worker backoff pc, s.tryConnect result = { s with worker, backoff, pc } ∧
      worker.queue = s.worker.queue ∧ (pc = .get ∨ pc = .loop ∨ pc = .finished) := by
  cases result with
  | ok => exact ⟨_, _, _, rfl, rfl, Or.inl rfl⟩
  | refused err => exact ⟨_, _, _, rfl, rfl, Or.inr (Or.inl rfl)⟩
  | noDelay err => exact ⟨_, _, _, rfl, rfl, Or.inr (Or.inl rfl)⟩
  | raises => exact ⟨_, s.backoff, _, rfl, Worker.closeSock_queue, Or.inr (Or.inr rfl)⟩

theorem step_get (h : s.step .get = some t) : s.pc = .get ∧
    (s.worker.queue = [] ∧ t = { s with pc := .loop } ∨
      ∃ q queue, s.worker.queue = q :: queue ∧ t = { s with
        worker := { s.worker with queue }, pc := if q.nonempty then .send q else .loop }) :=
  Feed.of_get h

theorem step_send {err : Option Str} (h : s.step (.send err now) = some t) :
    ∃ q, s.pc = .send q ∧ t = s.trySend q now err := by
  rw [step] at h
  split at h
  · rename_i q hpc
    exact ⟨q, hpc, (Option.some.inj h).symm⟩
  · cases h

theorem step_requeue (h : s.step .requeue = some t) : ∃ q, s.pc = .requeue q ∧
    t = { s with worker := s.worker.putOrDrop q, pc := .loop } := by
  rw [step] at h
  split at h
  · rename_i q hpc
    exact ⟨q, hpc, (Option.some.inj h).symm⟩
  · cases h

end TcpForwarder

end AisServer.Forward
