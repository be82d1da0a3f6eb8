import AisServer.Forward.Accounting

/-!
# The loop of a worker

`run` takes one of the three loops for the protocol of its endpoint.  The flag `_stop` is read only at the head of
a loop, so a worker that is told to stop may still send what the iteration it is in gets to.

* `Loop.step_resting` — a worker that is told to stop and is not inside an iteration sends nothing more.
-/

namespace AisServer.Forward

open AisServer.Lib AisServer.Store

inductive Transport
  | tcp
  | udp
  | http
  deriving DecidableEq

/-- `handlers.get(self.ep.protocol, self._run_tcp)` -/
def transportOf : Value → Transport
  | .text p => if p = "udp".toList then .udp else if p = "http".toList then .http else .tcp
  | _ => .tcp

/-- A worker in its loop. -/
inductive Loop
  | tcp (s : TcpForwarder)
  | udp (s : UdpForwarder)
  | http (s : HttpForwarder)

inductive LoopEvent
  | tcp (e : TcpEvent)
  | udp (e : UdpEvent)
  | http (e : HttpEvent)

/-- A step of the loop or of a `put`, not one of `stop`. -/
def LoopEvent.own : LoopEvent → Bool
  | .tcp .stop | .tcp .wake | .udp (.feed .stop) | .udp (.feed .wake) | .http (.feed .stop)
  | .http (.feed .wake) => false
  | _ => true

namespace Loop

/-- A worker that was just started. -/
def new (queueSize : ℕ) (ep : Endpoint) : Loop :=
  match transportOf ep.protocol with
  | .tcp => .tcp (TcpForwarder.new ep queueSize)
  | .udp => .udp (UdpForwarder.new ep queueSize)
  | .http => .http (HttpForwarder.new ep queueSize)

def worker : Loop → Worker
  | .tcp s => s.worker
  | .udp s => s.worker
  | .http s => s.worker

def step : Loop → LoopEvent → Option Loop
  | .tcp s, .tcp e => (s.step e).map .tcp
  | .udp s, .udp e => (s.step e).map .udp
  | .http s, .http e => (s.step e).map .http
  | _, _ => none

/-- The first half of `stop`: the flag. -/
def setStop : Loop → Option Loop
  | .tcp s => (s.step .stop).map .tcp
  | .udp s => (s.step (.feed .stop)).map .udp
  | .http s => (s.step (.feed .stop)).map .http

/-- The second half of `stop`: the sentence that wakes the loop. -/
def wake : Loop → Option Loop
  | .tcp s => (s.step .wake).map .tcp
  | .udp s => (s.step (.feed .wake)).map .udp
  | .http s => (s.step (.feed .wake)).map .http

/-- The number of sentences sent, `stats.sent`. -/
def sent (l : Loop) : ℕ := l.worker.stats.sent

/-- Between the check of the flag and the end of the iteration: the loop connects, waits for a sentence or sends. -/
def busy : Loop → Bool
  | .tcp s => match s.pc with
    | .connect | .get | .send _ => true
    | .loop | .requeue _ | .finished => false
  | .udp s => match s.pc with
    | .get | .send _ => true
    | .start | .loop | .finished => false
  | .http s => match s.pc with
    | .get | .flush | .post _ => true
    | .start | .loop | .finished => false

/-- Told to stop, and not inside an iteration. -/
structure Resting (l : Loop) : Prop where
  stopped : l.worker.stopped = true
  idle : l.busy = false

end Loop

/-! ### The endpoint of a worker -/

namespace Worker

variable {w : Worker} {q : Queued}

@[simp] theorem putOrDrop_ep : (w.putOrDrop q).ep = w.ep := by
  unfold putOrDrop putNowait
  split <;> rfl

@[simp] theorem closeSock_ep : w.closeSock.ep = w.ep := by
  unfold closeSock
  split <;> rfl

end Worker

theorem TcpForwarder.step_frame {s t : TcpForwarder} {e : TcpEvent} (h : s.step e = some t) :
    t.worker.ep = s.worker.ep ∧ (s.worker.stopped = true → t.worker.stopped = true) := by
  cases e with
  | put _ | evict | retry | stop | wake =>
    obtain ⟨hfeed, -⟩ := step_feed rfl h
    exact ⟨(Feed.step_frame hfeed).1, Feed.step_stopped hfeed⟩
  | check =>
    obtain ⟨-, ⟨-, rfl⟩ | ⟨-, rfl⟩⟩ := step_check h
    · exact ⟨Worker.closeSock_ep, Worker.closeSock_stopped.trans⟩
    · exact ⟨rfl, fun hs => hs⟩
  | connect result =>
    obtain ⟨-, rfl⟩ := step_connect h
    cases result with
    | raises => exact ⟨Worker.closeSock_ep, Worker.closeSock_stopped.trans⟩
    | _ => exact ⟨rfl, fun hs => hs⟩
  | get =>
    obtain ⟨-, ⟨-, rfl⟩ | ⟨q, queue, -, rfl⟩⟩ := step_get h
    · exact ⟨rfl, fun hs => hs⟩
    · exact ⟨rfl, fun hs => hs⟩
  | send err now =>
    obtain ⟨q, -, rfl⟩ := step_send h
    cases err with
    | none => exact ⟨rfl, fun hs => hs⟩
    | some err => exact ⟨Worker.closeSock_ep, fun hs => Worker.closeSock_stopped.trans hs⟩
  | requeue =>
    obtain ⟨q, -, rfl⟩ := step_requeue h
    exact ⟨Worker.putOrDrop_ep, Worker.putOrDrop_stopped.trans⟩

theorem UdpForwarder.step_frame {s t : UdpForwarder} {e : UdpEvent} (h : s.step e = some t) :
    t.worker.ep = s.worker.ep ∧ (s.worker.stopped = true → t.worker.stopped = true) := by
  cases e with
  | feed e =>
    obtain ⟨f, hf, rfl⟩ := Option.map_eq_some_iff.1 h
    exact ⟨(Feed.step_frame hf).1, Feed.step_stopped hf⟩
  | start created =>
    obtain ⟨-, ⟨-, rfl⟩ | ⟨-, rfl⟩⟩ := step_start h
    · exact ⟨rfl, fun hs => hs⟩
    · simp [leave]
  | check =>
    obtain ⟨-, ⟨-, rfl⟩ | ⟨-, rfl⟩⟩ := step_check h
    · simp [leave]
    · exact ⟨rfl, fun hs => hs⟩
  | get =>
    obtain ⟨-, ⟨-, rfl⟩ | ⟨q, queue, -, rfl⟩⟩ := step_get h
    · exact ⟨rfl, fun hs => hs⟩
    · exact ⟨rfl, fun hs => hs⟩
  | send result now =>
    obtain ⟨q, -, rfl⟩ := step_send h
    cases result with
    | ok => exact ⟨rfl, fun hs => hs⟩
    | failed err => exact ⟨rfl, fun hs => hs⟩
    | raises => exact ⟨Worker.closeSock_ep, Worker.closeSock_stopped.trans⟩

theorem HttpForwarder.step_frame {s t : HttpForwarder} {e : HttpEvent} (h : s.step e = some t) :
    t.worker.ep = s.worker.ep ∧ (s.worker.stopped = true → t.worker.stopped = true) := by
  cases e with
  | feed e =>
    obtain ⟨f, hf, rfl⟩ := Option.map_eq_some_iff.1 h
    exact ⟨(Feed.step_frame hf).1, Feed.step_stopped hf⟩
  | start now =>
    obtain ⟨-, rfl⟩ := step_start h
    exact ⟨rfl, fun hs => hs⟩
  | check =>
    obtain ⟨-, ⟨-, rfl⟩ | ⟨-, rfl⟩⟩ := step_check h
    · simp
    · exact ⟨rfl, fun hs => hs⟩
  | get =>
    obtain ⟨-, ⟨-, rfl⟩ | ⟨q, queue, -, rfl⟩⟩ := step_get h
    · exact ⟨rfl, fun hs => hs⟩
    · exact ⟨rfl, fun hs => hs⟩
  | flush now =>
    obtain ⟨-, rfl⟩ := step_flush h
    exact ⟨rfl, fun hs => hs⟩
  | post err =>
    obtain ⟨now, -, rfl⟩ := step_post h
    cases err <;> exact ⟨rfl, fun hs => hs⟩

/-! ### What a resting worker can do -/

namespace Loop

variable {l m : Loop} {e : LoopEvent}

theorem tcp_step_resting {s t : TcpForwarder} {e : TcpEvent} (hs : (Loop.tcp s).Resting) (h : s.step e = some t) :
    (Loop.tcp t).Resting ∧ t.worker.stats.sent = s.worker.stats.sent := by
  obtain ⟨hstop, hidle⟩ := hs
  have hstop : s.worker.stopped = true := hstop
  cases e with
  | put _ | evict | retry | stop | wake =>
    obtain ⟨hfeed, hpc, -⟩ := TcpForwarder.step_feed rfl h
    exact ⟨⟨Feed.step_stopped hfeed hstop, by simpa [busy, hpc] using hidle⟩, (Feed.step_frame hfeed).2.2.1⟩
  | check =>
    obtain ⟨-, ⟨-, rfl⟩ | ⟨hgo, -⟩⟩ := TcpForwarder.step_check h
    · exact ⟨⟨by simp [worker, TcpForwarder.leave, hstop], rfl⟩, by simp [TcpForwarder.leave]⟩
    · rw [hstop] at hgo
      cases hgo
  | connect result =>
    obtain ⟨hpc, -⟩ := TcpForwarder.step_connect h
    simp [busy, hpc] at hidle
  | get =>
    obtain ⟨hpc, -⟩ := TcpForwarder.step_get h
    simp [busy, hpc] at hidle
  | send err now =>
    obtain ⟨q, hpc, -⟩ := TcpForwarder.step_send h
    simp [busy, hpc] at hidle
  | requeue =>
    obtain ⟨q, -, rfl⟩ := TcpForwarder.step_requeue h
    exact ⟨⟨by simp [worker, hstop], rfl⟩, Feed.putOrDrop_sent _ _⟩

theorem udp_step_resting {s t : UdpForwarder} {e : UdpEvent} (hs : (Loop.udp s).Resting) (h : s.step e = some t) :
    (Loop.udp t).Resting ∧ t.worker.stats.sent = s.worker.stats.sent := by
  obtain ⟨hstop, hidle⟩ := hs
  have hstop : s.worker.stopped = true := hstop
  cases e with
  | feed e =>
    obtain ⟨f, hf, rfl⟩ := Option.map_eq_some_iff.1 h
    exact ⟨⟨Feed.step_stopped hf hstop, hidle⟩, (Feed.step_frame hf).2.2.1⟩
  | start created =>
    obtain ⟨-, ⟨-, rfl⟩ | ⟨-, rfl⟩⟩ := UdpForwarder.step_start h
    · exact ⟨⟨hstop, rfl⟩, rfl⟩
    · exact ⟨⟨by simp [worker, UdpForwarder.leave, hstop], rfl⟩, by simp [UdpForwarder.leave]⟩
  | check =>
    obtain ⟨-, ⟨-, rfl⟩ | ⟨hgo, -⟩⟩ := UdpForwarder.step_check h
    · exact ⟨⟨by simp [worker, UdpForwarder.leave, hstop], rfl⟩, by simp [UdpForwarder.leave]⟩
    · rw [hstop] at hgo
      cases hgo
  | get =>
    obtain ⟨hpc, -⟩ := UdpForwarder.step_get h
    simp [busy, hpc] at hidle
  | send result now =>
    obtain ⟨q, hpc, -⟩ := UdpForwarder.step_send h
    simp [busy, hpc] at hidle

theorem http_step_resting {s t : HttpForwarder} {e : HttpEvent} (hs : (Loop.http s).Resting)
    (h : s.step e = some t) : (Loop.http t).Resting ∧ t.worker.stats.sent = s.worker.stats.sent := by
  obtain ⟨hstop, hidle⟩ := hs
  have hstop : s.worker.stopped = true := hstop
  cases e with
  | feed e =>
    obtain ⟨f, hf, rfl⟩ := Option.map_eq_some_iff.1 h
    exact ⟨⟨Feed.step_stopped hf hstop, hidle⟩, (Feed.step_frame hf).2.2.1⟩
  | start now =>
    obtain ⟨-, rfl⟩ := HttpForwarder.step_start h
    exact ⟨⟨hstop, rfl⟩, rfl⟩
  | check =>
    obtain ⟨-, ⟨-, rfl⟩ | ⟨hgo, -⟩⟩ := HttpForwarder.step_check h
    · exact ⟨⟨by simp [worker, hstop], rfl⟩, by simp⟩
    · rw [hstop] at hgo
      cases hgo
  | get =>
    obtain ⟨hpc, -⟩ := HttpForwarder.step_get h
    simp [busy, hpc] at hidle
  | flush now =>
    obtain ⟨hpc, -⟩ := HttpForwarder.step_flush h
    simp [busy, hpc] at hidle
  | post err =>
    obtain ⟨now, hpc, -⟩ := HttpForwarder.step_post h
    simp [busy, hpc] at hidle

/-- **A resting worker sends nothing more.** -/
theorem step_resting (hl : l.Resting) (h : l.step e = some m) : m.Resting ∧ m.sent = l.sent := by
  cases l with
  | tcp s => cases e with
    | tcp e =>
      obtain ⟨t, ht, rfl⟩ := Option.map_eq_some_iff.1 h
      exact tcp_step_resting hl ht
    | udp e => cases h
    | http e => cases h
  | udp s => cases e with
    | tcp e => cases h
    | udp e =>
      obtain ⟨t, ht, rfl⟩ := Option.map_eq_some_iff.1 h
      exact udp_step_resting hl ht
    | http e => cases h
  | http s => cases e with
    | tcp e => cases h
    | udp e => cases h
    | http e =>
      obtain ⟨t, ht, rfl⟩ := Option.map_eq_some_iff.1 h
      exact http_step_resting hl ht

theorem step_frame (h : l.step e = some m) :
    m.worker.ep = l.worker.ep ∧ (l.worker.stopped = true → m.worker.stopped = true) := by
  cases l with
  | tcp s => cases e with
    | tcp e =>
      obtain ⟨t, ht, rfl⟩ := Option.map_eq_some_iff.1 h
      exact TcpForwarder.step_frame ht
    | udp e => cases h
    | http e => cases h
  | udp s => cases e with
    | tcp e => cases h
    | udp e =>
      obtain ⟨t, ht, rfl⟩ := Option.map_eq_some_iff.1 h
      exact UdpForwarder.step_frame ht
    | http e => cases h
  | http s => cases e with
    | tcp e => cases h
    | udp e => cases h
    | http e =>
      obtain ⟨t, ht, rfl⟩ := Option.map_eq_some_iff.1 h
      exact HttpForwarder.step_frame ht

/-- The first half of `stop` only sets the flag. -/
theorem setStop_spec (h : l.setStop = some m) :
    m.worker.ep = l.worker.ep ∧ m.busy = l.busy ∧ m.worker.stopped = true := by
  cases l with
  | tcp s =>
    obtain rfl := Option.some.inj h
    exact ⟨rfl, rfl, rfl⟩
  | udp s =>
    obtain rfl := Option.some.inj h
    exact ⟨rfl, rfl, rfl⟩
  | http s =>
    obtain rfl := Option.some.inj h
    exact ⟨rfl, rfl, rfl⟩

/-- The second half only adds to the queue. -/
theorem wake_spec (h : l.wake = some m) :
    m.worker.ep = l.worker.ep ∧ m.busy = l.busy ∧ (l.worker.stopped = true → m.worker.stopped = true) := by
  cases l with
  | tcp s =>
    obtain ⟨t, ht, rfl⟩ := Option.map_eq_some_iff.1 h
    obtain ⟨hf, hpc, -⟩ := TcpForwarder.step_feed rfl ht
    exact ⟨(Feed.step_frame hf).1, by simp only [busy, hpc], Feed.step_stopped hf⟩
  | udp s =>
    obtain ⟨t, ht, rfl⟩ := Option.map_eq_some_iff.1 h
    obtain ⟨f, hf, rfl⟩ := Option.map_eq_some_iff.1 ht
    exact ⟨(Feed.step_frame hf).1, rfl, Feed.step_stopped hf⟩
  | http s =>
    obtain ⟨t, ht, rfl⟩ := Option.map_eq_some_iff.1 h
    obtain ⟨f, hf, rfl⟩ := Option.map_eq_some_iff.1 ht
    exact ⟨(Feed.step_frame hf).1, rfl, Feed.step_stopped hf⟩

end Loop

end AisServer.Forward
