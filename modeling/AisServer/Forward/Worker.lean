import AisServer.Lib.Calendar
import AisServer.Store.Database
import AisServer.Stream.Events

/-!
# The worker of an endpoint

The fields of `_EndpointWorker` and the operations that its threads share: the bounded queue, `stop`, and
`put`, which the output loop runs as up to three atomic operations of the queue.
-/

namespace AisServer.Forward

open AisServer.Lib AisServer.Store AisServer.Stream

structure EndpointStats where
  sent : ℕ := 0
  dropped : ℕ := 0
  errors : ℕ := 0
  lastError : Str := []
  connected : Bool := false
  lastSend : Time := 0
  queueDepth : ℕ := 0
  deriving DecidableEq

/-- A queued sentence, with the number of its `put`. -/
structure Queued where
  call : ℕ
  sentence : Str
  deriving DecidableEq

/-- The empty sentence that `stop` queues to wake the loop. -/
def Queued.wake : Queued := ⟨0, []⟩

/-- `bool(sentence)` -/
def Queued.nonempty (q : Queued) : Bool := q.sentence ≠ []

/-- `(sentence + "\r\n").encode("ascii", errors="ignore")` -/
def wire (sentence : Str) : List UInt8 := encodeAscii (sentence ++ ['\r', '\n'])

structure Worker where
  ep : Endpoint
  /-- `queue.maxsize`; zero is a queue without a bound. -/
  maxsize : ℕ
  queue : List Queued := []
  stats : EndpointStats := {}
  /-- The event `_stop`. -/
  stopped : Bool := false
  /-- Whether there is a socket. -/
  sock : Bool := false
  deriving DecidableEq

namespace Worker

/-- `queue.full()` -/
def full (w : Worker) : Bool := 0 < w.maxsize ∧ w.maxsize ≤ w.queue.length

/-- `put_nowait`; `none` is `queue.Full`. -/
def putNowait (w : Worker) (q : Queued) : Option Worker :=
  if w.full then none else some { w with queue := w.queue ++ [q] }

/-- A sentence that finds no room is counted. -/
def putOrDrop (w : Worker) (q : Queued) : Worker :=
  (w.putNowait q).getD { w with stats := { w.stats with dropped := w.stats.dropped + 1 } }

/-- `stop`: the flag, and a sentence that wakes the loop if there is room for it. -/
def stop (w : Worker) : Worker :=
  let w := { w with stopped := true }
  (w.putNowait .wake).getD w

/-- `_close_sock` -/
def closeSock (w : Worker) : Worker :=
  if w.sock then { w with sock := false, stats := { w.stats with connected := false } } else w

/-- What a failed connection or send does to the statistics. -/
def countError (w : Worker) (err : Str) : Worker :=
  { w with stats := { w.stats with
      connected := false, errors := w.stats.errors + 1, lastError := err } }

/-- What a failed datagram or batch does to the statistics. -/
def noteError (w : Worker) (err : Str) : Worker :=
  { w with stats := { w.stats with errors := w.stats.errors + 1, lastError := err } }

/-- What a sentence that was sent does to the statistics. -/
def countSent (w : Worker) (now : Time) : Worker :=
  { w with stats := { w.stats with
      sent := w.stats.sent + 1, lastSend := now, queueDepth := w.queue.length } }

variable {w : Worker} {q : Queued}

theorem putNowait_of_full (h : w.full = true) : w.putNowait q = none := by
  rw [putNowait, if_pos h]

theorem putNowait_of_not_full (h : w.full = false) :
    w.putNowait q = some { w with queue := w.queue ++ [q] } := by
  simp [putNowait, h]

theorem putOrDrop_of_full (h : w.full = true) : (w.putOrDrop q).queue = w.queue := by
  rw [putOrDrop, putNowait_of_full h]
  rfl

theorem putOrDrop_of_not_full (h : w.full = false) : (w.putOrDrop q).queue = w.queue ++ [q] := by
  rw [putOrDrop, putNowait_of_not_full h]
  rfl

@[simp] theorem putOrDrop_stopped : (w.putOrDrop q).stopped = w.stopped := by
  unfold putOrDrop putNowait
  split <;> rfl

@[simp] theorem putOrDrop_sock : (w.putOrDrop q).sock = w.sock := by
  unfold putOrDrop putNowait
  split <;> rfl

theorem mem_putOrDrop {q' : Queued} (h : q' ∈ (w.putOrDrop q).queue) : q' ∈ w.queue ∨ q' = q := by
  rcases hfull : w.full with _ | _
  · rw [putOrDrop_of_not_full hfull] at h
    simpa using h
  · rw [putOrDrop_of_full hfull] at h
    exact Or.inl h

@[simp] theorem closeSock_queue : w.closeSock.queue = w.queue := by
  unfold closeSock
  split <;> rfl

@[simp] theorem closeSock_sock : w.closeSock.sock = false := by
  unfold closeSock
  split
  · rfl
  · rename_i h
    simpa using h

@[simp] theorem closeSock_stopped : w.closeSock.stopped = w.stopped := by
  unfold closeSock
  split <;> rfl

end Worker

end AisServer.Forward
