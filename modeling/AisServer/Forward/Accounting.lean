import AisServer.Forward.Order
import AisServer.Forward.Udp
import AisServer.Forward.Http

/-!
# Forwarder accounting

Where a sentence is after its `put`: sent, dropped, in the queue, in the hands of the loop, or still held by `put`.
Before a worker is stopped the calls are the sum of these, but for what the steps of a loop lose: `lost` is the
number of sentences that a step lets go without sending them or counting them as dropped.

* `LoopStep` — what a step of a loop may do: one of its feed's, or move sentences between the counts;
* `accounted_iff` — with such steps the accounts agree throughout exactly when no step loses anything;
* `forwarder_accounting` — so for each of the three loops.
-/

namespace AisServer.Forward

open AisServer.Lib AisServer.Store

namespace Worker

variable {w : Worker}

/-- The empty text at the head of a queue, which `get` takes and no loop sends. -/
def lostByGet (w : Worker) : ℕ := if w.queue.head?.any (!·.nonempty) then 1 else 0

@[simp] theorem closeSock_sent : w.closeSock.stats.sent = w.stats.sent := by
  unfold closeSock
  split <;> rfl

@[simp] theorem closeSock_dropped : w.closeSock.stats.dropped = w.stats.dropped := by
  unfold closeSock
  split <;> rfl

end Worker

/-! ### A loop with a feed -/

namespace Feed

/-- The sentences sent, dropped, queued, in the hands of a loop and held by `put`. -/
def accounted (s : Feed) (hands : ℕ) : ℕ :=
  s.worker.stats.sent + s.worker.stats.dropped + s.worker.queue.length + hands + s.producer.held

/-- Before a worker is stopped every call is accounted for. -/
def Accounted (s : Feed) (hands : ℕ) : Prop := s.worker.stopped = false → s.calls = s.accounted hands

end Feed

/-- A step of the feed that leaves the hands alone, or one of the loop itself. -/
def LoopStep (f g : Feed) (hands hands' lost : ℕ) : Prop :=
  (∃ e, f.step e = some g ∧ hands' = hands ∧ lost = f.lost e) ∨
    (g.worker.stopped = f.worker.stopped ∧
      g.calls + f.accounted hands = f.calls + g.accounted hands' + lost)

/-- **A loop is accounted for** exactly when no step before it is stopped loses anything. -/
theorem accounted_iff {σ ε : Type} {step : σ → ε → Option σ} (feed : σ → Feed) (hands : σ → ℕ)
    (lost : σ → ε → ℕ)
    (hstep : ∀ s e t, step s e = some t → LoopStep (feed s) (feed t) (hands s) (hands t) (lost s e))
    {s u : σ} {es : List ε} (h0 : (feed s).calls = (feed s).accounted (hands s))
    (hr : run step s es = some u) :
    Guarded step (fun s e => (feed s).worker.stopped = true ∨ lost s e = 0) s es ↔
      ∀ fs, fs <+: es → ∀ t, run step s fs = some t → (feed t).Accounted (hands t) := by
  have hbalanced := balanced_iff (fun s => (feed s).calls) (fun s => (feed s).accounted (hands s)) lost
    (fun s => (feed s).worker.stopped = true) ?_ ?_ ?_ h0 hr
  · simpa [Feed.Accounted] using hbalanced
  · intro s e t hs h
    rcases hstep s e t h with ⟨f, hf, -, -⟩ | ⟨hstop, -⟩
    · exact Feed.step_stopped hf hs
    · exact hstop.trans hs
  · intro s e t hs h ht
    rcases hstep s e t h with ⟨f, hf, -, hlost⟩ | ⟨hstop, -⟩
    · rw [hlost]
      exact Feed.lost_of_stops hf (by simpa using hs) ht
    · exact absurd (hstop.symm.trans ht) hs
  · intro s e t h ht
    rcases hstep s e t h with ⟨f, hf, hhands, hlost⟩ | ⟨-, hcount⟩
    · obtain ⟨hcount, hsent⟩ := Feed.step_count hf (by simpa using ht)
      simp only [Feed.accounted, Feed.held] at hcount ⊢
      omega
    · exact hcount

/-! ### The three loops -/

namespace TcpForwarder

variable {s t : TcpForwarder} {e : TcpEvent}

/-- A full queue gives up its oldest sentence, and an empty text is not sent. -/
def lost (s : TcpForwarder) : TcpEvent → ℕ
  | .evict => s.toFeed.lost .evict
  | .get => s.worker.lostByGet
  | _ => 0

theorem loopStep (h : s.step e = some t) :
    LoopStep s.toFeed t.toFeed (hand s.pc).length (hand t.pc).length (s.lost e) := by
  cases e with
  | put _ | evict | retry | stop | wake =>
    obtain ⟨hfeed, hpc, -⟩ := step_feed rfl h
    exact Or.inl ⟨_, hfeed, by rw [hpc], rfl⟩
  | check =>
    obtain ⟨hpc, ⟨-, rfl⟩ | ⟨-, rfl⟩⟩ := step_check h
    · exact Or.inr (by simp [leave, Feed.accounted, hand, lost, hpc])
    · rcases hsock : s.worker.sock with _ | _ <;>
        exact Or.inr (by simp [Feed.accounted, hand, lost, hpc])
  | connect result =>
    obtain ⟨hpc, rfl⟩ := step_connect h
    right
    cases result <;>
      simp [tryConnect, connectFailed, leave, Worker.countError, Feed.accounted, hand, lost, hpc]
  | get =>
    right
    obtain ⟨hpc, ⟨hnil, rfl⟩ | ⟨q, queue, hq, rfl⟩⟩ := step_get h
    · simp [Feed.accounted, hand, lost, Worker.lostByGet, hpc, hnil]
    · rcases hne : q.nonempty with _ | _ <;>
        simp [Feed.accounted, hand, lost, Worker.lostByGet, hpc, hq, hne] <;> omega
  | send err now =>
    right
    obtain ⟨q, hpc, rfl⟩ := step_send h
    rcases err with _ | err
    · simp only [trySend, Worker.countSent, Feed.accounted, hand, lost, hpc, List.length_nil,
        List.length_singleton, true_and]
      omega
    · simp [trySend, Worker.countError, Feed.accounted, hand, lost, hpc]
  | requeue =>
    obtain ⟨q, hpc, rfl⟩ := step_requeue h
    have hheld := Feed.putOrDrop_held s.worker q
    refine Or.inr ⟨Worker.putOrDrop_stopped, ?_⟩
    simp only [Feed.accounted, hand, lost, hpc, Feed.putOrDrop_sent, List.length_nil,
      List.length_singleton]
    omega

end TcpForwarder

namespace UdpForwarder

variable {s t : UdpForwarder} {e : UdpEvent}

def hands : UdpPc → ℕ
  | .send _ => 1
  | _ => 0

/-- A sentence whose `sendto` does not return is lost as well. -/
def lost (s : UdpForwarder) : UdpEvent → ℕ
  | .feed e => s.toFeed.lost e
  | .get => s.worker.lostByGet
  | .send (.failed _) _ | .send .raises _ => 1
  | _ => 0

theorem loopStep (h : s.step e = some t) :
    LoopStep s.toFeed t.toFeed (hands s.pc) (hands t.pc) (s.lost e) := by
  cases e with
  | feed e =>
    obtain ⟨f, hf, rfl⟩ := Option.map_eq_some_iff.1 h
    exact Or.inl ⟨e, hf, rfl, rfl⟩
  | start created =>
    right
    obtain ⟨hpc, ⟨-, rfl⟩ | ⟨-, rfl⟩⟩ := step_start h
    · simp [Feed.accounted, hands, lost, hpc]
    · simp [leave, Feed.accounted, hands, lost, hpc]
  | check =>
    right
    obtain ⟨hpc, ⟨-, rfl⟩ | ⟨-, rfl⟩⟩ := step_check h
    · simp [leave, Feed.accounted, hands, lost, hpc]
    · simp [Feed.accounted, hands, lost, hpc]
  | get =>
    right
    obtain ⟨hpc, ⟨hnil, rfl⟩ | ⟨q, queue, hq, rfl⟩⟩ := step_get h
    · simp [Feed.accounted, hands, lost, Worker.lostByGet, hpc, hnil]
    · rcases hne : q.nonempty with _ | _ <;>
        simp [Feed.accounted, hands, lost, Worker.lostByGet, hpc, hq, hne] <;> omega
  | send result now =>
    right
    obtain ⟨q, hpc, rfl⟩ := step_send h
    cases result with
    | ok =>
      simp only [trySend, Worker.countSent, Feed.accounted, hands, lost, hpc, true_and]
      omega
    | failed err =>
      simp only [trySend, Worker.noteError, Feed.accounted, hands, lost, hpc, true_and]
      omega
    | raises =>
      simp only [trySend, leave, Feed.accounted, hands, lost, hpc, Worker.closeSock_stopped,
        Worker.closeSock_sent, Worker.closeSock_dropped, Worker.closeSock_queue, true_and]
      omega

end UdpForwarder

namespace HttpForwarder

variable {s t : HttpForwarder} {e : HttpEvent}

/-- A batch whose `post` raises is lost as a whole. -/
def lost (s : HttpForwarder) : HttpEvent → ℕ
  | .feed e => s.toFeed.lost e
  | .get => s.worker.lostByGet
  | .post (some _) => s.batch.length
  | _ => 0

theorem loopStep (h : s.step e = some t) :
    LoopStep s.toFeed t.toFeed s.batch.length t.batch.length (s.lost e) := by
  cases e with
  | feed e =>
    obtain ⟨f, hf, rfl⟩ := Option.map_eq_some_iff.1 h
    exact Or.inl ⟨e, hf, rfl, rfl⟩
  | start now =>
    right
    obtain ⟨-, rfl⟩ := step_start h
    simp [Feed.accounted, lost]
  | check =>
    right
    obtain ⟨-, ⟨-, rfl⟩ | ⟨-, rfl⟩⟩ := step_check h <;> simp [Feed.accounted, lost]
  | get =>
    right
    obtain ⟨-, ⟨hnil, rfl⟩ | ⟨q, queue, hq, rfl⟩⟩ := step_get h
    · simp [Feed.accounted, lost, Worker.lostByGet, hnil]
    · rcases hne : q.nonempty with _ | _ <;>
        simp [Feed.accounted, lost, Worker.lostByGet, hq, hne] <;> omega
  | flush now =>
    right
    obtain ⟨-, rfl⟩ := step_flush h
    simp [Feed.accounted, lost]
  | post err =>
    right
    obtain ⟨now, -, rfl⟩ := step_post h
    rcases err with _ | err
    · simp only [tryPost, Feed.accounted, lost, List.length_nil, true_and]
      omega
    · simp only [tryPost, Worker.noteError, Feed.accounted, lost, List.length_nil, true_and]
      omega

end HttpForwarder

/-- **Forwarder accounting.**  In every run of each loop the calls of `put` are the sentences sent, dropped,
queued, in the hands of the loop and held by `put` in every state before the worker is stopped, exactly when no
step before that loses a sentence: no `put` finds an old one to take out of a full queue, no empty text is taken
out of it, every `sendto` returns, and so does every `post`. -/
theorem forwarder_accounting (ep : Endpoint) (queueSize : ℕ) :
    (∀ es s, run TcpForwarder.step (.new ep queueSize) es = some s →
      (Guarded TcpForwarder.step (fun s e => s.worker.stopped = true ∨ s.lost e = 0) (.new ep queueSize) es ↔
        ∀ fs, fs <+: es → ∀ t, run TcpForwarder.step (.new ep queueSize) fs = some t →
          t.toFeed.Accounted (TcpForwarder.hand t.pc).length)) ∧
    (∀ es s, run UdpForwarder.step (.new ep queueSize) es = some s →
      (Guarded UdpForwarder.step (fun s e => s.worker.stopped = true ∨ s.lost e = 0) (.new ep queueSize) es ↔
        ∀ fs, fs <+: es → ∀ t, run UdpForwarder.step (.new ep queueSize) fs = some t →
          t.toFeed.Accounted (UdpForwarder.hands t.pc))) ∧
    ∀ es s, run HttpForwarder.step (.new ep queueSize) es = some s →
      (Guarded HttpForwarder.step (fun s e => s.worker.stopped = true ∨ s.lost e = 0) (.new ep queueSize) es ↔
        ∀ fs, fs <+: es → ∀ t, run HttpForwarder.step (.new ep queueSize) fs = some t →
          t.toFeed.Accounted t.batch.length) := by
  refine ⟨fun es s h => ?_, fun es s h => ?_, fun es s h => ?_⟩
  · exact accounted_iff TcpForwarder.toFeed (fun s => (TcpForwarder.hand s.pc).length) TcpForwarder.lost
      (fun _ _ _ h => TcpForwarder.loopStep h) rfl h
  · exact accounted_iff UdpForwarder.toFeed (fun s => UdpForwarder.hands s.pc) UdpForwarder.lost
      (fun _ _ _ h => UdpForwarder.loopStep h) rfl h
  · exact accounted_iff HttpForwarder.toFeed (fun s => s.batch.length) HttpForwarder.lost
      (fun _ _ _ h => HttpForwarder.loopStep h) rfl h

/-- Two sentences for a queue with room for one. -/
def overfill : List TcpEvent := [.put ['a'], .put ['b'], .evict, .retry]

/-- A datagram that is refused. -/
def refused : List UdpEvent := [.start true, .feed (.put ['a']), .check, .get, .send (.failed ['e']) 1]

/-- Neither the sentence that made room nor the one that was refused is counted. -/
theorem forwarder_accounting_fails :
    (∃ s, run TcpForwarder.step (.new tcpEndpoint 1) overfill = some s ∧ s.calls = 2 ∧
      s.worker.queue.length = 1 ∧ s.worker.stats.sent = 0 ∧ s.worker.stats.dropped = 0 ∧
      ¬ s.toFeed.Accounted (TcpForwarder.hand s.pc).length) ∧
    ∃ s, run UdpForwarder.step (.new tcpEndpoint 1) refused = some s ∧
      s.worker.stats.errors = 1 ∧ ¬ s.toFeed.Accounted (UdpForwarder.hands s.pc) := by
  constructor
  · refine ⟨_, rfl, rfl, rfl, rfl, rfl, fun hacc => ?_⟩
    exact absurd (hacc rfl) (by decide)
  · refine ⟨_, rfl, rfl, fun hacc => ?_⟩
    exact absurd (hacc rfl) (by decide)

end AisServer.Forward
