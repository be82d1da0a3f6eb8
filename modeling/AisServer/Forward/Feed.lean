import AisServer.Forward.Worker

/-!
# The feed of a worker

What the three loops share: the worker, where the producer stands in `put`, and the number of calls.  `Feed.step`
runs the calls of `put` and `stop`; each forwarder interleaves it with its own loop.

* `step_count` — a step of the feed keeps the calls and what is held of them together, but for the sentence that
  `put` takes out of a full queue.
-/

namespace AisServer.Forward

open AisServer.Lib AisServer.Store

/-- Where the producer stands in `put`. -/
inductive PutPc
  | idle
  /-- The queue was full: before `get_nowait`. -/
  | evict (q : Queued)
  | retry (q : Queued)
  deriving DecidableEq

structure Feed where
  worker : Worker
  producer : PutPc := .idle
  calls : ℕ := 0

inductive FeedEvent
  | put (sentence : Str)
  | evict
  | retry
  | stop
  | wake

/-- The number of sentences that a `put` holds between two operations of the queue. -/
def PutPc.held : PutPc → ℕ
  | .idle => 0
  | .evict _ | .retry _ => 1

namespace Feed

def step (s : Feed) : FeedEvent → Option Feed
  | .put sentence =>
    if s.producer = .idle then
      let q : Queued := ⟨s.calls, sentence⟩
      let t := { s with calls := s.calls + 1 }
      match s.worker.putNowait q with
      | some worker => some { t with worker }
      | none => some { t with producer := .evict q }
    else none
  | .evict =>
    match s.producer with
    | .evict q =>
      some { s with worker := { s.worker with queue := s.worker.queue.tail }, producer := .retry q }
    | _ => none
  | .retry =>
    match s.producer with
    | .retry q => some { s with worker := s.worker.putOrDrop q, producer := .idle }
    | _ => none
  | .stop => some { s with worker := { s.worker with stopped := true } }
  | .wake =>
    if s.worker.stopped then some { s with worker := (s.worker.putNowait .wake).getD s.worker }
    else none

/-- The sentences that are dropped, queued or in the hands of `put`. -/
def held (s : Feed) : ℕ := s.worker.stats.dropped + s.worker.queue.length + s.producer.held

/-- The sentences that a step takes out of the queue without counting them. -/
def lost (s : Feed) : FeedEvent → ℕ
  | .evict => if s.worker.queue = [] then 0 else 1
  | _ => 0

variable {s t : Feed} {e : FeedEvent}

/-! ### What a step does -/

theorem step_put {sentence : Str} (h : s.step (.put sentence) = some t) :
    s.producer = .idle ∧
    ((s.worker.full = false ∧ t = { s with
        worker := { s.worker with queue := s.worker.queue ++ [⟨s.calls, sentence⟩] }, calls := s.calls + 1 }) ∨
      (s.worker.full = true ∧ t = { s with producer := .evict ⟨s.calls, sentence⟩, calls := s.calls + 1 })) := by
  rw [step] at h
  by_cases hidle : s.producer = .idle
  · rw [if_pos hidle] at h
    refine ⟨hidle, ?_⟩
    rcases hfull : s.worker.full with _ | _
    · simp only [Worker.putNowait_of_not_full hfull, Option.some.injEq] at h
      exact Or.inl ⟨rfl, h.symm⟩
    · simp only [Worker.putNowait_of_full hfull, Option.some.injEq] at h
      exact Or.inr ⟨rfl, h.symm⟩
  · rw [if_neg hidle] at h
    cases h

theorem step_evict (h : s.step .evict = some t) : ∃ q, s.producer = .evict q ∧ t = { s with
    worker := { s.worker with queue := s.worker.queue.tail }, producer := .retry q } := by
  rw [step] at h
  split at h
  · rename_i q hq
    exact ⟨q, hq, (Option.some.inj h).symm⟩
  · cases h

theorem step_retry (h : s.step .retry = some t) : ∃ q, s.producer = .retry q ∧
    t = { s with worker := s.worker.putOrDrop q, producer := .idle } := by
  rw [step] at h
  split at h
  · rename_i q hq
    exact ⟨q, hq, (Option.some.inj h).symm⟩
  · cases h

theorem step_wake (h : s.step .wake = some t) : s.worker.stopped = true ∧
    t = { s with worker := (s.worker.putNowait .wake).getD s.worker } := by
  obtain ⟨hstop, h⟩ := Option.ite_none_right_eq_some.1 h
  exact ⟨hstop, (Option.some.inj h).symm⟩

theorem step_stopped (h : s.step e = some t) (hs : s.worker.stopped = true) : t.worker.stopped = true := by
  cases e with
  | put sentence =>
    obtain ⟨-, ⟨-, rfl⟩ | ⟨-, rfl⟩⟩ := step_put h
    · exact hs
    · exact hs
  | evict =>
    obtain ⟨q, -, rfl⟩ := step_evict h
    exact hs
  | retry =>
    obtain ⟨q, -, rfl⟩ := step_retry h
    simp [hs]
  | stop => simp [← Option.some.inj h]
  | wake =>
    obtain ⟨-, rfl⟩ := step_wake h
    rcases hfull : s.worker.full with _ | _
    · simp [Worker.putNowait_of_not_full hfull, hs]
    · simp [Worker.putNowait_of_full hfull, hs]

/-- The feed leaves the endpoint, the socket and what the loop counts alone. -/
theorem step_frame (h : s.step e = some t) :
    t.worker.ep = s.worker.ep ∧ t.worker.sock = s.worker.sock ∧ t.worker.stats.sent = s.worker.stats.sent ∧
      t.worker.stats.errors = s.worker.stats.errors := by
  cases e with
  | put sentence => obtain ⟨-, ⟨-, rfl⟩ | ⟨-, rfl⟩⟩ := step_put h <;> exact ⟨rfl, rfl, rfl, rfl⟩
  | evict =>
    obtain ⟨q, -, rfl⟩ := step_evict h
    exact ⟨rfl, rfl, rfl, rfl⟩
  | retry =>
    obtain ⟨q, -, rfl⟩ := step_retry h
    unfold Worker.putOrDrop Worker.putNowait
    split <;> exact ⟨rfl, rfl, rfl, rfl⟩
  | stop =>
    obtain rfl := Option.some.inj h
    exact ⟨rfl, rfl, rfl, rfl⟩
  | wake =>
    obtain ⟨-, rfl⟩ := step_wake h
    unfold Worker.putNowait
    split <;> exact ⟨rfl, rfl, rfl, rfl⟩

theorem lost_of_stops (h : s.step e = some t) (hs : s.worker.stopped = false) (ht : t.worker.stopped = true) :
    s.lost e = 0 := by
  cases e with
  | evict =>
    obtain ⟨q, -, rfl⟩ := step_evict h
    cases hs.symm.trans ht
  | put sentence => rfl
  | retry => rfl
  | stop => rfl
  | wake => rfl

theorem putOrDrop_held (w : Worker) (q : Queued) :
    (w.putOrDrop q).stats.dropped + (w.putOrDrop q).queue.length = w.stats.dropped + w.queue.length + 1 := by
  rcases hfull : w.full with _ | _
  · simp only [Worker.putOrDrop, Worker.putNowait_of_not_full hfull, Option.getD_some, List.length_append,
      List.length_singleton]
    omega
  · simp only [Worker.putOrDrop, Worker.putNowait_of_full hfull, Option.getD_none]
    omega

theorem putOrDrop_sent (w : Worker) (q : Queued) : (w.putOrDrop q).stats.sent = w.stats.sent := by
  unfold Worker.putOrDrop Worker.putNowait
  split <;> rfl

/-- **What a step of the feed does to the counts.** -/
theorem step_count (h : s.step e = some t) (ht : t.worker.stopped = false) :
    t.calls + s.held = s.calls + t.held + s.lost e ∧ t.worker.stats.sent = s.worker.stats.sent := by
  cases e with
  | put sentence =>
    obtain ⟨hidle, ⟨-, rfl⟩ | ⟨-, rfl⟩⟩ := step_put h
    · simp only [held, lost, hidle, PutPc.held, List.length_append, List.length_singleton, and_true]
      omega
    · simp only [held, lost, hidle, PutPc.held, and_true]
      omega
  | evict =>
    obtain ⟨q, hq, rfl⟩ := step_evict h
    rcases hqueue : s.worker.queue with _ | ⟨p, queue⟩
    · simp [held, lost, hq, PutPc.held, hqueue]
    · simp only [held, lost, hq, PutPc.held, hqueue, List.tail_cons, List.length_cons,
        reduceCtorEq, if_false, and_true]
      omega
  | retry =>
    obtain ⟨q, hq, rfl⟩ := step_retry h
    have hheld := putOrDrop_held s.worker q
    refine ⟨?_, (step_frame h).2.2.1⟩
    simp only [held, lost, hq, PutPc.held]
    omega
  | stop =>
    obtain rfl := Option.some.inj h
    cases ht
  | wake =>
    rw [step_stopped h (step_wake h).1] at ht
    cases ht

/-! ### What the loops share -/

section Loops

variable {σ : Type*} {p : Prop} [Decidable p] {x y : σ}

/-- The test `while not self._stop.is_set()`. -/
theorem of_check {stopped : Bool} {left : σ}
    (h : (if p then if stopped then some left else some x else none) = some y) :
    p ∧ (stopped = true ∧ y = left ∨ stopped = false ∧ y = x) := by
  obtain ⟨hp, h⟩ := Option.ite_none_right_eq_some.1 h
  refine ⟨hp, ?_⟩
  cases stopped with
  | false => exact Or.inr ⟨rfl, (Option.some.inj h).symm⟩
  | true => exact Or.inl ⟨rfl, (Option.some.inj h).symm⟩

/-- The sentence that `queue.get` gives, if there is one. -/
theorem of_get {queue : List Queued} {taken : Queued → List Queued → σ}
    (h : (if p then match queue with | [] => some x | q :: queue => some (taken q queue) else none) = some y) :
    p ∧ (queue = [] ∧ y = x ∨ ∃ q rest, queue = q :: rest ∧ y = taken q rest) := by
  obtain ⟨hp, h⟩ := Option.ite_none_right_eq_some.1 h
  refine ⟨hp, ?_⟩
  cases queue with
  | nil => exact Or.inl ⟨rfl, (Option.some.inj h).symm⟩
  | cons q rest => exact Or.inr ⟨q, rest, rfl, (Option.some.inj h).symm⟩

end Loops

end Feed

end AisServer.Forward
