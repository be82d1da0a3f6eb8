import AisServer.Forward.Loop
import AisServer.Forward.Order

/-!
# What a worker sends of what it is given

A worker is given sentences by `put` and sends some of them.  `waiting` is the part of its line that all three loops
have in common: the queue, and the sentence that a `put` holds.

* `Feed.step_waiting` — a step of the feed takes sentences out of `waiting`, or adds the one it was called with at
  its end;
* `worker_delivers` — over any run, the sentences that a worker has sent are among those it was given, each no more
  often than it was given; a UDP or HTTP worker sends them in the order in which they came.
-/

namespace AisServer.Forward

open AisServer.Lib AisServer.Store AisServer.Stream

/-! ### What is put in -/

/-- The sentence that a call of `put` gives to the worker. -/
def FeedEvent.given : FeedEvent → List Str
  | .put sentence => [sentence]
  | .evict | .retry | .stop | .wake => []

def TcpEvent.given : TcpEvent → List Str
  | .put sentence => [sentence]
  | .evict | .retry | .stop | .wake | .check | .connect _ | .get | .send _ _ | .requeue => []

def UdpEvent.given : UdpEvent → List Str
  | .feed e => e.given
  | .start _ | .check | .get | .send _ _ => []

def HttpEvent.given : HttpEvent → List Str
  | .feed e => e.given
  | .start _ | .check | .get | .flush _ | .post _ => []

def LoopEvent.given : LoopEvent → List Str
  | .tcp e => e.given
  | .udp e => e.given
  | .http e => e.given

namespace Feed

variable {s t : Feed} {e : FeedEvent}

/-- The sentences in the queue and in the hands of `put`. -/
def waiting (s : Feed) : List Str :=
  (s.worker.queue.filter Queued.nonempty ++ TcpForwarder.inPut s.producer).map (·.sentence)

theorem waiting_sublist {u : Feed} (hqueue : u.worker.queue.Sublist s.worker.queue)
    (hput : (TcpForwarder.inPut u.producer).Sublist (TcpForwarder.inPut s.producer)) :
    u.waiting.Sublist s.waiting :=
  ((hqueue.filter _).append hput).map _

theorem step_waiting (h : s.step e = some t) : t.waiting.Sublist (s.waiting ++ e.given) := by
  cases e with
  | put sentence =>
    obtain ⟨hidle, ⟨-, rfl⟩ | ⟨-, rfl⟩⟩ := step_put h
    · by_cases hs : sentence = []
      · simp [waiting, FeedEvent.given, TcpForwarder.inPut, hidle, Queued.nonempty, hs]
      · simp [waiting, FeedEvent.given, TcpForwarder.inPut, hidle, Queued.nonempty, hs]
    · simp [waiting, FeedEvent.given, TcpForwarder.inPut, hidle]
  | evict =>
    obtain ⟨q, hq, rfl⟩ := step_evict h
    rw [FeedEvent.given, List.append_nil]
    exact waiting_sublist (List.tail_sublist _) (by simp [hq, TcpForwarder.inPut])
  | retry =>
    obtain ⟨q, hq, rfl⟩ := step_retry h
    rw [FeedEvent.given, List.append_nil]
    rcases hfull : s.worker.full with _ | _
    · rcases hne : q.nonempty with _ | _
      · simp [waiting, hq, TcpForwarder.inPut, Worker.putOrDrop_of_not_full hfull, hne]
      · simp [waiting, hq, TcpForwarder.inPut, Worker.putOrDrop_of_not_full hfull, hne]
    · simp [waiting, hq, TcpForwarder.inPut, Worker.putOrDrop_of_full hfull]
  | stop =>
    rw [← Option.some.inj h, FeedEvent.given, List.append_nil]
    exact List.Sublist.refl _
  | wake =>
    obtain ⟨-, rfl⟩ := step_wake h
    rw [FeedEvent.given, List.append_nil]
    rcases hfull : s.worker.full with _ | _
    · simp [waiting, Worker.putNowait_of_not_full hfull, Queued.wake, Queued.nonempty]
    · simp [waiting, Worker.putNowait_of_full hfull]

theorem waiting_get {q : Queued} {queue : List Queued} (hqueue : s.worker.queue = q :: queue) :
    s.waiting = (if q.nonempty then [q.sentence] else []) ++
      waiting { s with worker := { s.worker with queue } } := by
  rcases hne : q.nonempty with _ | _
  · simp [waiting, hqueue, hne]
  · simp [waiting, hqueue, hne]

theorem waiting_congr {w : Worker} (hqueue : w.queue = s.worker.queue) :
    waiting { s with worker := w } = s.waiting := by
  unfold waiting
  rw [hqueue]

end Feed

/-! ### UDP -/

/-- The sentence of a payload. -/
def sentenceOf : UiEvent → Str
  | .incoming sentence _ _ _ | .outgoing _ _ sentence _ => sentence

namespace UdpForwarder

variable {s t : UdpForwarder} {e : UdpEvent}

/-- The sentences whose `sendto` returned. -/
def sentences (s : UdpForwarder) : List Str := s.published.map sentenceOf

def hand : UdpPc → List Str
  | .send q => [q.sentence]
  | .start | .loop | .get | .finished => []

def line (s : UdpForwarder) : List Str := s.sentences ++ hand s.pc ++ s.toFeed.waiting

theorem line_of_leave (s : UdpForwarder) : s.leave.line.Sublist s.line := by
  have hwait : s.leave.toFeed.waiting = s.toFeed.waiting := Feed.waiting_congr Worker.closeSock_queue
  unfold line
  rw [hwait]
  exact ((List.Sublist.refl _).append (List.nil_sublist _)).append (List.Sublist.refl _)

/-- A step takes sentences out of the line, or adds the one that the worker is given at its end. -/
theorem line_step (h : s.step e = some t) : t.line.Sublist (s.line ++ e.given) := by
  cases e with
  | feed e =>
    obtain ⟨f, hf, rfl⟩ := Option.map_eq_some_iff.1 h
    show (s.sentences ++ hand s.pc ++ f.waiting).Sublist (s.sentences ++ hand s.pc ++ s.toFeed.waiting ++ e.given)
    rw [List.append_assoc (s.sentences ++ hand s.pc)]
    exact (List.Sublist.refl _).append (Feed.step_waiting hf)
  | start created =>
    rw [UdpEvent.given, List.append_nil]
    obtain ⟨hpc, ⟨-, rfl⟩ | ⟨-, rfl⟩⟩ := step_start h
    · simp [line, sentences, hand, hpc, Feed.waiting]
    · exact s.line_of_leave
  | check =>
    rw [UdpEvent.given, List.append_nil]
    obtain ⟨hpc, ⟨-, rfl⟩ | ⟨-, rfl⟩⟩ := step_check h
    · exact s.line_of_leave
    · simp [line, sentences, hand, hpc]
  | get =>
    rw [UdpEvent.given, List.append_nil]
    obtain ⟨hpc, ⟨-, rfl⟩ | ⟨q, queue, hq, rfl⟩⟩ := step_get h
    · simp [line, sentences, hand, hpc]
    · rw [line, line, Feed.waiting_get hq, hpc]
      rcases hne : q.nonempty with _ | _
      · simp [hand, sentences]
      · simp [hand, sentences]
  | send result now =>
    rw [UdpEvent.given, List.append_nil]
    obtain ⟨q, hpc, rfl⟩ := step_send h
    cases result with
    | ok =>
      have hwait : (s.trySend q now .ok).toFeed.waiting = s.toFeed.waiting := Feed.waiting_congr rfl
      rw [line, line, hwait, hpc]
      simp [trySend, sentences, hand, TcpForwarder.outgoing, sentenceOf]
    | failed err =>
      have hwait : (s.trySend q now (.failed err)).toFeed.waiting = s.toFeed.waiting := Feed.waiting_congr rfl
      rw [line, line, hwait, hpc]
      simp [trySend, sentences, hand]
    | raises => exact s.line_of_leave

end UdpForwarder

/-! ### HTTP -/

namespace HttpForwarder

variable {s t : HttpForwarder} {e : HttpEvent}

/-- The bodies that were posted are those of these batches. -/
def Posted (s : HttpForwarder) (batches : List (List Queued)) : Prop := s.posted = batches.map body

/-- The sentences that were posted, in the batch, queued and in the hands of `put`. -/
def line (s : HttpForwarder) (batches : List (List Queued)) : List Str :=
  (batches.flatten ++ s.batch).map (·.sentence) ++ s.toFeed.waiting

theorem line_step {batches : List (List Queued)} (hs : s.Posted batches) (h : s.step e = some t) :
    ∃ batches', t.Posted batches' ∧ (t.line batches').Sublist (s.line batches ++ e.given) := by
  cases e with
  | feed e =>
    obtain ⟨f, hf, rfl⟩ := Option.map_eq_some_iff.1 h
    refine ⟨batches, hs, ?_⟩
    show (_ ++ f.waiting).Sublist (_ ++ s.toFeed.waiting ++ e.given)
    rw [List.append_assoc]
    exact (List.Sublist.refl _).append (Feed.step_waiting hf)
  | start now =>
    rw [HttpEvent.given, List.append_nil]
    obtain ⟨-, rfl⟩ := step_start h
    exact ⟨batches, hs, by simp [line, Feed.waiting]⟩
  | check =>
    rw [HttpEvent.given, List.append_nil]
    obtain ⟨-, ⟨-, rfl⟩ | ⟨-, rfl⟩⟩ := step_check h
    · exact ⟨batches, hs, by simp [line, Feed.waiting]⟩
    · exact ⟨batches, hs, List.Sublist.refl _⟩
  | get =>
    rw [HttpEvent.given, List.append_nil]
    obtain ⟨-, ⟨-, rfl⟩ | ⟨q, queue, hq, rfl⟩⟩ := step_get h
    · exact ⟨batches, hs, List.Sublist.refl _⟩
    · refine ⟨batches, hs, ?_⟩
      rw [line, line, Feed.waiting_get hq]
      rcases hne : q.nonempty with _ | _
      · simp
      · simp
  | flush now =>
    rw [HttpEvent.given, List.append_nil]
    obtain ⟨-, rfl⟩ := step_flush h
    exact ⟨batches, hs, List.Sublist.refl _⟩
  | post err =>
    rw [HttpEvent.given, List.append_nil]
    obtain ⟨now, -, rfl⟩ := step_post h
    cases err with
    | none =>
      -- the batch joins those that were posted
      refine ⟨batches ++ [s.batch], ?_, ?_⟩
      · rw [Posted, tryPost, hs, List.map_append]
        rfl
      · simp [line, tryPost, Feed.waiting]
    | some err =>
      refine ⟨batches, hs, ?_⟩
      have hwait : (s.tryPost now (some err)).toFeed.waiting = s.toFeed.waiting := Feed.waiting_congr rfl
      rw [line, line, hwait]
      simp [tryPost]

end HttpForwarder

/-! ### TCP -/

namespace TcpForwarder

variable {s t : TcpForwarder} {e : TcpEvent}

theorem puts_step (h : s.step e = some t) :
    t.puts.map (·.sentence) = s.puts.map (·.sentence) ++ e.given := by
  cases e with
  | put sentence =>
    obtain ⟨-, ⟨-, rfl⟩ | ⟨-, rfl⟩⟩ := step_put h
    · simp [TcpEvent.given]
    · simp [TcpEvent.given]
  | evict => obtain ⟨q, -, rfl⟩ := step_evict h; simp [TcpEvent.given]
  | retry => obtain ⟨q, -, rfl⟩ := step_retry h; simp [TcpEvent.given]
  | stop => obtain rfl := Option.some.inj h; simp [TcpEvent.given]
  | wake => obtain ⟨-, rfl⟩ := step_wake h; simp [TcpEvent.given]
  | check => obtain ⟨-, ⟨-, rfl⟩ | ⟨-, rfl⟩⟩ := step_check h <;> simp [TcpEvent.given, leave]
  | connect result =>
    obtain ⟨-, rfl⟩ := step_connect h
    obtain ⟨worker, backoff, pc, hs, -, -⟩ := s.tryConnect_frame result
    simp [hs, TcpEvent.given]
  | get => obtain ⟨-, ⟨-, rfl⟩ | ⟨q, queue, -, rfl⟩⟩ := step_get h <;> simp [TcpEvent.given]
  | send err now =>
    obtain ⟨q, -, rfl⟩ := step_send h
    cases err <;> simp [TcpEvent.given, trySend]
  | requeue => obtain ⟨q, -, rfl⟩ := step_requeue h; simp [TcpEvent.given]

/-- A sentence that is queued again keeps its place in the count, not in the order. -/
theorem line_requeue_subperm {q : Queued} (hpc : s.pc = .requeue q) :
    (line { s with worker := s.worker.putOrDrop q, pc := .loop }).Subperm s.line := by
  rcases hfull : s.worker.full with _ | _
  · have hahead : (s.sent ++ [q].filter Queued.nonempty ++ s.worker.queue.filter Queued.nonempty ++
        inPut s.producer).Sublist s.line := by
      simp only [line, hand, hpc]
      refine List.Sublist.append_right (List.Sublist.append_right ?_ _) _
      exact List.Sublist.append_left List.filter_sublist _
    refine List.Subperm.trans (List.Perm.subperm ?_) hahead.subperm
    simp only [line, hand, Worker.putOrDrop_of_not_full hfull, List.filter_append, List.append_nil]
    refine List.Perm.append_right _ ?_
    rw [List.append_assoc]
    exact List.Perm.append_left _ List.perm_append_comm
  · refine List.Sublist.subperm ?_
    simp [line, hpc, hand, Worker.putOrDrop_of_full hfull]

/-- A step takes sentences out of the line, moves one of them back, or adds that of a new call. -/
theorem line_step_subperm (h : s.step e = some t) :
    ∃ calls : List Queued, t.puts = s.puts ++ calls ∧ calls.map (·.sentence) = e.given ∧
      t.line.Subperm (s.line ++ calls) := by
  by_cases hre : e = .requeue
  · subst hre
    obtain ⟨q, hpc, rfl⟩ := step_requeue h
    refine ⟨[], by simp, rfl, ?_⟩
    rw [List.append_nil]
    exact line_requeue_subperm hpc
  · have hc : RequeuesFirst s e := by
      cases e with
      | requeue => exact absurd rfl hre
      | _ => trivial
    have hgiven : ∀ calls : List Queued, t.puts = s.puts ++ calls → calls.map (·.sentence) = e.given := by
      intro calls hputs
      have hstep := puts_step h
      rw [hputs, List.map_append] at hstep
      exact List.append_cancel_left hstep
    rcases line_step hc h with ⟨hputs, -, hline⟩ | ⟨q, -, hputs, -, hline⟩
    · exact ⟨[], by simp [hputs], hgiven [] (by simp [hputs]), by simpa using hline.subperm⟩
    · exact ⟨[q], hputs, hgiven [q] hputs, hline.subperm⟩

end TcpForwarder

/-! ### Any worker -/

namespace Loop

variable {l m : Loop} {e : LoopEvent} {queueSize : ℕ} {ep : Endpoint}

/-- `sentences` is what the worker has sent, in order: line by line, or in bodies of one batch each. -/
def Delivered : Loop → List Str → Prop
  | .tcp s, sentences => sentences = s.sent.map (·.sentence)
  | .udp s, sentences => sentences = s.sentences
  | .http s, sentences => ∃ batches, s.Posted batches ∧ sentences = batches.flatten.map (·.sentence)

/-- Every sentence that is sent, held or queued was given, no more often than it was given; but for TCP they stand in
the order in which they were given. -/
def Sound (l : Loop) (given : List Str) : Prop :=
  match l with
  | .tcp s => s.puts.map (·.sentence) = given ∧ s.line.Subperm s.puts
  | .udp s => s.line.Sublist given
  | .http s => ∃ batches, s.Posted batches ∧ (s.line batches).Sublist given

theorem sound_new (queueSize : ℕ) (ep : Endpoint) : Sound (Loop.new queueSize ep) [] := by
  unfold Loop.new
  split
  · exact ⟨rfl, List.Subperm.refl _⟩
  · exact List.Sublist.refl _
  · exact ⟨[], rfl, List.Sublist.refl _⟩

theorem Sound.step {given : List Str} (hs : l.Sound given) (h : l.step e = some m) :
    m.Sound (given ++ e.given) := by
  cases l with
  | tcp s => cases e with
    | tcp e =>
      obtain ⟨t, ht, rfl⟩ := Option.map_eq_some_iff.1 h
      obtain ⟨hgiven, hline⟩ := hs
      obtain ⟨calls, hputs, -, hstep⟩ := TcpForwarder.line_step_subperm ht
      refine ⟨by rw [TcpForwarder.puts_step ht, hgiven]; rfl, hstep.trans ?_⟩
      rw [hputs]
      exact (List.subperm_append_right calls).2 hline
    | udp e => cases h
    | http e => cases h
  | udp s => cases e with
    | tcp e => cases h
    | udp e =>
      obtain ⟨t, ht, rfl⟩ := Option.map_eq_some_iff.1 h
      exact (UdpForwarder.line_step ht).trans (List.Sublist.append_right hs _)
    | http e => cases h
  | http s => cases e with
    | tcp e => cases h
    | udp e => cases h
    | http e =>
      obtain ⟨t, ht, rfl⟩ := Option.map_eq_some_iff.1 h
      obtain ⟨batches, hposted, hline⟩ := hs
      obtain ⟨batches', hposted', hstep⟩ := HttpForwarder.line_step hposted ht
      exact ⟨batches', hposted', hstep.trans (List.Sublist.append_right hline _)⟩

/-- The sentences that a run gives to the worker. -/
def given (es : List LoopEvent) : List Str := es.flatMap LoopEvent.given

theorem sound_of_run {es : List LoopEvent} (h : run Loop.step (Loop.new queueSize ep) es = some l) :
    l.Sound (given es) := by
  refine run_history (I := fun l es => l.Sound (given es)) ?_ (sound_new queueSize ep) h
  intro l es e m hs hstep
  have hnext := hs.step hstep
  rwa [given, List.flatMap_append, List.flatMap_singleton]

/-- What was sent is a part of what was given, in the order in which it was given but for TCP. -/
theorem Sound.delivered {given : List Str} (hs : l.Sound given) :
    ∃ sentences, l.Delivered sentences ∧ sentences.Subperm given ∧
      ((∀ s, l ≠ .tcp s) → sentences.Sublist given) := by
  cases l with
  | tcp s =>
    obtain ⟨hgiven, hline⟩ := hs
    refine ⟨_, rfl, ?_, fun h => absurd rfl (h s)⟩
    have hsent : s.sent.Subperm s.puts := by
      refine List.Subperm.trans (List.Sublist.subperm ?_) hline
      simp only [TcpForwarder.line, List.append_assoc]
      exact List.sublist_append_left _ _
    obtain ⟨calls, hperm, hcalls⟩ := hsent
    exact hgiven ▸ ⟨calls.map (·.sentence), hperm.map _, hcalls.map _⟩
  | udp s =>
    have hsent : s.sentences.Sublist given := by
      refine List.Sublist.trans ?_ hs
      simp only [UdpForwarder.line, List.append_assoc]
      exact List.sublist_append_left _ _
    exact ⟨_, rfl, hsent.subperm, fun _ => hsent⟩
  | http s =>
    obtain ⟨batches, hposted, hline⟩ := hs
    have hsent : (batches.flatten.map (·.sentence)).Sublist given := by
      refine List.Sublist.trans ?_ hline
      simp only [HttpForwarder.line, List.map_append, List.append_assoc]
      exact List.sublist_append_left _ _
    exact ⟨_, ⟨batches, hposted, rfl⟩, hsent.subperm, fun _ => hsent⟩

end Loop

/-- **What a worker sends.**  Over every run of its loop, whatever fails and however it is interleaved with the calls
of `put` and `stop`: what a worker has sent are sentences that it was given, each no more often than it was given, and
a UDP or HTTP worker sends them in the order in which it was given them. -/
theorem worker_delivers {queueSize : ℕ} {ep : Endpoint} {es : List LoopEvent} {l : Loop}
    (h : run Loop.step (Loop.new queueSize ep) es = some l) :
    ∃ sentences, l.Delivered sentences ∧ sentences.Subperm (Loop.given es) ∧
      ((∀ s, l ≠ .tcp s) → sentences.Sublist (Loop.given es)) :=
  (Loop.sound_of_run h).delivered

/-- A station that takes batches. -/
def collector : Endpoint where
  id := 3
  name := .text "collector".toList
  protocol := .text "http".toList
  host := .text "192.168.1.30".toList
  port := .int 8080
  path := .text "/in".toList
  enabled := true
  createdAt := 0
  updatedAt := 0

/-- Three sentences for a queue of two; the first is dropped and the others are posted together. -/
def threeForTwo : List LoopEvent :=
  [.http (.start 0), .http (.feed (.put ['a'])), .http (.feed (.put ['b'])), .http (.feed (.put ['c'])),
    .http (.feed .evict), .http (.feed .retry), .http .check, .http .get, .http (.flush 0), .http .check, .http .get,
    .http (.flush 2), .http (.post none)]

theorem worker_delivers_threeForTwo :
    ∃ l, run Loop.step (Loop.new 2 collector) threeForTwo = some l ∧
      ∃ sentences, l.Delivered sentences ∧ sentences.Subperm (Loop.given threeForTwo) ∧
        ((∀ s, l ≠ .tcp s) → sentences.Sublist (Loop.given threeForTwo)) := by
  have hrun : (run Loop.step (Loop.new 2 collector) threeForTwo).isSome = true := by decide +kernel
  obtain ⟨l, hl⟩ := Option.isSome_iff_exists.1 hrun
  exact ⟨l, hl, worker_delivers hl⟩

end AisServer.Forward
