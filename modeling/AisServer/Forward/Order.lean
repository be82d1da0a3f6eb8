import AisServer.Forward.Tcp

/-!
# The order of a TCP endpoint

`line` is the queue of a worker with what stands before and behind it: the sentences sent, the one in the
worker's hands, the queue, and the one that `put` is about to queue.  As long as the line is a part of
the sequence of `put` calls, so is what was sent.  One step reorders it: a sentence whose send failed is
queued again *behind* the sentences that came after it.

* `line_step` — every other step takes sentences out of the line or adds a new one at its end;
* `order_preserved` — the order of the calls is kept, exactly when no sentence is queued again behind
  another one by a worker that goes on.
-/

namespace AisServer.Forward

open AisServer.Lib AisServer.Store AisServer.Stream

namespace TcpForwarder

variable {s t : TcpForwarder} {e : TcpEvent}

/-- The sentence in the worker's hands. -/
def hand : TcpPc → List Queued
  | .send q => [q]
  | .requeue q => [q]
  | _ => []

/-- The sentence that a `put` holds between two operations of the queue. -/
def inPut : PutPc → List Queued
  | .evict q => [q]
  | .retry q => [q]
  | .idle => []

def line (s : TcpForwarder) : List Queued :=
  s.sent ++ hand s.pc ++ s.worker.queue.filter Queued.nonempty ++ inPut s.producer

/-- A sentence is queued again only when it finds no room, or no sentence to stand behind. -/
def RequeuesFirst (s : TcpForwarder) : TcpEvent → Prop
  | .requeue => s.worker.full = true ∨ ∀ q ∈ s.worker.queue, q.nonempty = false
  | _ => True

theorem line_of_sublists {u : TcpForwarder} (hsent : u.sent = s.sent)
    (hhand : (hand u.pc).Sublist (hand s.pc)) (hqueue : u.worker.queue.Sublist s.worker.queue)
    (hput : (inPut u.producer).Sublist (inPut s.producer)) : u.line.Sublist s.line := by
  unfold line
  rw [hsent]
  exact (((List.Sublist.refl _).append hhand).append (hqueue.filter _)).append hput

/-- A sentence that is queued again behind wake-ups only is still first in line. -/
theorem line_requeue {q : Queued} (hpc : s.pc = .requeue q) (hc : RequeuesFirst s .requeue) :
    (line { s with worker := s.worker.putOrDrop q, pc := .loop }).Sublist s.line := by
  rcases hfull : s.worker.full with _ | _
  · have hwakes : ∀ p ∈ s.worker.queue, p.nonempty = false :=
      (show s.worker.full = true ∨ _ from hc).resolve_left (by simp [hfull])
    have hnil : s.worker.queue.filter Queued.nonempty = [] :=
      List.filter_eq_nil_iff.2 fun p hp => by simp [hwakes p hp]
    have hback : ((s.worker.putOrDrop q).queue.filter Queued.nonempty).Sublist [q] := by
      rw [Worker.putOrDrop_of_not_full hfull, List.filter_append, hnil]
      exact List.filter_sublist
    have hline := ((List.Sublist.refl s.sent).append hback).append (List.Sublist.refl (inPut s.producer))
    simpa only [line, hand, hpc, hnil, List.append_nil] using hline
  · simp [line, hpc, hand, Worker.putOrDrop_of_full hfull]

/-- Any step but a `requeue` behind another sentence takes sentences out of the line, or adds the
sentence of a new call at its end. -/
theorem line_step (hc : RequeuesFirst s e) (h : s.step e = some t) :
    (t.puts = s.puts ∧ t.calls = s.calls ∧ t.line.Sublist s.line) ∨
    (∃ q, q.call = s.calls ∧ t.puts = s.puts ++ [q] ∧ t.calls = s.calls + 1 ∧
      t.line.Sublist (s.line ++ [q])) := by
  cases e with
  | put sentence =>
    obtain ⟨hidle, ⟨-, rfl⟩ | ⟨-, rfl⟩⟩ := step_put h
    · refine Or.inr ⟨_, rfl, rfl, rfl, ?_⟩
      simp [line, hidle, inPut, List.filter_append]
    · refine Or.inr ⟨_, rfl, rfl, rfl, ?_⟩
      simp [line, hidle, inPut]
  | evict =>
    obtain ⟨q, hq, rfl⟩ := step_evict h
    exact Or.inl ⟨rfl, rfl, line_of_sublists rfl (List.Sublist.refl _) (List.tail_sublist _)
      (by simp [hq, inPut])⟩
  | retry =>
    obtain ⟨q, hq, rfl⟩ := step_retry h
    refine Or.inl ⟨rfl, rfl, ?_⟩
    rcases hfull : s.worker.full with _ | _
    · simp [line, hq, inPut, Worker.putOrDrop_of_not_full hfull, List.filter_append]
    · simp [line, hq, inPut, Worker.putOrDrop_of_full hfull]
  | stop =>
    obtain rfl := Option.some.inj h
    exact Or.inl ⟨rfl, rfl, List.Sublist.refl _⟩
  | wake =>
    obtain ⟨-, rfl⟩ := step_wake h
    refine Or.inl ⟨rfl, rfl, ?_⟩
    rcases hfull : s.worker.full with _ | _
    · simp [line, Worker.putNowait_of_not_full hfull, Queued.wake, Queued.nonempty]
    · simp [line, Worker.putNowait_of_full hfull]
  | check =>
    obtain ⟨hpc, ⟨-, rfl⟩ | ⟨-, rfl⟩⟩ := step_check h
    · refine Or.inl ⟨rfl, rfl, line_of_sublists rfl ?_ ?_ (List.Sublist.refl _)⟩
      · exact List.nil_sublist _
      · show s.worker.closeSock.queue.Sublist _
        rw [Worker.closeSock_queue]
    · refine Or.inl ⟨rfl, rfl, line_of_sublists rfl ?_ (List.Sublist.refl _) (List.Sublist.refl _)⟩
      show (hand (if s.worker.sock then .get else .connect)).Sublist _
      split <;> exact List.nil_sublist _
  | connect result =>
    obtain ⟨-, rfl⟩ := step_connect h
    obtain ⟨worker, backoff, pc, hs, hqueue, hpc⟩ := s.tryConnect_frame result
    rw [hs]
    refine Or.inl ⟨rfl, rfl, line_of_sublists rfl ?_ (hqueue ▸ List.Sublist.refl _) (List.Sublist.refl _)⟩
    rcases hpc with rfl | rfl | rfl <;> exact List.nil_sublist _
  | get =>
    obtain ⟨hpc, ⟨hnil, rfl⟩ | ⟨q, queue, hq, rfl⟩⟩ := step_get h
    · exact Or.inl ⟨rfl, rfl, line_of_sublists rfl (List.nil_sublist _) (List.Sublist.refl _)
        (List.Sublist.refl _)⟩
    · refine Or.inl ⟨rfl, rfl, ?_⟩
      rcases hne : q.nonempty with _ | _
      · simp [line, hpc, hand, hq, hne]
      · simp [line, hpc, hand, hq, hne]
  | send err now =>
    obtain ⟨q, hpc, rfl⟩ := step_send h
    rcases err with _ | text
    · refine Or.inl ⟨rfl, rfl, ?_⟩
      simp [line, trySend, Worker.countSent, hpc, hand]
    · refine Or.inl ⟨rfl, rfl, line_of_sublists rfl ?_ ?_ (List.Sublist.refl _)⟩
      · rw [hpc]
        exact List.Sublist.refl _
      · show ((s.worker.countError text).closeSock).queue.Sublist _
        rw [Worker.closeSock_queue]
        exact List.Sublist.refl _
  | requeue =>
    obtain ⟨q, hpc, rfl⟩ := step_requeue h
    exact Or.inl ⟨rfl, rfl, line_requeue hpc hc⟩

/-! ### What the steps keep -/

/-- A sentence is queued again by a worker that stops, or first in line. -/
def KeepsOrder (s : TcpForwarder) : TcpEvent → Prop
  | .requeue => s.worker.stopped = true ∨ RequeuesFirst s .requeue
  | _ => True

instance (s : TcpForwarder) : ∀ e, Decidable (KeepsOrder s e)
  | .requeue => inferInstanceAs (Decidable (s.worker.stopped = true ∨ s.worker.full = true ∨
      ∀ q ∈ s.worker.queue, q.nonempty = false))
  | .put _ | .evict | .retry | .stop | .wake | .check | .connect _ | .get | .send .. =>
    inferInstanceAs (Decidable True)

/-- A worker that is told to stop and has nothing in its hands sends nothing more. -/
def Silent (s : TcpForwarder) : Prop :=
  s.worker.stopped = true ∧ (s.pc = .loop ∨ s.pc = .finished)

/-- The calls are numbered, the line is a part of them, and what is in hand is a sentence. -/
structure InOrder (s : TcpForwarder) : Prop where
  numbered : s.puts.Pairwise fun p q => p.call < q.call
  fresh : ∀ q ∈ s.puts, q.call < s.calls
  held : ∀ q ∈ hand s.pc, q.nonempty = true
  inLine : s.line.Sublist s.puts ∨ Silent s ∧ s.sent.Sublist s.puts

theorem sent_sublist_line (s : TcpForwarder) : s.sent.Sublist s.line := by
  unfold line
  rw [List.append_assoc, List.append_assoc]
  exact List.sublist_append_left _ _

theorem InOrder.sent_sublist (hs : InOrder s) : s.sent.Sublist s.puts := by
  rcases hs.inLine with hline | ⟨-, hsent⟩
  · exact s.sent_sublist_line.trans hline
  · exact hsent

theorem inOrder_new (ep : Endpoint) (queueSize : ℕ) : InOrder (new ep queueSize) where
  numbered := List.Pairwise.nil
  fresh := by simp [new]
  held := by simp [new, hand]
  inLine := Or.inl (List.Sublist.refl _)

theorem Silent.step (hs : Silent s) (h : s.step e = some t) : Silent t ∧ t.sent = s.sent := by
  obtain ⟨hstop, hpc⟩ := hs
  cases e with
  | put _ | evict | retry | stop | wake =>
    obtain ⟨hfeed, hpc', hsent, -⟩ := step_feed rfl h
    exact ⟨⟨Feed.step_stopped hfeed hstop, by rwa [hpc']⟩, hsent⟩
  | check =>
    obtain ⟨-, ⟨-, rfl⟩ | ⟨hgo, -⟩⟩ := step_check h
    · exact ⟨⟨Worker.closeSock_stopped.trans hstop, Or.inr rfl⟩, rfl⟩
    · rw [hstop] at hgo
      cases hgo
  | connect result =>
    obtain ⟨hc, -⟩ := step_connect h
    rw [hc] at hpc
    simp at hpc
  | get =>
    obtain ⟨hc, -⟩ := step_get h
    rw [hc] at hpc
    simp at hpc
  | send err now =>
    obtain ⟨q, hc, -⟩ := step_send h
    rw [hc] at hpc
    simp at hpc
  | requeue =>
    obtain ⟨q, hc, -⟩ := step_requeue h
    rw [hc] at hpc
    simp at hpc

theorem held_step (hs : ∀ q ∈ hand s.pc, q.nonempty = true) (h : s.step e = some t) :
    ∀ q ∈ hand t.pc, q.nonempty = true := by
  cases e with
  | put _ | evict | retry | stop | wake => rwa [(step_feed rfl h).2.1]
  | check =>
    obtain ⟨-, ⟨-, rfl⟩ | ⟨-, rfl⟩⟩ := step_check h
    · simp [leave, hand]
    · show ∀ q ∈ hand (if s.worker.sock then .get else .connect), _
      split <;> simp [hand]
  | connect result =>
    obtain ⟨-, rfl⟩ := step_connect h
    obtain ⟨worker, backoff, pc, ht, -, hpc⟩ := s.tryConnect_frame result
    rw [ht]
    rcases hpc with rfl | rfl | rfl <;> simp [hand]
  | get =>
    obtain ⟨-, ⟨-, rfl⟩ | ⟨q, queue, -, rfl⟩⟩ := step_get h
    · simp [hand]
    · rcases hne : q.nonempty with _ | _
      · simp [hand]
      · simp [hand, hne]
  | send err now =>
    obtain ⟨q, hpc, rfl⟩ := step_send h
    rcases err with _ | text
    · simp [trySend, hand]
    · rwa [hpc] at hs
  | requeue => obtain ⟨q, -, rfl⟩ := step_requeue h; simp [hand]

theorem InOrder.step (hs : InOrder s) (hc : KeepsOrder s e) (h : s.step e = some t) : InOrder t := by
  have hheld := held_step hs.held h
  by_cases hfirst : RequeuesFirst s e
  · have hline : s.line.Sublist s.puts ∨ Silent t ∧ t.sent.Sublist s.puts := by
      rcases hs.inLine with hline | ⟨hsilent, hsent⟩
      · exact Or.inl hline
      · obtain ⟨ht, hsame⟩ := hsilent.step h
        exact Or.inr ⟨ht, hsame ▸ hsent⟩
    rcases line_step hfirst h with ⟨hputs, hcalls, hsub⟩ | ⟨q, hq, hputs, hcalls, hsub⟩
    · refine ⟨hputs ▸ hs.numbered, by rw [hputs, hcalls]; exact hs.fresh, hheld, ?_⟩
      rw [hputs]
      exact hline.imp hsub.trans id
    · refine ⟨?_, ?_, hheld, ?_⟩
      · rw [hputs, List.pairwise_append]
        refine ⟨hs.numbered, List.pairwise_singleton _ _, fun p hp r hr => ?_⟩
        obtain rfl := List.mem_singleton.1 hr
        rw [hq]
        exact hs.fresh p hp
      · intro p hp
        rw [hputs] at hp
        rw [hcalls]
        rcases List.mem_append.1 hp with hp | hp
        · exact (hs.fresh p hp).trans (Nat.lt_succ_self _)
        · obtain rfl := List.mem_singleton.1 hp
          rw [hq]
          exact Nat.lt_succ_self _
      · rw [hputs]
        refine hline.imp (fun hl => hsub.trans (hl.append (List.Sublist.refl _))) fun hl => ?_
        exact ⟨hl.1, hl.2.trans (List.sublist_append_left _ _)⟩
  · -- a worker that stops queues a sentence it will not send
    cases e with
    | requeue =>
      have hstop : s.worker.stopped = true :=
        (show s.worker.stopped = true ∨ RequeuesFirst s .requeue from hc).resolve_right hfirst
      have hsent := hs.sent_sublist
      obtain ⟨q, -, rfl⟩ := step_requeue h
      exact ⟨hs.numbered, hs.fresh, hheld,
        Or.inr ⟨⟨Worker.putOrDrop_stopped.trans hstop, Or.inl rfl⟩, hsent⟩⟩
    | put sentence => exact absurd trivial hfirst
    | evict => exact absurd trivial hfirst
    | retry => exact absurd trivial hfirst
    | stop => exact absurd trivial hfirst
    | wake => exact absurd trivial hfirst
    | check => exact absurd trivial hfirst
    | connect result => exact absurd trivial hfirst
    | get => exact absurd trivial hfirst
    | send err now => exact absurd trivial hfirst

/-- What was sent is a part of the calls of `put` in their order, each at most once. -/
def OrderPreserved (s : TcpForwarder) : Prop :=
  s.sent.Sublist s.puts ∧ (s.sent.map (·.call)).Nodup

theorem InOrder.orderPreserved (hs : InOrder s) : OrderPreserved s := by
  refine ⟨hs.sent_sublist, ?_⟩
  rw [List.Nodup, List.pairwise_map]
  exact (hs.numbered.sublist hs.sent_sublist).imp fun h => h.ne

/-! ### Overtaking -/

/-- A worker that goes on comes to its queue with a connection. -/
theorem run_connect (hpc : s.pc = .loop) (hstop : s.worker.stopped = false) :
    ∃ gs t, (∀ e ∈ gs, e ≠ .requeue) ∧ run step s gs = some t ∧ t.pc = .get ∧
      t.worker.stopped = false ∧ t.worker.sock = true ∧ t.worker.queue = s.worker.queue ∧
      t.sent = s.sent ∧ t.puts = s.puts := by
  rcases hsock : s.worker.sock with _ | _
  · have hcheck : s.step .check = some { s with pc := .connect } := by
      simp [step, hpc, hstop, hsock]
    refine ⟨[.check, .connect .ok], tryConnect { s with pc := .connect } .ok, by simp, ?_, rfl, hstop,
      rfl, rfl, rfl, rfl⟩
    rw [run_cons, hcheck]
    rfl
  · have hcheck : s.step .check = some { s with pc := .get } := by
      simp [step, hpc, hstop, hsock]
    refine ⟨[.check], { s with pc := .get }, by simp, ?_, rfl, hstop, hsock, rfl, rfl, rfl⟩
    rw [run_cons, hcheck]
    rfl

/-- With a connection on which every send succeeds it sends its queue in order. -/
theorem run_deliver (l : List Queued) (s : TcpForwarder) (hpc : s.pc = .get)
    (hstop : s.worker.stopped = false) (hsock : s.worker.sock = true) (hq : s.worker.queue = l) :
    ∃ gs t, (∀ e ∈ gs, e ≠ .requeue) ∧ run step s gs = some t ∧
      t.sent = s.sent ++ l.filter Queued.nonempty ∧ t.puts = s.puts := by
  induction l generalizing s with
  | nil => exact ⟨[], s, by simp, rfl, by simp, rfl⟩
  | cons q l ih =>
    rcases hne : q.nonempty with _ | _
    · -- a wake-up is skipped
      have hget : s.step .get =
          some { s with worker := { s.worker with queue := l }, pc := .loop } := by
        simp [step, hpc, hq, hne]
      have hcheck : ({ s with worker := { s.worker with queue := l }, pc := .loop } :
          TcpForwarder).step .check = some { s with worker := { s.worker with queue := l }, pc := .get } := by
        simp [step, hstop, hsock]
      obtain ⟨gs, t, hgs, hrun, hsent, hputs⟩ :=
        ih { s with worker := { s.worker with queue := l }, pc := .get } rfl hstop hsock rfl
      refine ⟨.get :: .check :: gs, t, by simpa using hgs, ?_, ?_, hputs⟩
      · rw [run_cons, hget, Option.bind_some, run_cons, hcheck]
        exact hrun
      · rw [hsent, List.filter_cons_of_neg (by simp [hne])]
    · have hget : s.step .get =
          some { s with worker := { s.worker with queue := l }, pc := .send q } := by
        simp [step, hpc, hq, hne]
      set u := trySend { s with worker := { s.worker with queue := l }, pc := .send q } q 0 none with hu
      have hcheck : u.step .check = some { u with pc := .get } := by
        simp [step, hu, trySend, Worker.countSent, hstop, hsock]
      obtain ⟨gs, t, hgs, hrun, hsent, hputs⟩ := ih { u with pc := .get } rfl hstop hsock rfl
      refine ⟨.get :: .send none 0 :: .check :: gs, t, by simpa using hgs, ?_, ?_, hputs⟩
      · rw [run_cons, hget, Option.bind_some, run_cons]
        show (some u).bind _ = _
        rw [Option.bind_some, run_cons, hcheck]
        exact hrun
      · rw [hsent, List.filter_cons_of_pos (by simp [hne])]
        simp [hu, trySend]

/-- A sentence that is queued again behind another one is sent behind it. -/
theorem overtaken_of_requeue (hs : InOrder s) (hc : ¬ KeepsOrder s .requeue)
    (h : s.step .requeue = some t) :
    ∃ gs u, (∀ e ∈ gs, e ≠ .requeue) ∧ run step t gs = some u ∧ ¬ OrderPreserved u := by
  obtain ⟨q, hpc, rfl⟩ := step_requeue h
  obtain ⟨hstop, hfull, p, hp, hpne⟩ : s.worker.stopped = false ∧ s.worker.full = false ∧
      ∃ p ∈ s.worker.queue, p.nonempty = true := by
    simp only [KeepsOrder, RequeuesFirst, not_or, not_forall, Bool.not_eq_true] at hc
    obtain ⟨hstop, hfull, p, hp, hpne⟩ := hc
    exact ⟨hstop, hfull, p, hp, by simpa using hpne⟩
  have hq : q.nonempty = true := hs.held q (by simp [hpc, hand])
  have hlt : q.call < p.call := by
    have hline : s.line.Sublist s.puts := by
      refine hs.inLine.resolve_right fun hsilent => ?_
      rw [hsilent.1.1] at hstop
      cases hstop
    have hpair := hs.numbered.sublist hline
    simp only [line, hpc, hand, List.pairwise_append] at hpair
    exact hpair.1.2.2 q (by simp) p (List.mem_filter.2 ⟨hp, hpne⟩)
  obtain ⟨gs, u, hgs, hrun, hupc, hustop, husock, huqueue, husent, huputs⟩ :=
    run_connect (s := { s with worker := s.worker.putOrDrop q, pc := .loop }) rfl
      (Worker.putOrDrop_stopped.trans hstop)
  obtain ⟨gs', v, hgs', hrun', hvsent, hvputs⟩ := run_deliver _ u hupc hustop husock rfl
  refine ⟨gs ++ gs', v, ?_, (run_append_of hrun).trans hrun', fun hord => ?_⟩
  · intro e he
    rcases List.mem_append.1 he with he | he
    · exact hgs e he
    · exact hgs' e he
  · have hsent : v.sent = s.sent ++ (s.worker.queue.filter Queued.nonempty ++ [q]) := by
      rw [hvsent, husent, huqueue, Worker.putOrDrop_of_not_full hfull, List.filter_append,
        List.filter_cons_of_pos hq]
      rfl
    have hpair := hs.numbered.sublist ((hvputs.trans huputs) ▸ hord.1)
    rw [hsent, List.pairwise_append, List.pairwise_append] at hpair
    have := hpair.2.1.2.2 p (List.mem_filter.2 ⟨hp, hpne⟩) q (List.mem_singleton_self _)
    omega

end TcpForwarder

/-- **The order is preserved.**  On a run, and however it goes on without queueing a sentence again, what
was sent is a part of the sequence of `put` calls, in its order and each call at most once, exactly when
every sentence whose send failed finds no room, or no other sentence in the queue, or a worker that was
told to stop. -/
theorem order_preserved {ep : Endpoint} {queueSize : ℕ} {es : List TcpEvent} {s : TcpForwarder}
    (h : run TcpForwarder.step (TcpForwarder.new ep queueSize) es = some s) :
    Guarded TcpForwarder.step TcpForwarder.KeepsOrder (TcpForwarder.new ep queueSize) es ↔
      Throughout TcpForwarder.step (fun _ _ => True) (· ≠ .requeue) TcpForwarder.OrderPreserved
        (TcpForwarder.new ep queueSize) es := by
  refine guarded_iff_throughout (I := TcpForwarder.InOrder) (fun s e t hs _ hc hst => hs.step hc hst)
    (fun s hs => hs.orderPreserved) ?_ ?_ (TcpForwarder.inOrder_new ep queueSize) h (guarded_true _ _)
  · intro s e he
    cases e with
    | requeue => exact absurd rfl he
    | put sentence => trivial
    | evict => trivial
    | retry => trivial
    | stop => trivial
    | wake => trivial
    | check => trivial
    | connect result => trivial
    | get => trivial
    | send err now => trivial
  · intro s e t hs hst hc
    cases e with
    | requeue =>
      obtain ⟨gs, u, hgs, hrun, hnot⟩ := TcpForwarder.overtaken_of_requeue hs hc hst
      exact ⟨gs, u, hgs, guarded_true _ _, hrun, hnot⟩
    | put sentence => exact absurd trivial hc
    | evict => exact absurd trivial hc
    | retry => exact absurd trivial hc
    | stop => exact absurd trivial hc
    | wake => exact absurd trivial hc
    | check => exact absurd trivial hc
    | connect result => exact absurd trivial hc
    | get => exact absurd trivial hc
    | send err now => exact absurd trivial hc

/-- A TCP endpoint. -/
def tcpEndpoint : Endpoint :=
  { id := 1, name := .text ['e'], protocol := .text "tcp".toList, host := .text ['h'], port := .int 4001
    path := .null, enabled := true, createdAt := 0, updatedAt := 0 }

/-- The first of two sentences is sent again over a new connection; `waiting` is whether the second is
queued by then. -/
def reconnect (waiting : Bool) : List TcpEvent :=
  [.put ['a'], .check, .connect .ok, .get] ++ (if waiting then [.put ['b']] else []) ++
    [.send (some ['e']) 0, .requeue] ++ (if waiting then [] else [.put ['b']]) ++
    [.check, .connect .ok, .get, .send none 1, .check, .get, .send none 2]

theorem order_preserved_reconnect : Throughout TcpForwarder.step (fun _ _ => True) (· ≠ .requeue)
    TcpForwarder.OrderPreserved (TcpForwarder.new tcpEndpoint 10) (reconnect false) := by
  have hrun : (run TcpForwarder.step (TcpForwarder.new tcpEndpoint 10) (reconnect false)).isSome =
      true := by decide +kernel
  obtain ⟨s, hs⟩ := Option.isSome_iff_exists.1 hrun
  exact (order_preserved hs).1 (by decide +kernel)

/-- The second sentence overtakes the first. -/
theorem order_preserved_fails :
    ∃ s, run TcpForwarder.step (TcpForwarder.new tcpEndpoint 10) (reconnect true) = some s ∧
      s.puts.map (·.sentence) = [['a'], ['b']] ∧ s.sent.map (·.sentence) = [['b'], ['a']] ∧
      ¬ s.OrderPreserved := by
  have hrun : (run TcpForwarder.step (TcpForwarder.new tcpEndpoint 10) (reconnect true)).map
      (fun s => (s.puts, s.sent)) =
        some ([⟨0, ['a']⟩, ⟨1, ['b']⟩], [⟨1, ['b']⟩, ⟨0, ['a']⟩]) := by decide +kernel
  obtain ⟨s, hs, hfacts⟩ := Option.map_eq_some_iff.1 hrun
  obtain ⟨hputs, hsent⟩ := Prod.mk.inj hfacts
  refine ⟨s, hs, by simp [hputs], by simp [hsent], fun hord => ?_⟩
  have hsub := hord.1
  rw [hputs, hsent] at hsub
  exact absurd hsub (by decide)

end AisServer.Forward
