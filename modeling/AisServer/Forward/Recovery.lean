import AisServer.Forward.Order
import Mathlib.Algebra.Order.Group.MinMax
import Mathlib.Tactic.Linarith

/-!
# A TCP worker after an outage

Each failed attempt to connect doubles the pause before the next one, up to half a minute.  Once the endpoint takes
connections again, every sentence that waits in the queue comes to its turn: `Soon` counts the steps that the loop has
still to make until it has sent the sentence, whatever `put` does meanwhile.

* `backoff_of_run` — the pause that the next failure costs;
* `Soon.step` — a step of the loop brings the sentence nearer, and no other step takes it farther away;
* `tcp_recovers` — so no sentence waits for more than three steps of the loop for each one before it.
-/

namespace AisServer.Forward

open AisServer.Lib AisServer.Store AisServer.Stream

namespace TcpForwarder

variable {s t : TcpForwarder} {e : TcpEvent} {q : Queued} {m n : ℕ}

/-! ### The pause -/

/-- The failed attempts to connect after `n` of them in a row. -/
def failures (n : ℕ) : TcpEvent → ℕ
  | .connect .ok => 0
  | .connect (.refused _) | .connect (.noDelay _) => n + 1
  | _ => n

/-- The attempts to connect that have failed since one succeeded. -/
def failedInRow (es : List TcpEvent) : ℕ := es.foldl failures 0

theorem one_eq_min : (1 : Time) = min maxBackoff (2 ^ 0) := by
  norm_num [maxBackoff]

theorem backoff_step (hs : s.backoff = min maxBackoff (2 ^ n)) (h : s.step e = some t) :
    t.backoff = min maxBackoff (2 ^ failures n e) := by
  have hfailed : min maxBackoff (s.backoff * 2) = min maxBackoff (2 ^ (n + 1)) := by
    rw [hs, min_mul_of_nonneg _ _ (by norm_num), ← min_assoc, ← pow_succ]
    congr 1
    exact min_eq_left (by norm_num [maxBackoff])
  cases e with
  | put _ | evict | retry | stop | wake => exact (step_feed rfl h).2.2.2.trans hs
  | check => obtain ⟨-, ⟨-, rfl⟩ | ⟨-, rfl⟩⟩ := step_check h <;> exact hs
  | connect result =>
    obtain ⟨-, rfl⟩ := step_connect h
    cases result with
    | ok => exact one_eq_min
    | refused err => exact hfailed
    | noDelay err => exact hfailed
    | raises => exact hs
  | get => obtain ⟨-, ⟨-, rfl⟩ | ⟨q, queue, -, rfl⟩⟩ := step_get h <;> exact hs
  | send err now =>
    obtain ⟨q, -, rfl⟩ := step_send h
    cases err <;> exact hs
  | requeue => obtain ⟨q, -, rfl⟩ := step_requeue h; exact hs

theorem backoff_of_run {ep : Endpoint} {queueSize : ℕ} {es : List TcpEvent}
    (h : run step (new ep queueSize) es = some s) : s.backoff = min maxBackoff (2 ^ failedInRow es) := by
  refine run_history (I := fun s es => s.backoff = min maxBackoff (2 ^ failedInRow es)) ?_ ?_ h
  · intro s es e t hs hst
    rw [failedInRow, List.foldl_append]
    exact backoff_step hs hst
  · exact one_eq_min

/-! ### The socket -/

/-- The loop has a socket where it uses one, and none where a send failed. -/
structure Connected (s : TcpForwarder) : Prop where
  get : s.pc = .get → s.worker.sock = true
  send : ∀ q, s.pc = .send q → s.worker.sock = true
  requeue : ∀ q, s.pc = .requeue q → s.worker.sock = false

theorem connected_new (ep : Endpoint) (queueSize : ℕ) : Connected (new ep queueSize) := by
  constructor <;> simp [new]

theorem Connected.step (hs : s.Connected) (h : s.step e = some t) : t.Connected := by
  have hkept : t.pc = s.pc → t.worker.sock = s.worker.sock → t.Connected := by
    intro hpc hsock
    refine ⟨fun h => hsock.trans (hs.get (hpc ▸ h)), fun q h => hsock.trans (hs.send q (hpc ▸ h)), fun q h => ?_⟩
    exact hsock.trans (hs.requeue q (hpc ▸ h))
  cases e with
  | put _ | evict | retry | stop | wake =>
    obtain ⟨hfeed, hpc, -⟩ := step_feed rfl h
    exact hkept hpc (Feed.step_frame hfeed).2.1
  | check =>
    obtain ⟨-, ⟨-, rfl⟩ | ⟨-, rfl⟩⟩ := step_check h
    · constructor <;> simp [leave]
    · rcases hsock : s.worker.sock with _ | _
      · constructor <;> simp
      · constructor <;> simp [hsock]
  | connect result =>
    obtain ⟨-, rfl⟩ := step_connect h
    cases result <;> constructor <;> simp [tryConnect, connectFailed, leave]
  | get =>
    obtain ⟨hpc, ⟨-, rfl⟩ | ⟨q, queue, -, rfl⟩⟩ := step_get h
    · constructor <;> simp
    · have hsock := hs.get hpc
      rcases hne : q.nonempty with _ | _
      · constructor <;> simp
      · constructor <;> simp [hsock]
  | send err now =>
    obtain ⟨q, hpc, rfl⟩ := step_send h
    cases err with
    | none => constructor <;> simp [trySend]
    | some err => constructor <;> simp [trySend]
  | requeue =>
    obtain ⟨q, -, rfl⟩ := step_requeue h
    constructor <;> simp

/-! ### The turn of a sentence -/

/-- A step of the loop itself. -/
def ofLoop : TcpEvent → Bool
  | .check | .connect _ | .get | .send _ _ | .requeue => true
  | .put _ | .evict | .retry | .stop | .wake => false

/-- The endpoint takes the connection and what is sent, the worker is not stopped, and `put` does not throw the
sentence away for a newer one. -/
def Healthy (q : Queued) (s : TcpForwarder) : TcpEvent → Prop
  | .connect result => result = .ok
  | .send err _ => err = none
  | .stop => False
  | .evict => s.worker.queue.head? ≠ some q
  | _ => True

/-- The steps of the loop before it next takes a sentence, when nothing fails. -/
def toGet (s : TcpForwarder) : ℕ :=
  match s.pc with
  | .get | .finished => 0
  | .connect => 1
  | .loop => if s.worker.sock then 1 else 2
  | .send _ => 2
  | .requeue _ => 3

/-- The sentence is sent after at most `m` steps of the loop. -/
def Soon (q : Queued) (m : ℕ) (s : TcpForwarder) : Prop :=
  (∃ front back, s.worker.queue = front ++ q :: back ∧ 3 * front.length + s.toGet + 2 ≤ m) ∨
    (s.pc = .send q ∧ 1 ≤ m) ∨ q ∈ s.sent

theorem toGet_le (s : TcpForwarder) : s.toGet ≤ 3 := by
  unfold toGet
  split
  all_goals try omega
  split <;> omega

/-- What a call of `put` or a failed send does to the queue leaves the sentence its place. -/
theorem Soon.of_append (hs : s.Soon q m) (hpc : t.pc = s.pc) (hsock : t.worker.sock = s.worker.sock)
    (hsent : t.sent = s.sent) (hqueue : ∃ l, t.worker.queue = s.worker.queue ++ l) : t.Soon q m := by
  have htoGet : t.toGet = s.toGet := by rw [toGet, toGet, hpc, hsock]
  obtain ⟨l, hl⟩ := hqueue
  obtain ⟨front, back, hq, hm⟩ | ⟨hsend, hm⟩ | hmem := hs
  · refine Or.inl ⟨front, back ++ l, ?_, by omega⟩
    rw [hl, hq, List.append_assoc, List.cons_append]
  · exact Or.inr (Or.inl ⟨hpc.trans hsend, hm⟩)
  · exact Or.inr (Or.inr (hsent ▸ hmem))

theorem exists_putOrDrop (w : Worker) (q : Queued) : ∃ l, (w.putOrDrop q).queue = w.queue ++ l := by
  rcases hfull : w.full with _ | _
  · exact ⟨[q], Worker.putOrDrop_of_not_full hfull⟩
  · exact ⟨[], (Worker.putOrDrop_of_full hfull).trans (List.append_nil _).symm⟩

/-- A step that moves the loop on to its next sentence, with the queue as it was or longer. -/
theorem Soon.of_toGet (hs : s.Soon q m) (hpc : s.pc ≠ .send q) (htoGet : t.toGet + 1 = s.toGet)
    (hsent : ∀ q ∈ s.sent, q ∈ t.sent) (hqueue : ∃ l, t.worker.queue = s.worker.queue ++ l) : t.Soon q (m - 1) := by
  obtain ⟨l, hl⟩ := hqueue
  obtain ⟨front, back, hq, hm⟩ | ⟨hsend, -⟩ | hmem := hs
  · refine Or.inl ⟨front, back ++ l, ?_, by omega⟩
    rw [hl, hq, List.append_assoc, List.cons_append]
  · exact absurd hsend hpc
  · exact Or.inr (Or.inr (hsent q hmem))

/-- The loop takes a sentence: the one waited for, or one before it. -/
theorem Soon.get (hs : s.Soon q m) (hne : q.nonempty = true) (hsock : s.worker.sock = true)
    (h : s.step .get = some t) : t.Soon q (m - 1) := by
  obtain ⟨hpc, hget⟩ := step_get h
  have h0 : s.toGet = 0 := by rw [toGet, hpc]
  obtain ⟨front, back, hq, hm⟩ | ⟨hsend, -⟩ | hmem := hs
  · obtain ⟨hnil, -⟩ | ⟨q', queue, hcons, rfl⟩ := hget
    · rw [hnil] at hq
      exact absurd hq.symm (by simp)
    · rw [hcons] at hq
      cases front with
      | nil =>
        obtain ⟨rfl, rfl⟩ := List.cons.inj hq
        refine Or.inr (Or.inl ⟨if_pos hne, ?_⟩)
        omega
      | cons p front =>
        obtain ⟨rfl, rfl⟩ := List.cons.inj hq
        refine Or.inl ⟨front, back, rfl, ?_⟩
        rw [List.length_cons] at hm
        rcases hp : q'.nonempty with _ | _
        · simp only [toGet, Bool.false_eq_true, if_false, hsock, if_true]
          omega
        · simp only [toGet, if_true]
          omega
  · rw [hpc] at hsend
    cases hsend
  · refine Or.inr (Or.inr ?_)
    obtain ⟨-, rfl⟩ | ⟨q', queue, -, rfl⟩ := hget <;> exact hmem

/-- **The step lemma.**  A step of the loop brings the sentence one step nearer. -/
theorem Soon.step_loop (hs : s.Soon q m) (hne : q.nonempty = true) (hc : s.Connected)
    (hstop : s.worker.stopped = false) (hh : s.Healthy q e) (he : ofLoop e = true) (h : s.step e = some t) :
    t.Soon q (m - 1) := by
  have hlast : ∀ {l : List Queued}, l = l ++ [] := fun {l} => (List.append_nil l).symm
  cases e with
  | check =>
    obtain ⟨hpc, ⟨hstop', -⟩ | ⟨-, rfl⟩⟩ := step_check h
    · rw [hstop] at hstop'
      cases hstop'
    · refine hs.of_toGet (by simp [hpc]) ?_ (fun _ h => h) ⟨[], hlast⟩
      rcases hsock : s.worker.sock with _ | _ <;> simp [toGet, hpc, hsock]
  | connect result =>
    obtain ⟨hpc, rfl⟩ := step_connect h
    obtain rfl := hh
    exact hs.of_toGet (by simp [hpc]) (by simp [toGet, hpc, tryConnect]) (fun _ h => h) ⟨[], hlast⟩
  | get => exact hs.get hne (hc.get (step_get h).1) h
  | send err now =>
    obtain ⟨q', hpc, rfl⟩ := step_send h
    obtain rfl := hh
    have hsock := hc.send q' hpc
    by_cases hq : q' = q
    · refine Or.inr (Or.inr ?_)
      show q ∈ s.sent ++ [q']
      simp [hq]
    · refine hs.of_toGet (by simp [hpc, hq]) ?_ (fun _ h => List.mem_append_left _ h) ⟨[], hlast⟩
      simp [toGet, hpc, trySend, Worker.countSent, hsock]
  | requeue =>
    obtain ⟨q', hpc, rfl⟩ := step_requeue h
    have hsock := hc.requeue q' hpc
    refine hs.of_toGet (by simp [hpc]) ?_ (fun _ h => h) (exists_putOrDrop s.worker q')
    simp [toGet, hpc, hsock]
  | put _ | evict | retry | stop | wake => cases he

theorem Soon.step_other (hs : s.Soon q m) (hh : s.Healthy q e) (he : ofLoop e = false) (h : s.step e = some t) :
    t.Soon q m := by
  cases e with
  | put sentence =>
    obtain ⟨-, ⟨-, rfl⟩ | ⟨-, rfl⟩⟩ := step_put h
    · exact hs.of_append rfl rfl rfl ⟨_, rfl⟩
    · exact hs.of_append rfl rfl rfl ⟨[], (List.append_nil _).symm⟩
  | evict =>
    obtain ⟨q', -, rfl⟩ := step_evict h
    obtain ⟨front, back, hq, hm⟩ | ⟨hsend, hm⟩ | hmem := hs
    · cases front with
      | nil => exact absurd (by rw [hq]; rfl) hh
      | cons p front =>
        refine Or.inl ⟨front, back, by rw [hq]; rfl, ?_⟩
        rw [List.length_cons] at hm
        have htoGet : s.toGet + 2 ≤ m - 3 * front.length := by omega
        show 3 * front.length + s.toGet + 2 ≤ m
        omega
    · exact Or.inr (Or.inl ⟨hsend, hm⟩)
    · exact Or.inr (Or.inr hmem)
  | retry =>
    obtain ⟨q', -, rfl⟩ := step_retry h
    exact hs.of_append rfl Worker.putOrDrop_sock rfl (exists_putOrDrop s.worker q')
  | stop => exact hh.elim
  | wake =>
    obtain ⟨-, rfl⟩ := step_wake h
    rcases hfull : s.worker.full with _ | _
    · rw [Worker.putNowait_of_not_full hfull]
      exact hs.of_append rfl rfl rfl ⟨_, rfl⟩
    · rw [Worker.putNowait_of_full hfull]
      exact hs
  | check | connect _ | get | send _ _ | requeue => cases he

/-- The thread is in its loop and nobody has told it to stop. -/
def Running (s : TcpForwarder) : Prop := s.worker.stopped = false ∧ s.pc ≠ .finished

theorem Running.step (hs : s.Running) (hh : s.Healthy q e) (h : s.step e = some t) : t.Running := by
  obtain ⟨hstop, hpc⟩ := hs
  cases e with
  | put sentence => obtain ⟨-, ⟨-, rfl⟩ | ⟨-, rfl⟩⟩ := step_put h <;> exact ⟨hstop, hpc⟩
  | evict => obtain ⟨q', -, rfl⟩ := step_evict h; exact ⟨hstop, hpc⟩
  | retry => obtain ⟨q', -, rfl⟩ := step_retry h; exact ⟨Worker.putOrDrop_stopped.trans hstop, hpc⟩
  | stop => exact hh.elim
  | wake => exact absurd (step_wake h).1 (by simp [hstop])
  | check =>
    obtain ⟨-, ⟨hstop', -⟩ | ⟨-, rfl⟩⟩ := step_check h
    · exact absurd hstop' (by simp [hstop])
    · refine ⟨hstop, ?_⟩
      rcases hsock : s.worker.sock with _ | _ <;> simp
  | connect result =>
    obtain ⟨-, rfl⟩ := step_connect h
    obtain rfl := hh
    exact ⟨hstop, by simp [tryConnect]⟩
  | get =>
    obtain ⟨-, ⟨-, rfl⟩ | ⟨q', queue, -, rfl⟩⟩ := step_get h
    · exact ⟨hstop, by simp⟩
    · refine ⟨hstop, ?_⟩
      rcases hne : q'.nonempty with _ | _ <;> simp
  | send err now =>
    obtain ⟨q', -, rfl⟩ := step_send h
    obtain rfl := hh
    exact ⟨hstop, by simp [trySend]⟩
  | requeue =>
    obtain ⟨q', -, rfl⟩ := step_requeue h
    exact ⟨Worker.putOrDrop_stopped.trans hstop, by simp⟩

/-- What holds while the endpoint is healthy, with `m` steps of the loop left. -/
structure Waiting (q : Queued) (m : ℕ) (s : TcpForwarder) : Prop where
  connected : s.Connected
  running : s.Running
  soon : s.Soon q m

theorem Waiting.step (hs : s.Waiting q m) (hne : q.nonempty = true) (hh : s.Healthy q e) (h : s.step e = some t) :
    t.Waiting q (m - if ofLoop e then 1 else 0) := by
  refine ⟨hs.connected.step h, hs.running.step hh h, ?_⟩
  rcases he : ofLoop e with _ | _
  · exact hs.soon.step_other hh he h
  · exact hs.soon.step_loop hne hs.connected hs.running.1 hh he h

/-- **The run lemma.**  The steps of the loop are counted down. -/
theorem waiting_of_run {fs : List TcpEvent} (hs : s.Waiting q m) (hne : q.nonempty = true)
    (hg : Guarded step (Healthy q) s fs) (h : run step s fs = some t) : t.Waiting q (m - fs.countP ofLoop) := by
  induction fs generalizing s m with
  | nil =>
    obtain rfl : s = t := by simpa using h
    exact hs
  | cons e fs ih =>
    obtain ⟨u, hst, hrun⟩ := run_cons_some h
    have hu := ih (hs.step hne hg.1 hst) (hg.2 u hst) hrun
    rwa [Nat.sub_sub, Nat.add_comm, ← List.countP_cons] at hu

theorem Soon.sent (hs : s.Soon q 0) : q ∈ s.sent := by
  obtain ⟨front, back, -, hm⟩ | ⟨-, hm⟩ | hmem := hs
  · omega
  · omega
  · exact hmem

theorem exists_step_loop (q : Queued) (hpc : s.pc ≠ .finished) : ∃ e t, ofLoop e = true ∧ s.Healthy q e ∧
    s.step e = some t := by
  rcases h : s.pc with _ | _ | _ | q' | q' | _
  · rcases hstop : s.worker.stopped with _ | _
    · exact ⟨.check, _, rfl, trivial, by rw [step, if_pos h, hstop]; rfl⟩
    · exact ⟨.check, _, rfl, trivial, by rw [step, if_pos h, hstop]; rfl⟩
  · exact ⟨.connect .ok, _, rfl, rfl, if_pos h⟩
  · rcases hq : s.worker.queue with _ | ⟨p, queue⟩
    · exact ⟨.get, _, rfl, trivial, by rw [step, if_pos h, hq]⟩
    · exact ⟨.get, _, rfl, trivial, by rw [step, if_pos h, hq]⟩
  · exact ⟨.send none 0, _, rfl, rfl, by rw [step, h]⟩
  · exact ⟨.requeue, _, rfl, trivial, by rw [step, h]⟩
  · exact absurd h hpc

end TcpForwarder

open TcpForwarder

/-- **A TCP worker recovers from any outage.**  However often connecting and sending has failed, the pause after the
next failure is two to the number of failed attempts in a row, thirty at most.  From the moment at which the endpoint
takes connections and data again, a queued sentence is sent by the time the loop has made five steps and three more for
each sentence before it, unless `put` throws it away for a newer one; and the loop can always make its next step,
whatever the callers of `put` do between. -/
theorem tcp_recovers {ep : Endpoint} {queueSize : ℕ} {es : List TcpEvent} {s : TcpForwarder}
    (h : run TcpForwarder.step (.new ep queueSize) es = some s) :
    s.backoff = min maxBackoff (2 ^ failedInRow es) ∧
    (s.Running → ∀ front q back, s.worker.queue = front ++ q :: back → q.nonempty = true → ∀ fs t,
      Guarded TcpForwarder.step (Healthy q) s fs → run TcpForwarder.step s fs = some t →
      (3 * front.length + 5 ≤ fs.countP ofLoop → q ∈ t.sent) ∧
      ∃ e u, ofLoop e = true ∧ t.Healthy q e ∧ t.step e = some u) := by
  refine ⟨backoff_of_run h, fun hrunning front q back hqueue hne fs t hg hrun => ?_⟩
  have hconnected : s.Connected := run_inv_of_step (fun _ _ _ hs hst => hs.step hst) (connected_new ep queueSize) h
  have hsoon : s.Soon q (3 * front.length + 5) := by
    have := s.toGet_le
    exact Or.inl ⟨front, back, hqueue, by omega⟩
  have hwaiting := waiting_of_run ⟨hconnected, hrunning, hsoon⟩ hne hg hrun
  refine ⟨fun hlong => ?_, exists_step_loop q hwaiting.running.2⟩
  have hsent := hwaiting.soon
  rw [Nat.sub_eq_zero_of_le hlong] at hsent
  exact hsent.sent

/-- Two sentences are queued and two attempts to connect have failed. -/
def outage : List TcpEvent :=
  [.put ['a'], .check, .connect (.refused ['e']), .put ['b'], .check, .connect (.refused ['e'])]

/-- The endpoint is back. -/
def recovery : List TcpEvent := [.check, .connect .ok, .get, .send none 0, .check, .get, .send none 0, .check]

theorem tcp_recovers_outage :
    ∃ s t, run TcpForwarder.step (.new tcpEndpoint 2) outage = some s ∧ s.backoff = 4 ∧ s.sent = [] ∧
      run TcpForwarder.step s recovery = some t ∧ ⟨1, ['b']⟩ ∈ t.sent := by
  obtain ⟨s, hs⟩ : ∃ s, run TcpForwarder.step (.new tcpEndpoint 2) outage = some s := ⟨_, rfl⟩
  have hs' := Option.some.inj (hs.symm.trans rfl)
  have hrunning : s.Running := by
    rw [hs']
    exact ⟨rfl, by decide⟩
  obtain ⟨hbackoff, hsent⟩ := tcp_recovers hs
  obtain ⟨t, ht⟩ : ∃ t, run TcpForwarder.step s recovery = some t := by
    rw [hs']
    exact ⟨_, rfl⟩
  have hqueue : s.worker.queue = [⟨0, ['a']⟩] ++ ⟨1, ['b']⟩ :: [] := by
    rw [hs']
    rfl
  have hhealthy : Guarded TcpForwarder.step (Healthy ⟨1, ['b']⟩) s recovery := by
    refine guarded_of_forall_mem fun e he s => ?_
    simp only [recovery, List.mem_cons, List.not_mem_nil, or_false] at he
    rcases he with rfl | rfl | rfl | rfl | rfl | rfl | rfl | rfl <;> first | exact trivial | rfl
  refine ⟨s, t, hs, hbackoff.trans ?_, by rw [hs']; rfl, ht, ?_⟩
  · norm_num [failedInRow, outage, failures, maxBackoff]
  · exact (hsent hrunning _ _ _ hqueue (by decide) recovery t hhealthy ht).1 (by decide)

end AisServer.Forward
