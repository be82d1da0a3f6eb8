import AisServer.Main.EndToEnd
import AisServer.Stream.Timing

/-!
# The order in which an endpoint is sent the traffic

The heap puts the sentences of all nodes in the order of their keys, and a worker is given them in that order.  A worker
that never fails keeps it.

* `TcpForwarder.Faultless.step` — a TCP worker that has counted no error has queued nothing again;
* `Server.chronological_of_run` — when the clock goes forward and sentences are pushed in time, the server dispatches
  in the order of the keys;
* `endpoint_chronological` — so an endpoint is sent the sentences in that order.
-/

namespace AisServer.Forward

open AisServer.Lib AisServer.Store AisServer.Stream

/-! ### A TCP worker that has not failed -/

namespace TcpForwarder

variable {s t : TcpForwarder} {e : TcpEvent}

theorem closeSock_errors (w : Worker) : w.closeSock.stats.errors = w.stats.errors := by
  unfold Worker.closeSock
  split <;> rfl

theorem putOrDrop_errors (w : Worker) (q : Queued) : (w.putOrDrop q).stats.errors = w.stats.errors := by
  unfold Worker.putOrDrop Worker.putNowait
  split <;> rfl

/-- Errors are only counted up, and after one that a send met the sentence is to be queued again. -/
theorem errors_step (h : s.step e = some t) : s.worker.stats.errors ≤ t.worker.stats.errors ∧
    (t.worker.stats.errors = 0 → (∃ q, t.pc = .requeue q) → ∃ q, s.pc = .requeue q) := by
  cases e with
  | put _ | evict | retry | stop | wake =>
    obtain ⟨hfeed, hpc, -⟩ := step_feed rfl h
    exact ⟨(Feed.step_frame hfeed).2.2.2.ge, fun _ hq => by rwa [hpc] at hq⟩
  | check =>
    obtain ⟨-, ⟨-, rfl⟩ | ⟨-, rfl⟩⟩ := step_check h
    · exact ⟨(closeSock_errors _).ge, fun _ ⟨q, hq⟩ => by cases hq⟩
    · refine ⟨le_rfl, fun _ ⟨q, hq⟩ => ?_⟩
      dsimp only at hq
      split at hq <;> cases hq
  | connect result =>
    obtain ⟨-, rfl⟩ := step_connect h
    cases result with
    | ok => exact ⟨le_rfl, fun _ ⟨q, hq⟩ => by cases hq⟩
    | refused err => exact ⟨Nat.le_succ _, fun _ ⟨q, hq⟩ => by cases hq⟩
    | noDelay err => exact ⟨Nat.le_succ _, fun _ ⟨q, hq⟩ => by cases hq⟩
    | raises => exact ⟨(closeSock_errors _).ge, fun _ ⟨q, hq⟩ => by cases hq⟩
  | get =>
    obtain ⟨-, ⟨-, rfl⟩ | ⟨q, queue, -, rfl⟩⟩ := step_get h
    · exact ⟨le_rfl, fun _ ⟨q, hq⟩ => by cases hq⟩
    · refine ⟨le_rfl, fun _ ⟨p, hp⟩ => ?_⟩
      dsimp only at hp
      split at hp <;> cases hp
  | send err now =>
    obtain ⟨q, -, rfl⟩ := step_send h
    cases err with
    | none => exact ⟨le_rfl, fun _ ⟨q, hq⟩ => by cases hq⟩
    | some err =>
      have hcount : (s.trySend q now (some err)).worker.stats.errors = s.worker.stats.errors + 1 :=
        closeSock_errors _
      refine ⟨hcount ▸ Nat.le_succ _, fun hzero _ => ?_⟩
      rw [hcount] at hzero
      cases hzero
  | requeue =>
    obtain ⟨q, -, rfl⟩ := step_requeue h
    exact ⟨(putOrDrop_errors _ _).ge, fun _ ⟨q, hq⟩ => by cases hq⟩

/-- As long as no error was counted, the line is a part of the calls of `put`, in their order. -/
def Faultless (s : TcpForwarder) : Prop :=
  s.worker.stats.errors = 0 → (∀ q, s.pc ≠ .requeue q) ∧ s.line.Sublist s.puts

theorem faultless_new (ep : Endpoint) (queueSize : ℕ) : Faultless (new ep queueSize) := by
  refine fun _ => ⟨fun q h => ?_, List.Sublist.refl _⟩
  cases h

theorem Faultless.step (hs : s.Faultless) (h : s.step e = some t) : t.Faultless := by
  intro hzero
  obtain ⟨hle, hback⟩ := errors_step h
  obtain ⟨hpc, hline⟩ := hs (Nat.le_zero.1 (hle.trans hzero.le))
  have hfirst : RequeuesFirst s e := by
    cases e with
    | requeue =>
      obtain ⟨q, hq, -⟩ := step_requeue h
      exact absurd hq (hpc q)
    | _ => trivial
  refine ⟨fun q hq => ?_, ?_⟩
  · obtain ⟨p, hp⟩ := hback hzero ⟨q, hq⟩
    exact hpc p hp
  · rcases line_step hfirst h with ⟨hputs, -, hstep⟩ | ⟨q, -, hputs, -, hstep⟩
    · exact hputs ▸ hstep.trans hline
    · exact hputs ▸ hstep.trans (List.Sublist.append_right hline _)

end TcpForwarder

namespace Loop

variable {l m : Loop} {e : LoopEvent} {queueSize : ℕ} {ep : Endpoint}

/-- A UDP or HTTP worker, or a TCP worker that has counted no error. -/
def InOrder : Loop → Prop
  | .tcp s => s.worker.stats.errors = 0
  | .udp _ | .http _ => True

def Faultless : Loop → Prop
  | .tcp s => s.Faultless
  | .udp _ | .http _ => True

theorem faultless_of_run {es : List LoopEvent} (h : run Loop.step (Loop.new queueSize ep) es = some l) :
    l.Faultless := by
  refine run_inv_of_step (I := Loop.Faultless) (fun l e m hl hst => ?_) ?_ h
  · cases l with
    | tcp s => cases e with
      | tcp e =>
        obtain ⟨t, ht, rfl⟩ := Option.map_eq_some_iff.1 hst
        exact TcpForwarder.Faultless.step hl ht
      | udp e => cases hst
      | http e => cases hst
    | udp s => cases e with
      | tcp e => cases hst
      | udp e =>
        obtain ⟨t, ht, rfl⟩ := Option.map_eq_some_iff.1 hst
        trivial
      | http e => cases hst
    | http s => cases e with
      | tcp e => cases hst
      | udp e => cases hst
      | http e =>
        obtain ⟨t, ht, rfl⟩ := Option.map_eq_some_iff.1 hst
        trivial
  · unfold Loop.new
    split
    · exact TcpForwarder.faultless_new _ _
    · trivial
    · trivial

/-- A worker without a fault sends in the order in which it is given. -/
theorem delivered_in_order {es : List LoopEvent} (h : run Loop.step (Loop.new queueSize ep) es = some l)
    (hl : l.InOrder) : ∃ sentences, l.Delivered sentences ∧ sentences.Sublist (given es) := by
  have hsound := sound_of_run h
  cases l with
  | tcp s =>
    obtain ⟨-, hline⟩ := faultless_of_run h hl
    have hsent : s.sent.Sublist s.puts := by
      refine List.Sublist.trans ?_ hline
      simp only [TcpForwarder.line, List.append_assoc]
      exact List.sublist_append_left _ _
    exact ⟨_, rfl, hsound.1 ▸ hsent.map _⟩
  | udp s =>
    obtain ⟨sentences, hdelivered, -, horder⟩ := hsound.delivered
    exact ⟨sentences, hdelivered, horder fun _ => Loop.noConfusion⟩
  | http s =>
    obtain ⟨sentences, hdelivered, -, horder⟩ := hsound.delivered
    exact ⟨sentences, hdelivered, horder fun _ => Loop.noConfusion⟩

end Loop

end AisServer.Forward

namespace AisServer.Main

open AisServer.Lib AisServer.Store AisServer.Nmea AisServer.Ingest AisServer.Stream AisServer.Forward

variable {C : CacheOps Str Time} {digest : Str → Str} {cfg : Config} {ringSize queueSize : ℕ} {startedAt : Time}

namespace Server

variable {s t : Server C} {e : ServerEvent}

/-! ### In time -/

/-- The wall clock does not go back, and a session pushes its sentence within the hold time of its arrival, with no
time in it that is earlier than what was released. -/
def InTime (s : Server C) : ServerEvent → Prop
  | .push i now => s.pipeline.clock ≤ now ∧ ∀ x ∈ s.pipeline.checked, (i, x.1.id) ∈ s.inside →
      Pipeline.Prompt s.pipeline x.1 now ∧ Pipeline.NotStale s.pipeline x.1 now
  | .popReady now => s.pipeline.clock ≤ now
  | _ => True

instance (s : Server C) : ∀ e, Decidable (InTime s e)
  | .push i now => inferInstanceAs (Decidable (s.pipeline.clock ≤ now ∧ ∀ x ∈ s.pipeline.checked,
      (i, x.1.id) ∈ s.inside → Pipeline.Prompt s.pipeline x.1 now ∧ Pipeline.NotStale s.pipeline x.1 now))
  | .popReady now => inferInstanceAs (Decidable (s.pipeline.clock ≤ now))
  | .ingest _ | .check .. | .record _ | .dispatch | .hub _ => inferInstanceAs (Decidable True)

theorem chronological_step (hs : s.pipeline.Chronological) (hg : s.InTime e) (h : s.step digest e = some t) :
    t.pipeline.Chronological := by
  cases step_transition h with
  | ingest e b hfree hst => exact hs
  | check i sentence key ts now p hfind hst => refine hs.step ?_ ?_ ?_ hst <;> trivial
  | push i n k now p hfind hk hst =>
    obtain ⟨hclock, hpush⟩ := hg
    obtain ⟨hlt, hid, -⟩ := List.findIdx?_eq_some_iff_getElem.1 hk
    have hcall : ∀ x ∈ s.pipeline.checked[k]?,
        Pipeline.Prompt s.pipeline x.1 now ∧ Pipeline.NotStale s.pipeline x.1 now := by
      intro x hx
      obtain ⟨-, rfl⟩ := List.getElem?_eq_some_iff.1 hx
      refine hpush _ (List.getElem_mem hlt) ?_
      rw [of_decide_eq_true hid]
      exact List.mem_of_find?_eq_some hfind
    refine hs.step ?_ ?_ ?_ hst
    · exact hclock
    · exact fun x hx => (hcall x hx).1
    · exact fun x hx => (hcall x hx).2
  | record i n k p hfind hk hst => refine hs.step ?_ ?_ ?_ hst <;> trivial
  | popReady now p hst =>
    refine hs.step ?_ ?_ ?_ hst
    · exact hg
    · trivial
    · trivial
  | dispatch c p hub hc hst hhub => refine hs.step ?_ ?_ ?_ hst <;> trivial
  | hub e hub he hst => exact hs

theorem chronological_of_run {es : List ServerEvent}
    (h : run (step digest) (new C cfg ringSize startedAt queueSize) es = some s)
    (hg : Guarded (step digest) InTime (new C cfg ringSize startedAt queueSize) es) : s.pipeline.InOrder :=
  Pipeline.Chronological.inOrder (run_inv (I := fun s : Server C => s.pipeline.Chronological)
    (fun _ _ _ hs hc hst => chronological_step hs hc hst) (Pipeline.chronological_new cfg ringSize startedAt) hg h)

end Server

/-- **The order at an endpoint.**  In every run of the whole server in which the wall clock does not go back, every
sentence is pushed within the hold time of its arrival and no time in it is earlier than what was released, a UDP or
HTTP worker, and a TCP worker that has counted no error, has sent sentences of its window in the order of their times,
whichever nodes they came from. -/
theorem endpoint_chronological {es : List ServerEvent} {s : Server C}
    (h : run (Server.step digest) (Server.new C cfg ringSize startedAt queueSize) es = some s)
    (hg : Guarded (Server.step digest) Server.InTime (Server.new C cfg ringSize startedAt queueSize) es) {r : Ref}
    {l : Loop} (hr : s.hub.fleet.threads[r]? = some l) (hl : l.InOrder) :
    ∃ calls : List Call, calls.Sublist (s.window r) ∧ l.Delivered (calls.map (·.sentence)) ∧
      calls.Pairwise fun c d => c.key ≤ d.key := by
  obtain ⟨hubEvents, hhub⟩ := Server.hub_of_run h
  obtain ⟨loopEvents, hloop, hgiven⟩ := Hub.worker_of_run hhub hr
  obtain ⟨sentences, hdelivered, hsub⟩ := Loop.delivered_in_order hloop hl
  have hwindow := (Hub.inv_of_run hhub).window r (List.getElem?_eq_some_iff.1 hr).1
  have hall : sentences.Sublist ((s.window r).map (·.sentence)) := by
    refine hsub.trans ?_
    rw [hgiven, ← (Server.linked_of_run h).window r, ← hwindow]
    exact List.sublist_append_left _ _
  obtain ⟨calls, hcalls, rfl⟩ := List.sublist_map_iff.1 hall
  refine ⟨calls, hcalls, hdelivered, ?_⟩
  exact (Server.chronological_of_run h hg).sublist (hcalls.trans (s.window_sublist r))

/-- The reports of both nodes leave in their order, over TCP. -/
theorem endpoint_chronological_twoNodes :
    ∃ s l, run (Server.step id) (Server.new (refCache Str Time 10 30) ⟨30, 10, 2000, 3⟩ 500 100 9) twoNodes = some s ∧
      s.hub.fleet.threads[0]? = some l ∧ (sentOverTcp l).length = 2 ∧
      ∃ calls : List Call, l.Delivered (calls.map (·.sentence)) ∧ calls.Pairwise fun c d => c.key ≤ d.key := by
  have hrun : (run (Server.step id) (Server.new (refCache Str Time 10 30) ⟨30, 10, 2000, 3⟩ 500 100 9)
      twoNodes).bind (fun s => (s.hub.fleet.threads[0]?).map fun l =>
        ((sentOverTcp l).length, l.worker.stats.errors)) = some (2, 0) := by decide +kernel
  obtain ⟨s, hs, hfacts⟩ := Option.bind_eq_some_iff.1 hrun
  obtain ⟨l, hl, hfacts⟩ := Option.map_eq_some_iff.1 hfacts
  obtain ⟨hsent, herrors⟩ := Prod.mk.inj hfacts
  have horder : l.InOrder := by
    cases l with
    | tcp w => exact herrors
    | udp w => trivial
    | http w => trivial
  obtain ⟨calls, -, hdelivered, hsorted⟩ := endpoint_chronological hs (by decide +kernel) hl horder
  exact ⟨s, l, hs, hl, hsent, calls, hdelivered, hsorted⟩

end AisServer.Main
