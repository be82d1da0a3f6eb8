import AisServer.Forward.Capacity
import AisServer.Forward.Order
import AisServer.Lib.Run
import Mathlib.Tactic.Linarith

/-!
# How long an HTTP worker keeps a sentence

The batch is looked at once in each turn of the loop, and whether it is old enough goes by the time of the last flush,
not by that of its sentences.  `TimedHttp` keeps for every sentence of the batch the time at which the turn began in
which it was taken.

* `Punctual.step` — between turns no sentence has been in the batch for more than a second;
* `http_batch_timely` — so none is posted later than that and one turn.
-/

namespace AisServer.Forward

open AisServer.Lib AisServer.Store

structure TimedHttp where
  http : HttpForwarder
  /-- When the loop last read the clock. -/
  clock : Time := 0
  /-- For every sentence of the batch, the clock when it was taken. -/
  taken : List Time := []

namespace TimedHttp

variable {δ : Time} {s t : TimedHttp} {e : HttpEvent}

def new (ep : Endpoint) (queueSize : ℕ) : TimedHttp := { http := .new ep queueSize }

/-- The clock after an event: `time.time()` is read at the start and in every turn. -/
def readClock (s : TimedHttp) : HttpEvent → Time
  | .start now | .flush now => now
  | _ => s.clock

def step (s : TimedHttp) (e : HttpEvent) : Option TimedHttp :=
  (s.http.step e).map fun http =>
    { http, clock := s.readClock e, taken := (s.taken ++ [s.clock]).take http.batch.length }

/-- The clock does not go back, and no turn takes longer than `δ`. -/
def InTurn (δ : Time) (s : TimedHttp) : HttpEvent → Prop
  | .flush now => s.clock ≤ now ∧ now ≤ s.clock + δ
  | _ => True

instance : Decidable (InTurn δ s e) :=
  match e with
  | .flush _ => inferInstanceAs (Decidable (_ ∧ _))
  | .feed _ | .start _ | .check | .get | .post _ => isTrue trivial

/-- What holds of the sentences of the batch where the thread stands. -/
structure Punctual (δ : Time) (s : TimedHttp) : Prop where
  length : s.taken.length = s.http.batch.length
  start : s.http.pc = .start → s.http.batch = []
  lastFlush : s.http.pc ≠ .start → s.http.lastFlush ≤ s.clock
  since : ∀ x ∈ s.taken, s.http.lastFlush ≤ x
  kept : s.http.pc = .loop ∨ s.http.pc = .get → s.http.batch ≠ [] →
    s.http.batch.length < 100 ∧ s.clock ≤ s.http.lastFlush + 1
  waiting : (∀ now, s.http.pc ≠ .post now) → ∀ x ∈ s.taken, s.clock ≤ x + 1
  posting : ∀ now, s.http.pc = .post now → s.clock = now ∧ ∀ x ∈ s.taken, now ≤ x + 1 + δ

theorem punctual_new (δ : Time) (ep : Endpoint) (queueSize : ℕ) : (new ep queueSize).Punctual δ := by
  constructor <;> simp [new, HttpForwarder.new]

theorem take_taken (hs : s.Punctual δ) : (s.taken ++ [s.clock]).take s.http.batch.length = s.taken := by
  rw [← hs.length, List.take_left']
  rfl

/-- An event that leaves the batch and the clock alone, and after which the thread stands at no later place of the
turn. -/
theorem Punctual.of_frame (hs : s.Punctual δ) {http : HttpForwarder} (hbatch : http.batch = s.http.batch)
    (hflush : http.lastFlush = s.http.lastFlush)
    (hpc : http.pc = s.http.pc ∨ s.http.pc = .loop ∧ (http.pc = .get ∨ http.pc = .finished)) :
    Punctual δ { http, clock := s.clock, taken := (s.taken ++ [s.clock]).take http.batch.length } := by
  rw [hbatch, take_taken hs]
  refine ⟨by rw [hbatch]; exact hs.length, ?_, ?_, by rw [hflush]; exact hs.since, ?_, ?_, ?_⟩
  · rw [hbatch]
    obtain hpc | ⟨-, hpc | hpc⟩ := hpc
    · rw [hpc]
      exact hs.start
    · simp [hpc]
    · simp [hpc]
  · rw [hflush]
    intro hstart
    refine hs.lastFlush ?_
    obtain hpc | ⟨hloop, -⟩ := hpc
    · rwa [← hpc]
    · simp [hloop]
  · rw [hbatch, hflush]
    intro hplace
    refine hs.kept ?_
    obtain hpc | ⟨hloop, -⟩ := hpc
    · rwa [← hpc]
    · exact Or.inl hloop
  · intro hpost
    refine hs.waiting fun now hnow => ?_
    obtain hpc | ⟨hloop, -⟩ := hpc
    · exact hpost now (hpc.trans hnow)
    · rw [hloop] at hnow
      cases hnow
  · intro now hnow
    obtain hpc | ⟨-, hpc | hpc⟩ := hpc
    · exact hs.posting now (hpc ▸ hnow)
    · rw [hpc] at hnow
      cases hnow
    · rw [hpc] at hnow
      cases hnow

/-- The sentence that is taken in a turn has the clock of its beginning. -/
theorem Punctual.get (hs : s.Punctual δ) (h : s.step .get = some t) : t.Punctual δ := by
  obtain ⟨http, hst, rfl⟩ := Option.map_eq_some_iff.1 h
  obtain ⟨hpc, hst⟩ := HttpForwarder.step_get hst
  have hclock : s.http.lastFlush ≤ s.clock := hs.lastFlush (by simp [hpc])
  have hwaiting : ∀ x ∈ s.taken, s.clock ≤ x + 1 := hs.waiting (by simp [hpc])
  obtain ⟨-, rfl⟩ | ⟨q, queue, hq, rfl⟩ := hst
  · refine ⟨?_, by simp, fun _ => hclock, ?_, by simp, fun _ => ?_, by simp⟩
    · simp [hs.length]
    · show ∀ x ∈ (s.taken ++ [s.clock]).take s.http.batch.length, _
      rw [take_taken hs]
      exact hs.since
    · show ∀ x ∈ (s.taken ++ [s.clock]).take s.http.batch.length, _
      rw [take_taken hs]
      exact hwaiting
  · have htake : ∀ x ∈ (s.taken ++ [s.clock]).take (if q.nonempty then s.http.batch ++ [q] else s.http.batch).length,
        x ∈ s.taken ∨ x = s.clock := by
      intro x hx
      simpa using List.mem_of_mem_take hx
    refine ⟨?_, by simp, fun _ => hclock, fun x hx => ?_, by simp, fun _ x hx => ?_, by simp⟩
    · show ((s.taken ++ [s.clock]).take (if q.nonempty then s.http.batch ++ [q] else s.http.batch).length).length =
        (if q.nonempty then s.http.batch ++ [q] else s.http.batch).length
      split <;> simp [hs.length]
    · rcases htake x hx with hx | rfl
      · exact hs.since x hx
      · exact hclock
    · show s.clock ≤ x + 1
      rcases htake x hx with hx | rfl
      · exact hwaiting x hx
      · linarith

/-- At the end of a turn the batch is posted, or it is small and young. -/
theorem Punctual.flush (hs : s.Punctual δ) {now : Time} (hc : InTurn δ s (.flush now))
    (h : s.step (.flush now) = some t) : t.Punctual δ := by
  obtain ⟨http, hst, rfl⟩ := Option.map_eq_some_iff.1 h
  obtain ⟨hle, hturn⟩ := hc
  obtain ⟨hpc, rfl⟩ := HttpForwarder.step_flush hst
  have hclock : s.http.lastFlush ≤ s.clock := hs.lastFlush (by simp [hpc])
  have hwaiting : ∀ x ∈ s.taken, s.clock ≤ x + 1 := hs.waiting (by simp [hpc])
  have htaken : (s.taken ++ [s.clock]).take s.http.batch.length = s.taken := take_taken hs
  rcases hflushes : s.http.flushes now with _ | _
  · have hyoung : s.http.batch ≠ [] → s.http.batch.length < 100 ∧ now ≤ s.http.lastFlush + 1 := by
      intro hne
      simp only [HttpForwarder.flushes, hne, ne_eq, not_false_eq_true, true_and, decide_eq_false_iff_not, not_or,
        not_le, not_lt] at hflushes
      exact ⟨hflushes.1, by linarith [hflushes.2]⟩
    refine ⟨?_, by simp, fun _ => hclock.trans hle, ?_, fun _ => hyoung, fun _ x hx => ?_, by simp⟩
    · simp [hs.length]
    · show ∀ x ∈ (s.taken ++ [s.clock]).take s.http.batch.length, _
      rw [htaken]
      exact hs.since
    · replace hx : x ∈ s.taken := htaken ▸ hx
      have hne : s.http.batch ≠ [] := by
        rw [← List.length_pos_iff, ← hs.length]
        exact List.length_pos_of_mem hx
      have hnow : now ≤ s.http.lastFlush + 1 := (hyoung hne).2
      have hsince := hs.since x hx
      show now ≤ x + 1
      linarith
  · refine ⟨?_, by simp, fun _ => hclock.trans hle, ?_, by simp, fun hpost => absurd rfl (hpost now), ?_⟩
    · simp [hs.length]
    · show ∀ x ∈ (s.taken ++ [s.clock]).take s.http.batch.length, _
      rw [htaken]
      exact hs.since
    · intro now' hnow'
      obtain rfl : now = now' := by simpa using hnow'
      refine ⟨rfl, fun x hx => ?_⟩
      replace hx : x ∈ s.taken := htaken ▸ hx
      have := hwaiting x hx
      linarith

theorem Punctual.step (hs : s.Punctual δ) (hc : InTurn δ s e) (h : s.step e = some t) : t.Punctual δ := by
  cases e with
  | feed e =>
    obtain ⟨http, hst, rfl⟩ := Option.map_eq_some_iff.1 h
    obtain ⟨feed, -, rfl⟩ := Option.map_eq_some_iff.1 hst
    exact hs.of_frame rfl rfl (Or.inl rfl)
  | start now =>
    obtain ⟨http, hst, rfl⟩ := Option.map_eq_some_iff.1 h
    obtain ⟨hpc, rfl⟩ := HttpForwarder.step_start hst
    have hbatch := hs.start hpc
    refine ⟨?_, by simp, fun _ => le_rfl, ?_, fun _ hne => absurd hbatch hne, fun _ => ?_, by simp⟩
    · simp [hbatch]
    · simp [hbatch]
    · simp [hbatch]
  | check =>
    obtain ⟨http, hst, rfl⟩ := Option.map_eq_some_iff.1 h
    obtain ⟨hpc, ⟨-, rfl⟩ | ⟨-, rfl⟩⟩ := HttpForwarder.step_check hst
    · exact hs.of_frame rfl rfl (Or.inr ⟨hpc, Or.inr rfl⟩)
    · exact hs.of_frame rfl rfl (Or.inr ⟨hpc, Or.inl rfl⟩)
  | get => exact hs.get h
  | flush now => exact hs.flush hc h
  | post err =>
    obtain ⟨http, hst, rfl⟩ := Option.map_eq_some_iff.1 h
    obtain ⟨now, hpc, rfl⟩ := HttpForwarder.step_post hst
    obtain ⟨hclock, -⟩ := hs.posting now hpc
    cases err with
    | none => constructor <;> simp [HttpForwarder.tryPost, readClock, hclock]
    | some err => constructor <;> simp [HttpForwarder.tryPost, readClock, hclock]

/-- The times are only kept beside the worker. -/
theorem http_of_run {es : List HttpEvent} (h : run step s es = some t) :
    run HttpForwarder.step s.http es = some t.http := by
  induction es generalizing s with
  | nil =>
    obtain rfl : s = t := by simpa using h
    rfl
  | cons e es ih =>
    obtain ⟨u, hst, hrun⟩ := run_cons_some h
    obtain ⟨http, hhttp, rfl⟩ := Option.map_eq_some_iff.1 hst
    rw [run_cons, hhttp, Option.bind_some]
    exact ih hrun

end TimedHttp

/-- **An HTTP worker posts in time.**  In every run of its loop and its feed in which the clock does not go back and no
turn takes longer than `δ`, fewer than a hundred sentences are left in the batch after a turn, none of which was taken in
a turn that began more than a second ago, and no sentence that is posted was taken in a turn that began more than
`1 + δ` seconds before. -/
theorem http_batch_timely {ep : Endpoint} {queueSize : ℕ} {δ : Time} {es : List HttpEvent} {s : TimedHttp}
    (h : run TimedHttp.step (.new ep queueSize) es = some s)
    (hg : Guarded TimedHttp.step (TimedHttp.InTurn δ) (.new ep queueSize) es) :
    run HttpForwarder.step (.new ep queueSize) es = some s.http ∧ s.taken.length = s.http.batch.length ∧
    (s.http.pc = .loop → s.http.batch.length < 100 ∧ ∀ x ∈ s.taken, s.clock ≤ x + 1) ∧
    ∀ now, s.http.pc = .post now → s.http.batch.length ≤ 100 ∧ ∀ x ∈ s.taken, now ≤ x + 1 + δ := by
  have hs : s.Punctual δ := run_inv (fun _ _ _ hs hc hst => hs.step hc hst) (TimedHttp.punctual_new δ ep queueSize) hg h
  have hhttp := TimedHttp.http_of_run h
  have hcollecting : s.http.Collecting queueSize :=
    run_inv_of_step (fun _ _ _ hs hst => hs.step hst) ⟨⟨rfl, fun _ => Nat.zero_le _⟩, Nat.zero_le _⟩ hhttp
  have hbatch := hcollecting.batch
  refine ⟨hhttp, hs.length, fun hpc => ⟨?_, hs.waiting (by simp [hpc])⟩, fun now hpc => ⟨?_, (hs.posting now hpc).2⟩⟩
  · rw [HttpForwarder.batchMax, hpc] at hbatch
    exact Nat.lt_succ_of_le hbatch
  · rwa [HttpForwarder.batchMax, hpc] at hbatch

/-- Two sentences are taken in turns of half a second and posted in the third. -/
def threeTurns : List HttpEvent :=
  [.start 0, .feed (.put ['a']), .check, .get, .flush (1 / 2), .feed (.put ['b']), .check, .get, .flush 1, .check, .get,
    .flush (3 / 2)]

theorem http_batch_timely_threeTurns : ∃ s, run TimedHttp.step (.new tcpEndpoint 10) threeTurns = some s ∧
    s.taken = [0, 1 / 2] ∧ ∀ x ∈ s.taken, 3 / 2 ≤ x + 1 + 1 / 2 := by
  have hrun : (run TimedHttp.step (.new tcpEndpoint 10) threeTurns).map (fun s => (s.taken, s.http.pc)) =
      some ([0, 1 / 2], .post (3 / 2)) := by decide +kernel
  obtain ⟨s, hs, hfacts⟩ := Option.map_eq_some_iff.1 hrun
  obtain ⟨htaken, hpc⟩ := Prod.mk.inj hfacts
  have hturns : Guarded TimedHttp.step (TimedHttp.InTurn (1 / 2)) (.new tcpEndpoint 10) threeTurns := by decide +kernel
  exact ⟨s, hs, htaken, ((http_batch_timely hs hturns).2.2.2 _ hpc).2⟩

end AisServer.Forward
