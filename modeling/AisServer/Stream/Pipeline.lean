import AisServer.Nmea.Payload
import AisServer.Stream.Dedup
import AisServer.Stream.Events
import AisServer.Stream.Reorder
import Mathlib.Data.List.AList

/-!
# The pipeline under any interleaving

`Pipeline.step` interleaves the session threads, each of which is inside a call of `on_sentence`, with
the output loop.  A call is three steps, cut where the source takes a lock: `check`, then for a new
sentence `push`, then `record` (the rate, the MMSI table and the event).  The output loop is `popReady`,
then a `dispatch` for every item that was popped.

The state keeps, next to the fields of the source, where every call is: the calls between two of
their steps, the items popped and not yet dispatched, and the history (`accepted`, `overflowed`,
`dispatched`).  `clock` is the last reading of the wall clock and `cacheClock` that of the timer of
the cache; the code reads the wall clock in `popReady` only, so the reading of a `push` is part of
the history too.
-/

namespace AisServer.Stream

open AisServer.Lib AisServer.Nmea

/-- `parts[5] if len(parts) > 5 else ""` of the whole sentence -/
def payloadOf (sentence : Str) : Str := (sentence.splitOn ',').getD 5 []

/-- The sentence's own UTC time, when there is one. -/
def intrinsic (sentence : Str) : Option Time :=
  if payloadOf sentence = [] then none else extractTimestamp (payloadOf sentence)

/-- The ordering key of a sentence that was first seen at `effectiveTs`. -/
def orderingKey (sentence : Str) (effectiveTs : Time) : Time := (intrinsic sentence).getD effectiveTs

/-- A call of `on_sentence`.  Its item in the heap carries the sentence, the peer and the arrival
time; the number of the call and the time of its check are history. -/
structure Call where
  id : ℕ
  sentence : Str
  peer : Str
  arrivalTs : Time
  checkedAt : Time

/-- The ordering key of a call that was new. -/
def Call.key (c : Call) : Time := orderingKey c.sentence c.arrivalTs

/-- The part of the configuration that the pipeline reads. -/
structure Config where
  ttlSeconds : ℕ
  maxEntries : ℕ
  holdMs : ℕ
  maxQueue : ℕ

structure Pipeline (C : CacheOps Str Time) where
  dedup : Deduper C
  reorder : ReorderBuffer Call
  rateBucket : List Time := []
  mmsiLast : AList fun _ : ℕ => Time := ∅
  events : EventBus
  /-- New sentences before their push, with the timestamp that `check` returned. -/
  checked : List (Call × Time) := []
  /-- Pushed sentences whose call has not returned. -/
  recording : List Call := []
  /-- The rest of `ready` in the output loop. -/
  awaiting : List Call := []
  calls : ℕ := 0
  accepted : List Call := []
  overflowed : List Call := []
  dispatched : List Call := []
  startedAt : Time
  clock : Time := startedAt
  cacheClock : Time := 0

/-- One atomic step of some thread. -/
inductive PipelineEvent
  /-- A thread enters `on_sentence`; `now` is the timer of the cache. -/
  | check (sentence peer : Str) (arrivalTs now : Time)
  /-- The `i`-th of the waiting calls pushes its item. -/
  | push (i : ℕ) (now : Time)
  /-- The `i`-th of the pushed calls does the rest of its work and returns. -/
  | record (i : ℕ)
  | popReady (now : Time)
  | dispatch

namespace Pipeline

variable {C : CacheOps Str Time}

def new (C : CacheOps Str Time) (cfg : Config) (ringSize : ℕ) (startedAt : Time) : Pipeline C :=
  { dedup := Deduper.new C
    reorder := ReorderBuffer.new cfg.holdMs cfg.maxQueue
    events := { ringSize }
    startedAt }

/-- `deque(maxlen=10_000)` -/
def rateMaxlen : ℕ := 10000

/-- What `on_sentence` does after the push. -/
def recordCall (s : Pipeline C) (c : Call) : Pipeline C :=
  let payload := payloadOf c.sentence
  let mmsi := if payload = [] then none else (extractMmsiAndType payload).map Prod.fst
  { s with
    rateBucket := EventBus.keepLast rateMaxlen (s.rateBucket ++ [c.arrivalTs])
    mmsiLast := match mmsi with
      | some (m + 1) => s.mmsiLast.insert (m + 1) c.arrivalTs
      | _ => s.mmsiLast
    events := s.events.publish "incoming".toList (.incoming c.sentence c.peer c.arrivalTs mmsi) }

/-- A step, `none` when it is not possible: the timer of the cache does not go back, a call is where
the step takes it from, and the output loop pops only when `ready` has been dispatched. -/
def step (digest : Str → Str) (s : Pipeline C) : PipelineEvent → Option (Pipeline C)
  | .check sentence peer arrivalTs now =>
    if now < s.cacheClock then none
    else
      let c : Call := ⟨s.calls, sentence, peer, arrivalTs, now⟩
      match s.dedup.check digest sentence arrivalTs now with
      | (dedup, some (true, ts)) =>
        some { s with
          dedup, calls := s.calls + 1, cacheClock := now
          checked := s.checked ++ [(c, ts)], accepted := s.accepted ++ [c] }
      -- a duplicate returns, a full cache raises: the call is over
      | (dedup, _) => some { s with dedup, calls := s.calls + 1, cacheClock := now }
  | .push i now =>
    match s.checked[i]? with
    | none => none
    | some (c, ts) =>
      (s.reorder.push c (orderingKey c.sentence ts)).map fun reorder =>
        { s with
          reorder, clock := now
          checked := s.checked.eraseIdx i, recording := s.recording ++ [c]
          overflowed := s.overflowed ++ s.reorder.oldest.toList.map (·.payload) }
  | .record i =>
    match s.recording[i]? with
    | none => none
    | some c => some { s.recordCall c with recording := s.recording.eraseIdx i }
  | .popReady now =>
    match s.awaiting with
    | [] =>
      let r := s.reorder.popReady now
      some { s with reorder := r.2, awaiting := r.1, clock := now }
    | _ :: _ => none
  | .dispatch =>
    match s.awaiting with
    | [] => none
    | c :: awaiting => some { s with awaiting, dispatched := s.dispatched ++ [c] }

/-! ### What a step can do -/

variable {digest : Str → Str} {s t : Pipeline C} {sentence peer : Str} {arrivalTs now : Time} {i : ℕ}

/-- The call that a check makes. -/
def newCall (s : Pipeline C) (sentence peer : Str) (arrivalTs now : Time) : Call :=
  ⟨s.calls, sentence, peer, arrivalTs, now⟩

theorem step_check (h : s.step digest (.check sentence peer arrivalTs now) = some t) :
    s.cacheClock ≤ now ∧
    ((∃ d, s.dedup.check digest sentence arrivalTs now = (d, some (true, arrivalTs)) ∧
      t = { s with
        dedup := d, calls := s.calls + 1, cacheClock := now
        checked := s.checked ++ [(s.newCall sentence peer arrivalTs now, arrivalTs)]
        accepted := s.accepted ++ [s.newCall sentence peer arrivalTs now] }) ∨
    (∃ d, d.cache = (C.get s.dedup.cache now (dedupKey digest sentence)).2 ∧
      t = { s with dedup := d, calls := s.calls + 1, cacheClock := now })) := by
  rw [step] at h
  by_cases hlt : now < s.cacheClock
  · simp [hlt] at h
  · rw [if_neg hlt] at h
    refine ⟨not_lt.1 hlt, ?_⟩
    rcases hc : s.dedup.check digest sentence arrivalTs now with ⟨d, _ | ⟨_ | _, ts⟩⟩
    · simp only [hc, Option.some.injEq] at h
      exact Or.inr ⟨d, Deduper.check_raises hc, h.symm⟩
    · simp only [hc, Option.some.injEq] at h
      exact Or.inr ⟨d, Deduper.check_not_new hc, h.symm⟩
    · obtain ⟨rfl, -⟩ := Deduper.check_new hc
      simp only [hc, Option.some.injEq] at h
      exact Or.inl ⟨d, rfl, h.symm⟩

theorem step_push (h : s.step digest (.push i now) = some t) :
    ∃ c ts b, s.checked[i]? = some (c, ts) ∧
      s.reorder.push c (orderingKey c.sentence ts) = some b ∧
      t = { s with
        reorder := b, clock := now
        checked := s.checked.eraseIdx i, recording := s.recording ++ [c]
        overflowed := s.overflowed ++ s.reorder.oldest.toList.map (·.payload) } := by
  rw [step] at h
  rcases hi : s.checked[i]? with _ | ⟨c, ts⟩
  · simp [hi] at h
  · simp only [hi, Option.map_eq_some_iff] at h
    obtain ⟨b, hb, rfl⟩ := h
    exact ⟨c, ts, b, rfl, hb, rfl⟩

theorem step_record (h : s.step digest (.record i) = some t) :
    ∃ rateBucket mmsiLast events recording,
      t = { s with rateBucket, mmsiLast, events, recording } := by
  rw [step] at h
  rcases hi : s.recording[i]? with _ | c
  · simp [hi] at h
  · simp only [hi, Option.some.injEq] at h
    obtain ⟨rateBucket, mmsiLast, events, hc⟩ : ∃ rateBucket mmsiLast events,
        s.recordCall c = { s with rateBucket, mmsiLast, events } := ⟨_, _, _, rfl⟩
    rw [hc] at h
    exact ⟨rateBucket, mmsiLast, events, _, h.symm⟩

theorem step_popReady (h : s.step digest (.popReady now) = some t) :
    s.awaiting = [] ∧
      t = { s with
        reorder := (s.reorder.popReady now).2
        awaiting := (s.reorder.ready now).map (·.payload), clock := now } := by
  rw [step] at h
  rcases ha : s.awaiting with _ | ⟨c, l⟩
  · simp only [ha, Option.some.injEq] at h
    exact ⟨rfl, h.symm⟩
  · simp [ha] at h

theorem step_dispatch (h : s.step digest .dispatch = some t) :
    ∃ c awaiting, s.awaiting = c :: awaiting ∧
      t = { s with awaiting, dispatched := s.dispatched ++ [c] } := by
  rw [step] at h
  rcases ha : s.awaiting with _ | ⟨c, l⟩
  · simp [ha] at h
  · simp only [ha, Option.some.injEq] at h
    exact ⟨c, l, rfl, h.symm⟩

theorem step_push_isSome (hq : 1 ≤ s.reorder.maxQueue) {x : Call × Time}
    (hi : s.checked[i]? = some x) : ∃ t, s.step digest (.push i now) = some t := by
  obtain ⟨b, hb⟩ := ReorderBuffer.push_isSome hq x.1 (orderingKey x.1.sentence x.2)
  rw [step]
  simp only [hi, hb, Option.map_some]
  exact ⟨_, rfl⟩

/-! ### The keys in the heap -/

/-- Every waiting call has its own arrival time as effective timestamp, and every item of the heap has
the ordering key of its call as timestamp. -/
structure Keyed (s : Pipeline C) : Prop where
  checked : ∀ x ∈ s.checked, x.2 = x.1.arrivalTs
  heap : ∀ i ∈ s.reorder.heap.items, i.ts = i.payload.key

theorem keyed_new (cfg : Config) (ringSize : ℕ) (startedAt : Time) :
    Keyed (new C cfg ringSize startedAt) where
  checked := by simp [new]
  heap := by simp [new, ReorderBuffer.new]

theorem Keyed.step {e : PipelineEvent} (hs : Keyed s) (h : s.step digest e = some t) : Keyed t := by
  cases e with
  | check sentence peer arrivalTs now =>
    obtain ⟨-, ⟨d, -, rfl⟩ | ⟨d, -, rfl⟩⟩ := step_check h
    · refine ⟨fun x hx => ?_, hs.heap⟩
      rcases List.mem_append.1 hx with hx | hx
      · exact hs.checked x hx
      · obtain rfl := List.mem_singleton.1 hx
        rfl
    · exact ⟨hs.checked, hs.heap⟩
  | push i now =>
    obtain ⟨c, ts, b, hi, hb, rfl⟩ := step_push h
    have hc : ts = c.arrivalTs := hs.checked (c, ts) (List.mem_of_getElem? hi)
    refine ⟨fun x hx => hs.checked x ((List.eraseIdx_sublist _ _).subset hx), fun x hx => ?_⟩
    rcases ReorderBuffer.mem_push hb hx with rfl | hx
    · show orderingKey c.sentence ts = c.key
      rw [hc]
      rfl
    · exact hs.heap x hx
  | record i =>
    obtain ⟨rate, mmsi, events, recording, rfl⟩ := step_record h
    exact ⟨hs.checked, hs.heap⟩
  | popReady now =>
    obtain ⟨-, rfl⟩ := step_popReady h
    refine ⟨hs.checked, fun x hx => hs.heap x ?_⟩
    have hx : x ∈ (s.reorder.popReady now).2.heap.items := hx
    rw [ReorderBuffer.popReady_items] at hx
    exact (List.mem_filter.1 hx).1
  | dispatch =>
    obtain ⟨c, rest, -, rfl⟩ := step_dispatch h
    exact ⟨hs.checked, hs.heap⟩

theorem holdS_step {e : PipelineEvent} (h : s.step digest e = some t) :
    t.reorder.holdS = s.reorder.holdS := by
  cases e with
  | check sentence peer arrivalTs now =>
    obtain ⟨-, ⟨d, -, rfl⟩ | ⟨d, -, rfl⟩⟩ := step_check h <;> rfl
  | push i now =>
    obtain ⟨c, ts, b, -, hb, rfl⟩ := step_push h
    exact (ReorderBuffer.push_spec hb).2.1
  | record i => obtain ⟨rate, mmsi, events, recording, rfl⟩ := step_record h; rfl
  | popReady now => obtain ⟨-, rfl⟩ := step_popReady h; rfl
  | dispatch => obtain ⟨c, rest, -, rfl⟩ := step_dispatch h; rfl

end Pipeline

end AisServer.Stream
