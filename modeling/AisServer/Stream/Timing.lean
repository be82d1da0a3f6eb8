import AisServer.Stream.Pipeline
import Mathlib.Algebra.Order.Group.MinMax
import Mathlib.Tactic.Linarith

/-!
# How long a sentence is held, and in which order sentences leave

The buffer orders by the time that a Type 4 or 11 sentence carries, and by the arrival time where
there is none.  A time that a station sends is not bound to the clock of the server, and what the
documentation says of the hold time and of the order of the output depends on it.

* `bounded_hold` — no sentence is held longer than `holdS`, exactly when no pushed sentence carries a
  time that is later than its arrival and not yet past the cutoff;
* `chronological_output` — sentences leave in the order of their keys, exactly when no pushed sentence
  carries a time that is earlier than a key that was already released.
-/

namespace AisServer.Stream

open AisServer.Lib AisServer.Nmea

variable {C : CacheOps Str Time} {digest : Str → Str} {cfg : Config} {ringSize : ℕ} {startedAt : Time}

namespace Pipeline

variable {s t : Pipeline C} {e : PipelineEvent}

/-! ### Conditions on a run -/

/-- The wall clock does not go back. -/
def Forward (s : Pipeline C) : PipelineEvent → Prop
  | .push _ now => s.clock ≤ now
  | .popReady now => s.clock ≤ now
  | _ => True

instance (s : Pipeline C) : ∀ e, Decidable (Forward s e)
  | .push _ now => inferInstanceAs (Decidable (s.clock ≤ now))
  | .popReady now => inferInstanceAs (Decidable (s.clock ≤ now))
  | .check .. | .record _ | .dispatch => inferInstanceAs (Decidable True)

/-- `P` holds of every call that is pushed, at the reading of its push. -/
def Pushes (P : Pipeline C → Call → Time → Prop) (s : Pipeline C) : PipelineEvent → Prop
  | .push i now => ∀ x ∈ s.checked[i]?, P s x.1 now
  | _ => True

instance (P : Pipeline C → Call → Time → Prop) [∀ s c now, Decidable (P s c now)]
    (s : Pipeline C) : ∀ e, Decidable (Pushes P s e)
  | .push i now => inferInstanceAs (Decidable (∀ x ∈ s.checked[i]?, P s x.1 now))
  | .check .. | .record _ | .popReady _ | .dispatch => inferInstanceAs (Decidable True)

/-- The sentence arrived before it is pushed. -/
def Arrived (_ : Pipeline C) (c : Call) (now : Time) : Prop := c.arrivalTs ≤ now

/-- The sentence is pushed less than `holdS` after it arrived. -/
def Prompt (s : Pipeline C) (c : Call) (now : Time) : Prop := now - c.arrivalTs < s.reorder.holdS

/-- A time that the sentence carries is not later than its arrival, or already due. -/
def Timely (s : Pipeline C) (c : Call) (now : Time) : Prop :=
  ∀ u ∈ intrinsic c.sentence, u ≤ max c.arrivalTs (now - s.reorder.holdS)

/-- What the buffer has released, in the order in which the output loop sends it. -/
def released (s : Pipeline C) : List Call := s.dispatched ++ s.awaiting

/-- A time that the sentence carries is not earlier than the key of a released sentence. -/
def NotStale (s : Pipeline C) (c : Call) (_ : Time) : Prop :=
  ∀ u ∈ intrinsic c.sentence, ∀ d ∈ s.released, d.key ≤ u

instance (s : Pipeline C) (c : Call) (now : Time) : Decidable (Arrived s c now) :=
  inferInstanceAs (Decidable (c.arrivalTs ≤ now))

instance (s : Pipeline C) (c : Call) (now : Time) : Decidable (Prompt s c now) :=
  inferInstanceAs (Decidable (now - c.arrivalTs < s.reorder.holdS))

instance (s : Pipeline C) (c : Call) (now : Time) : Decidable (Timely s c now) :=
  inferInstanceAs (Decidable (∀ u ∈ intrinsic c.sentence, u ≤ max c.arrivalTs (now - s.reorder.holdS)))

instance (s : Pipeline C) (c : Call) (now : Time) : Decidable (NotStale s c now) :=
  inferInstanceAs (Decidable (∀ u ∈ intrinsic c.sentence, ∀ d ∈ s.released, d.key ≤ u))

/-- An event of the output loop. -/
def IsOutput : PipelineEvent → Prop
  | .popReady _ | .dispatch => True
  | _ => False

theorem pushes_of_isOutput {P : Pipeline C → Call → Time → Prop} (he : IsOutput e)
    (s : Pipeline C) : Pushes P s e := by
  cases e with
  | push i now => cases he
  | check sentence peer arrivalTs now => trivial
  | record i => trivial
  | popReady now => trivial
  | dispatch => trivial

theorem run_drain (l : List Call) (s : Pipeline C) (hl : s.awaiting = l) :
    run (step digest) s (List.replicate l.length .dispatch) =
      some { s with awaiting := [], dispatched := s.released } := by
  induction l generalizing s with
  | nil =>
    cases s
    cases hl
    simp [released]
  | cons c l ih =>
    have hstep : s.step digest .dispatch =
        some { s with awaiting := l, dispatched := s.dispatched ++ [c] } := by
      rw [step]
      simp only [hl]
    rw [List.length_cons, List.replicate_succ, run_cons, hstep, Option.bind_some, ih _ rfl]
    simp [released, hl]

theorem popReady_of_awaiting_nil (ha : s.awaiting = []) (now : Time) :
    s.step digest (.popReady now) = some { s with
      reorder := (s.reorder.popReady now).2
      awaiting := (s.reorder.ready now).map (·.payload), clock := now } := by
  rw [step]
  simp only [ha]
  rfl

theorem key_of_intrinsic {c : Call} {u : Time} (hu : u ∈ intrinsic c.sentence) : c.key = u := by
  unfold Call.key orderingKey
  rw [Option.mem_def.1 hu, Option.getD_some]

/-- The call that a push outside a condition takes fails the condition, and is in the heap under its
key. -/
theorem held_of_push {P : Pipeline C → Call → Time → Prop} {i : ℕ} {now : Time} (hs : Keyed s)
    (h : s.step digest (.push i now) = some t) (hP : ¬ Pushes P s (.push i now)) :
    ∃ c, ¬ P s c now ∧ ⟨c.key, s.reorder.seq, c⟩ ∈ t.reorder.heap.items ∧ t.clock = now ∧
      t.released = s.released := by
  obtain ⟨c, ts, b, hi, hb, rfl⟩ := step_push h
  refine ⟨c, fun hc => hP fun x hx => ?_, ?_, rfl, rfl⟩
  · rw [hi, Option.mem_some_iff] at hx
    subst hx
    exact hc
  · have hts : ts = c.arrivalTs := hs.checked (c, ts) (List.mem_of_getElem? hi)
    have hmem := ReorderBuffer.mem_push_self hb
    rwa [hts] at hmem

theorem isOutput_drain (n : ℕ) : ∀ e ∈ List.replicate n PipelineEvent.dispatch, IsOutput e := by
  intro e he
  obtain rfl := List.eq_of_mem_replicate he
  trivial

theorem forward_drain (n : ℕ) (s : Pipeline C) :
    Guarded (step digest) Forward s (List.replicate n .dispatch) := by
  refine guarded_of_forall_mem fun e he s => ?_
  obtain rfl := List.eq_of_mem_replicate he
  trivial

/-- One round of the output loop: it sends what it has popped, pops again and sends that too. -/
def outputRound (s : Pipeline C) (now : Time) : List PipelineEvent :=
  List.replicate s.awaiting.length .dispatch ++
    .popReady now :: List.replicate ((s.reorder.ready now).map (·.payload)).length .dispatch

theorem isOutput_outputRound (s : Pipeline C) (now : Time) : ∀ e ∈ outputRound s now, IsOutput e := by
  intro e he
  rcases List.mem_append.1 he with he | he
  · exact isOutput_drain _ e he
  · rcases List.mem_cons.1 he with rfl | he
    · trivial
    · exact isOutput_drain _ e he

theorem forward_outputRound {now : Time} (hclock : s.clock ≤ now) :
    Guarded (step digest) Forward s (outputRound s now) := by
  refine guarded_append.2 ⟨forward_drain _ s, fun t ht => ⟨?_, fun u _ => forward_drain _ u⟩⟩
  obtain rfl := Option.some.inj ((run_drain s.awaiting s rfl).symm.trans ht)
  exact hclock

theorem run_outputRound (s : Pipeline C) (now : Time) :
    run (step digest) s (outputRound s now) = some { s with
      reorder := (s.reorder.popReady now).2, awaiting := [], clock := now
      dispatched := s.released ++ (s.reorder.ready now).map (·.payload) } := by
  unfold outputRound
  rw [run_append_of (run_drain s.awaiting s rfl), run_cons, popReady_of_awaiting_nil rfl now,
    Option.bind_some, run_drain _ _ rfl]
  rfl

/-! ### The hold time -/

/-- No sentence that arrived up to the cutoff of `now` is left in the heap. -/
def NoneOverdue (now : Time) (s : Pipeline C) : Prop :=
  ∀ i ∈ s.reorder.heap.items, now - s.reorder.holdS < i.payload.arrivalTs

instance (now : Time) (s : Pipeline C) : Decidable (NoneOverdue now s) :=
  inferInstanceAs (Decidable (∀ i ∈ s.reorder.heap.items, now - s.reorder.holdS < i.payload.arrivalTs))

/-- No item waits for a time that is later than its arrival and not yet due. -/
structure Punctual (s : Pipeline C) : Prop extends Keyed s where
  due : ∀ i ∈ s.reorder.heap.items, i.payload.key ≤ max i.payload.arrivalTs (s.clock - s.reorder.holdS)

theorem punctual_new (cfg : Config) (ringSize : ℕ) (startedAt : Time) :
    Punctual (new C cfg ringSize startedAt) where
  toKeyed := keyed_new cfg ringSize startedAt
  due := by simp [new, ReorderBuffer.new]

theorem Punctual.step (hs : Punctual s) (hf : Forward s e) (hp : Pushes Timely s e)
    (h : s.step digest e = some t) : Punctual t := by
  have hk : Keyed t := hs.toKeyed.step h
  have hhold := holdS_step h
  cases e with
  | check sentence peer arrivalTs now =>
    obtain ⟨-, ⟨d, -, rfl⟩ | ⟨d, -, rfl⟩⟩ := step_check h
    · exact ⟨hk, hs.due⟩
    · exact ⟨hk, hs.due⟩
  | push i now =>
    obtain ⟨c, ts, b, hi, hb, rfl⟩ := step_push h
    have hclock : s.clock ≤ now := hf
    have hb' : b.holdS = s.reorder.holdS := hhold
    refine ⟨hk, fun x hx => ?_⟩
    show x.payload.key ≤ max x.payload.arrivalTs (now - b.holdS)
    rw [hb']
    rcases ReorderBuffer.mem_push hb hx with rfl | hx
    · show orderingKey c.sentence c.arrivalTs ≤ max c.arrivalTs (now - s.reorder.holdS)
      unfold orderingKey
      rcases hu : intrinsic c.sentence with _ | u
      · exact le_max_left _ _
      · exact hp (c, ts) hi u hu
    · have hmono : s.clock - s.reorder.holdS ≤ now - s.reorder.holdS := by linarith
      exact (hs.due x hx).trans (max_le_max_left _ hmono)
  | record i =>
    obtain ⟨rate, mmsi, events, recording, rfl⟩ := step_record h
    exact ⟨hk, hs.due⟩
  | popReady now =>
    obtain ⟨-, rfl⟩ := step_popReady h
    have hclock : s.clock ≤ now := hf
    refine ⟨hk, fun x hx => ?_⟩
    have hx : x ∈ (s.reorder.popReady now).2.heap.items := hx
    rw [ReorderBuffer.popReady_items] at hx
    have hmono : s.clock - s.reorder.holdS ≤ now - s.reorder.holdS := by linarith
    exact (hs.due x (List.mem_filter.1 hx).1).trans (max_le_max_left _ hmono)
  | dispatch =>
    obtain ⟨c, rest, -, rfl⟩ := step_dispatch h
    exact ⟨hk, hs.due⟩

theorem Punctual.noneOverdue {now : Time} (hs : Punctual s) (hclock : s.clock ≤ now)
    (h : s.step digest (.popReady now) = some t) : NoneOverdue now t := by
  obtain ⟨-, rfl⟩ := step_popReady h
  intro i hi
  have hi : i ∈ (s.reorder.popReady now).2.heap.items := hi
  rw [ReorderBuffer.popReady_items] at hi
  obtain ⟨hi, hts⟩ := List.mem_filter.1 hi
  have hlate : now - s.reorder.holdS < i.payload.key := by
    rw [← hs.heap i hi]
    simpa using hts
  rcases le_max_iff.1 (hs.due i hi) with hdue | hdue
  · exact hlate.trans_le hdue
  · linarith

/-- A sentence with a later time is still in the heap when its hold time is over. -/
theorem overdue_of_not_timely {i : ℕ} {now : Time} (hs : Keyed s)
    (h : s.step digest (.push i now) = some t) (hc : ¬ Pushes Timely s (.push i now)) :
    ∃ now' u, t.clock ≤ now' ∧
      step digest { t with awaiting := [], dispatched := t.released } (.popReady now') = some u ∧
      ¬ NoneOverdue now' u := by
  obtain ⟨c, hlate, hmem, hclock, -⟩ := held_of_push hs h hc
  obtain ⟨u, hu, hlt⟩ : ∃ u ∈ intrinsic c.sentence,
      max c.arrivalTs (now - s.reorder.holdS) < u := by
    unfold Timely at hlate
    push Not at hlate
    exact hlate
  have hhold : t.reorder.holdS = s.reorder.holdS := holdS_step h
  -- the pop at the end of the hold time, or now when that is over
  set now' := max (c.arrivalTs + t.reorder.holdS) now with hnow'
  have hcut : now' - t.reorder.holdS = max c.arrivalTs (now - s.reorder.holdS) := by
    rw [hnow', ← max_sub_sub_right, add_sub_cancel_right, hhold]
  refine ⟨now', _, hclock.trans_le (le_max_right _ _), popReady_of_awaiting_nil rfl now',
    fun hnone => ?_⟩
  have hkept : ⟨c.key, s.reorder.seq, c⟩ ∈ (t.reorder.popReady now').2.heap.items := by
    rw [ReorderBuffer.popReady_items, List.mem_filter, hcut]
    refine ⟨hmem, ?_⟩
    simpa [key_of_intrinsic hu] using hlt
  have hfresh : now' - t.reorder.holdS < c.arrivalTs := hnone _ hkept
  exact absurd (le_max_left _ _) (not_le.2 (hcut ▸ hfresh))

/-- The next pop leaves nothing overdue. -/
def HoldBounded (digest : Str → Str) (s : Pipeline C) : Prop :=
  ∀ now t, s.clock ≤ now → s.step digest (.popReady now) = some t → NoneOverdue now t

/-! ### The order of the output -/

/-- What was released is sorted by key, comes before what is held, and is not later than the cutoff of
the last reading of the clock. -/
structure Chronological (s : Pipeline C) : Prop extends Keyed s where
  sorted : s.released.Pairwise fun c d => c.key ≤ d.key
  before : ∀ d ∈ s.released, ∀ i ∈ s.reorder.heap.items, d.key ≤ i.payload.key
  cut : ∀ d ∈ s.released, d.key ≤ s.clock - s.reorder.holdS

theorem chronological_new (cfg : Config) (ringSize : ℕ) (startedAt : Time) :
    Chronological (new C cfg ringSize startedAt) where
  toKeyed := keyed_new cfg ringSize startedAt
  sorted := List.Pairwise.nil
  before := by simp [new, released]
  cut := by simp [new, released]

theorem Keyed.ready (hs : Keyed s) {now : Time} {x : HeapItem Call} (hx : x ∈ s.reorder.ready now) :
    x ∈ s.reorder.heap.items ∧ x.payload.key ≤ now - s.reorder.holdS := by
  rw [ReorderBuffer.ready_eq_filter, List.mem_filter, decide_eq_true_eq] at hx
  exact ⟨hx.1, hs.heap x hx.1 ▸ hx.2⟩

theorem Keyed.ready_sorted (hs : Keyed s) (now : Time) :
    ((s.reorder.ready now).map (·.payload)).Pairwise fun c d => c.key ≤ d.key := by
  rw [List.pairwise_map]
  refine (s.reorder.popReady_spec now).1.imp_of_mem fun {x y} hx hy hxy => ?_
  rw [← hs.heap x (hs.ready hx).1, ← hs.heap y (hs.ready hy).1]
  exact HeapItem.ts_le_of_key_le hxy

theorem Keyed.ready_le (hs : Keyed s) {now : Time} {x y : HeapItem Call} (hx : x ∈ s.reorder.ready now)
    (hy : y ∈ (s.reorder.popReady now).2.heap.items) : x.payload.key ≤ y.payload.key := by
  have hxy := Heap.popWhile_le hx hy
  rw [ReorderBuffer.popReady_items, List.mem_filter] at hy
  rw [← hs.heap x (hs.ready hx).1, ← hs.heap y hy.1]
  exact HeapItem.ts_le_of_key_le hxy

theorem Chronological.step (hs : Chronological s) (hf : Forward s e) (hp : Pushes Prompt s e)
    (hn : Pushes NotStale s e) (h : s.step digest e = some t) : Chronological t := by
  have hk : Keyed t := hs.toKeyed.step h
  have hhold := holdS_step h
  cases e with
  | check sentence peer arrivalTs now =>
    obtain ⟨-, ⟨d, -, rfl⟩ | ⟨d, -, rfl⟩⟩ := step_check h
    · exact ⟨hk, hs.sorted, hs.before, hs.cut⟩
    · exact ⟨hk, hs.sorted, hs.before, hs.cut⟩
  | push i now =>
    obtain ⟨c, ts, b, hi, hb, rfl⟩ := step_push h
    have hclock : s.clock ≤ now := hf
    have hb' : b.holdS = s.reorder.holdS := hhold
    refine ⟨hk, hs.sorted, fun d hd x hx => ?_, fun d hd => ?_⟩
    · rcases ReorderBuffer.mem_push hb hx with rfl | hx
      · show d.key ≤ orderingKey c.sentence c.arrivalTs
        have hcut := hs.cut d hd
        have hprompt : now - c.arrivalTs < s.reorder.holdS := hp (c, ts) hi
        unfold orderingKey
        rcases hu : intrinsic c.sentence with _ | u
        · show d.key ≤ c.arrivalTs
          linarith
        · exact hn (c, ts) hi u hu d hd
      · exact hs.before d hd x hx
    · show d.key ≤ now - b.holdS
      have hcut := hs.cut d hd
      rw [hb']
      linarith
  | record i =>
    obtain ⟨rate, mmsi, events, recording, rfl⟩ := step_record h
    exact ⟨hk, hs.sorted, hs.before, hs.cut⟩
  | popReady now =>
    obtain ⟨ha, rfl⟩ := step_popReady h
    have hclock : s.clock ≤ now := hf
    have hold : ∀ d ∈ s.dispatched, d ∈ s.released := fun d hd => List.mem_append_left _ hd
    refine ⟨hk, ?_, fun d hd x hx => ?_, fun d hd => ?_⟩
    · refine List.pairwise_append.2 ⟨?_, hs.ready_sorted now, fun d hd c hc => ?_⟩
      · exact hs.sorted.sublist (List.sublist_append_left _ _)
      · obtain ⟨x, hx, rfl⟩ := List.mem_map.1 hc
        exact hs.before d (hold d hd) x (hs.ready hx).1
    · have hx : x ∈ (s.reorder.popReady now).2.heap.items := hx
      rcases List.mem_append.1 hd with hd | hd
      · rw [ReorderBuffer.popReady_items] at hx
        exact hs.before d (hold d hd) x (List.mem_filter.1 hx).1
      · obtain ⟨y, hy, rfl⟩ := List.mem_map.1 hd
        exact hs.ready_le hy hx
    · show d.key ≤ now - s.reorder.holdS
      rcases List.mem_append.1 hd with hd | hd
      · have := hs.cut d (hold d hd)
        linarith
      · obtain ⟨y, hy, rfl⟩ := List.mem_map.1 hd
        exact (hs.ready hy).2
  | dispatch =>
    obtain ⟨c, rest, ha, rfl⟩ := step_dispatch h
    have hrel : s.dispatched ++ [c] ++ rest = s.released := by simp [released, ha]
    refine ⟨hk, ?_, ?_, ?_⟩
    · show (s.dispatched ++ [c] ++ rest).Pairwise _
      rw [hrel]
      exact hs.sorted
    · show ∀ d ∈ s.dispatched ++ [c] ++ rest, _
      rw [hrel]
      exact hs.before
    · show ∀ d ∈ s.dispatched ++ [c] ++ rest, _
      rw [hrel]
      exact hs.cut

/-- The sentences that were sent are in the order of their keys. -/
def InOrder (s : Pipeline C) : Prop := s.dispatched.Pairwise fun c d => c.key ≤ d.key

instance (s : Pipeline C) : Decidable (InOrder s) :=
  inferInstanceAs (Decidable (s.dispatched.Pairwise fun c d => c.key ≤ d.key))

theorem Chronological.inOrder (hs : Chronological s) : InOrder s :=
  hs.sorted.sublist (List.sublist_append_left _ _)

/-- A sentence with an earlier time is sent behind one with a later key. -/
theorem disorder_of_stale {i : ℕ} {now : Time} (hs : Keyed s)
    (h : s.step digest (.push i now) = some t) (hc : ¬ Pushes NotStale s (.push i now)) :
    ∃ now' u, t.clock ≤ now' ∧ run (step digest) t (outputRound t now') = some u ∧ ¬ InOrder u := by
  obtain ⟨c, hstale, hmem, -, hrel⟩ := held_of_push hs h hc
  obtain ⟨u, hu, d, hd, hlt⟩ : ∃ u ∈ intrinsic c.sentence, ∃ d ∈ s.released, u < d.key := by
    unfold NotStale at hstale
    push Not at hstale
    exact hstale
  refine ⟨max (c.key + t.reorder.holdS) t.clock, _, le_max_right _ _, run_outputRound t _,
    fun hord => ?_⟩
  have hready : c ∈ (t.reorder.ready (max (c.key + t.reorder.holdS) t.clock)).map (·.payload) := by
    refine List.mem_map.2 ⟨⟨c.key, s.reorder.seq, c⟩, ?_, rfl⟩
    rw [ReorderBuffer.ready_eq_filter, List.mem_filter, decide_eq_true_eq]
    refine ⟨hmem, ?_⟩
    have := le_max_left (c.key + t.reorder.holdS) t.clock
    linarith
  have hle : d.key ≤ c.key := (List.pairwise_append.1 hord).2.2 d (hrel ▸ hd) c hready
  rw [key_of_intrinsic hu] at hle
  exact absurd hle (not_le.2 hlt)

end Pipeline

section

variable {es : List PipelineEvent} {s : Pipeline C}

/-- **The hold time is bounded** on a run on which the clock goes forward and sentences are pushed after
they arrived, however the output loop goes on, exactly when every push is timely. -/
theorem bounded_hold
    (h : run (Pipeline.step digest) (Pipeline.new C cfg ringSize startedAt) es = some s)
    (hf : Guarded (Pipeline.step digest)
      (fun s e => Pipeline.Forward s e ∧ Pipeline.Pushes Pipeline.Arrived s e)
      (Pipeline.new C cfg ringSize startedAt) es) :
    Guarded (Pipeline.step digest) (Pipeline.Pushes Pipeline.Timely)
        (Pipeline.new C cfg ringSize startedAt) es ↔
      Throughout (Pipeline.step digest)
        (fun s e => Pipeline.Forward s e ∧ Pipeline.Pushes Pipeline.Arrived s e) Pipeline.IsOutput
        (Pipeline.HoldBounded digest) (Pipeline.new C cfg ringSize startedAt) es := by
  refine guarded_iff_throughout (I := Pipeline.Punctual) (fun s e t hs hF => hs.step hF.1)
    (fun s hs now t => hs.noneOverdue) (fun s e he => Pipeline.pushes_of_isOutput he s) ?_
    (Pipeline.punctual_new cfg ringSize startedAt) h hf
  intro t e v ht hv hC
  cases e with
  | push i now =>
    obtain ⟨now', u, hclock, hu, hover⟩ :=
      Pipeline.overdue_of_not_timely ht.toKeyed hv hC
    refine ⟨_, _, Pipeline.isOutput_drain _, ?_, Pipeline.run_drain _ v rfl,
      fun hbound => hover (hbound now' u hclock hu)⟩
    refine (Pipeline.forward_drain _ v).and ?_
    exact guarded_of_forall_mem fun e he => Pipeline.pushes_of_isOutput (Pipeline.isOutput_drain _ e he)
  | check sentence peer arrivalTs now => exact absurd trivial hC
  | record i => exact absurd trivial hC
  | popReady now => exact absurd trivial hC
  | dispatch => exact absurd trivial hC

/-- The pipeline with the default configuration, started at `startedAt`. -/
def defaultPipeline (startedAt : Time) : Pipeline (refCache Str Time 200000 30) :=
  Pipeline.new _ ⟨30, 200000, 2000, 50000⟩ 500 startedAt

/-- A base station report of 1970-01-01 and a position report, which carries no time. -/
def reports : List PipelineEvent :=
  [.check "!AIVDM,1,1,,A,402E4JAs8@P000,0*01".toList ['p'] 1700000000 0,
    .check "!AIVDM,1,1,,A,13aEOK?P00PD2wVMdLDRhgvL289?,0*26".toList ['p'] 1700000000 0,
    .push 0 1700000000, .push 0 1700000000, .popReady 1700000000, .dispatch, .popReady 1700000002]

theorem bounded_hold_reports : Throughout (Pipeline.step id)
    (fun s e => Pipeline.Forward s e ∧ Pipeline.Pushes Pipeline.Arrived s e) Pipeline.IsOutput
    (Pipeline.HoldBounded id) (defaultPipeline 1700000000) reports := by
  have hrun : (run (Pipeline.step id) (defaultPipeline 1700000000) reports).isSome = true := by
    decide +kernel
  obtain ⟨s, hs⟩ := Option.isSome_iff_exists.1 hrun
  exact (bounded_hold hs (by decide +kernel)).1 (by decide +kernel)

/-- A base station report of the year 9999. -/
def futureReport : List PipelineEvent :=
  [.check "!AIVDM,1,1,,A,402E4JIhw?oss0,0*1D".toList ['p'] 1700000000 0, .push 0 1700000000]

/-- It is still held when it is a hundred seconds old. -/
theorem bounded_hold_fails :
    ∃ s, run (Pipeline.step id) (defaultPipeline 1700000000) futureReport = some s ∧
      Guarded (Pipeline.step id) (fun s e => Pipeline.Forward s e ∧ Pipeline.Pushes Pipeline.Arrived s e)
        (defaultPipeline 1700000000) futureReport ∧
      (∀ c ∈ s.accepted, (parse c.sentence).map (·.checksumOk) = some true) ∧
      ∃ t ∈ s.step id (.popReady 1700000100), ¬ Pipeline.NoneOverdue 1700000100 t := by
  have hrun : (run (Pipeline.step id) (defaultPipeline 1700000000) futureReport).map (fun s =>
      decide (∀ c ∈ s.accepted, (parse c.sentence).map (·.checksumOk) = some true) &&
        decide (∃ t ∈ s.step id (.popReady 1700000100), ¬ Pipeline.NoneOverdue 1700000100 t)) =
      some true := by decide +kernel
  obtain ⟨s, hs, hfacts⟩ := Option.map_eq_some_iff.1 hrun
  rw [Bool.and_eq_true, decide_eq_true_eq, decide_eq_true_eq] at hfacts
  exact ⟨s, hs, by decide +kernel, hfacts.1, hfacts.2⟩

/-- **The output is chronological** on a run on which the clock goes forward and sentences are pushed
within `holdS` of their arrival, however the output loop goes on, exactly when no push is stale. -/
theorem chronological_output
    (h : run (Pipeline.step digest) (Pipeline.new C cfg ringSize startedAt) es = some s)
    (hf : Guarded (Pipeline.step digest)
      (fun s e => Pipeline.Forward s e ∧ Pipeline.Pushes Pipeline.Prompt s e)
      (Pipeline.new C cfg ringSize startedAt) es) :
    Guarded (Pipeline.step digest) (Pipeline.Pushes Pipeline.NotStale)
        (Pipeline.new C cfg ringSize startedAt) es ↔
      Throughout (Pipeline.step digest)
        (fun s e => Pipeline.Forward s e ∧ Pipeline.Pushes Pipeline.Prompt s e) Pipeline.IsOutput
        Pipeline.InOrder (Pipeline.new C cfg ringSize startedAt) es := by
  refine guarded_iff_throughout (I := Pipeline.Chronological) (fun s e t hs hF => hs.step hF.1 hF.2)
    (fun s hs => hs.inOrder) (fun s e he => Pipeline.pushes_of_isOutput he s) ?_
    (Pipeline.chronological_new cfg ringSize startedAt) h hf
  intro t e v ht hv hC
  cases e with
  | push i now =>
    obtain ⟨now', u, hclock, hu, hdis⟩ :=
      Pipeline.disorder_of_stale ht.toKeyed hv hC
    refine ⟨_, u, Pipeline.isOutput_outputRound v now', ?_, hu, hdis⟩
    refine (Pipeline.forward_outputRound hclock).and ?_
    exact guarded_of_forall_mem fun e he =>
      Pipeline.pushes_of_isOutput (Pipeline.isOutput_outputRound v now' e he)
  | check sentence peer arrivalTs now => exact absurd trivial hC
  | record i => exact absurd trivial hC
  | popReady now => exact absurd trivial hC
  | dispatch => exact absurd trivial hC

/-- Two position reports in the order in which they arrived. -/
def positions : List PipelineEvent :=
  [.check "!AIVDM,1,1,,A,13aEOK?P00PD2wVMdLDRhgvL289?,0*26".toList ['p'] 1700000000 0,
    .push 0 1700000000, .popReady 1700000002, .dispatch,
    .check "!AIVDM,1,1,,B,13aEOK?P00PD2wVMdLDRhgvL289?,0*25".toList ['p'] 1700000003 3,
    .push 0 1700000003, .popReady 1700000005, .dispatch]

theorem chronological_output_positions : Throughout (Pipeline.step id)
    (fun s e => Pipeline.Forward s e ∧ Pipeline.Pushes Pipeline.Prompt s e) Pipeline.IsOutput
    Pipeline.InOrder (defaultPipeline 1700000000) positions := by
  have hrun : (run (Pipeline.step id) (defaultPipeline 1700000000) positions).isSome = true := by
    decide +kernel
  obtain ⟨s, hs⟩ := Option.isSome_iff_exists.1 hrun
  exact (chronological_output hs (by decide +kernel)).1 (by decide +kernel)

/-- A position report, then a base station report of 1970-01-01. -/
def staleReport : List PipelineEvent :=
  [.check "!AIVDM,1,1,,A,13aEOK?P00PD2wVMdLDRhgvL289?,0*26".toList ['p'] 1700000000 0,
    .push 0 1700000000, .popReady 1700000002, .dispatch,
    .check "!AIVDM,1,1,,A,402E4JAs8@P000,0*01".toList ['p'] 1700000003 3,
    .push 0 1700000003, .popReady 1700000004, .dispatch]

/-- It leaves behind a sentence with a later key. -/
theorem chronological_output_fails :
    ∃ s, run (Pipeline.step id) (defaultPipeline 1700000000) staleReport = some s ∧
      Guarded (Pipeline.step id) (fun s e => Pipeline.Forward s e ∧ Pipeline.Pushes Pipeline.Prompt s e)
        (defaultPipeline 1700000000) staleReport ∧
      (∀ c ∈ s.accepted, (parse c.sentence).map (·.checksumOk) = some true) ∧
      ¬ Pipeline.InOrder s := by
  have hrun : (run (Pipeline.step id) (defaultPipeline 1700000000) staleReport).map (fun s =>
      decide (∀ c ∈ s.accepted, (parse c.sentence).map (·.checksumOk) = some true) &&
        !decide (Pipeline.InOrder s)) = some true := by decide +kernel
  obtain ⟨s, hs, hfacts⟩ := Option.map_eq_some_iff.1 hrun
  rw [Bool.and_eq_true, decide_eq_true_eq, Bool.not_eq_true', decide_eq_false_iff_not] at hfacts
  exact ⟨s, hs, by decide +kernel, hfacts.1, hfacts.2⟩

end

end AisServer.Stream
