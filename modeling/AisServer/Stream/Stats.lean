import AisServer.Lib.LastSeen
import AisServer.Lib.Recent
import AisServer.Nmea.Canonical
import AisServer.Nmea.Render
import AisServer.Stream.Fragments

/-!
# The figures of the dashboard

`Pipeline.stats` counts the arrivals of the last minute in a bounded deque and the vessels of the last ten minutes in
a table; it trims both as a side effect.  `Watched` is a pipeline under whole calls of `on_sentence` and `stats`, with
the steps of the output loop between them.  Of the figures those of the parts are left out.

* `Watched.step_cases` — what an event does to the deque and the table;
* `msgs_per_sec_iff` — when the rate is that of the last minute;
* `unique_mmsi_exact` — the vessels are those of the last ten minutes, whoever looked before.
-/

namespace AisServer.Stream

open AisServer.Lib AisServer.Nmea

/-- What `stats` returns of the pipeline itself. -/
structure PipelineStats where
  uptimeSeconds : ℤ
  /-- The rate before it is rounded to two places. -/
  msgsPerSec : ℚ
  uniqueMmsi : ℕ

namespace Pipeline

variable {C : CacheOps Str Time}

/-- `int(now - self.started_at)` -/
def uptime (s : Pipeline C) (now : Time) : ℤ := (now - s.startedAt).num.tdiv (now - s.startedAt).den

def stats (s : Pipeline C) (now : Time) : Pipeline C × PipelineStats :=
  let rateBucket := s.rateBucket.dropWhile (· < now - 60)
  let mmsiLast := sweep (now - 600) s.mmsiLast
  ({ s with rateBucket, mmsiLast },
    { uptimeSeconds := s.uptime now, msgsPerSec := rateBucket.length / 60, uniqueMmsi := mmsiLast.keys.length })

end Pipeline

/-- The vessel that a call enters in the table, none for the MMSI zero. -/
def Call.mmsi (c : Call) : Option ℕ := ((extractMmsiAndType (payloadOf c.sentence)).map Prod.fst).filter (· ≠ 0)

/-- A pipeline under whole calls, with the calls of `stats`. -/
structure Watched (C : CacheOps Str Time) where
  pipeline : Pipeline C
  /-- The time of every call of `stats`, and what had been accepted before it. -/
  looks : List (Time × List Call) := []
  /-- The arrivals that were accepted and the times of `stats`, in the order of the calls. -/
  times : List Time := []

inductive WatchedEvent
  /-- `on_sentence`; `now` is the timer of the cache and `pushNow` the time of the push. -/
  | sentence (sentence peer : Str) (arrivalTs now pushNow : Time)
  | stats (now : Time)
  | popReady (now : Time)
  | dispatch

namespace Watched

variable {C : CacheOps Str Time} {digest : Str → Str}

def new (C : CacheOps Str Time) (cfg : Config) (ringSize : ℕ) (startedAt : Time) : Watched C :=
  { pipeline := Pipeline.new C cfg ringSize startedAt }

/-- One call, `none` when it raises or the timer of the cache would go back. -/
def step (digest : Str → Str) (w : Watched C) : WatchedEvent → Option (Watched C)
  | .sentence sentence peer arrivalTs now pushNow =>
    if now < w.pipeline.cacheClock then none
    else
      (w.pipeline.onSentence digest sentence peer arrivalTs now pushNow).map fun r =>
        { w with pipeline := r.1, times := w.times ++ if r.2.isSome then [arrivalTs] else [] }
  | .stats now =>
    some {
      pipeline := (w.pipeline.stats now).1
      looks := w.looks ++ [(now, w.pipeline.accepted)]
      times := w.times ++ [now] }
  | .popReady now => (w.pipeline.step digest (.popReady now)).map fun p => { w with pipeline := p }
  | .dispatch => (w.pipeline.step digest .dispatch).map fun p => { w with pipeline := p }

/-! ### What the figures should say -/

/-- What was accepted and arrived in the last `seconds` seconds. -/
def since (w : Watched C) (seconds now : Time) : List Call :=
  w.pipeline.accepted.filter fun c => now - seconds ≤ c.arrivalTs

/-- The arrivals of what was accepted do not go back. -/
def InOrder (w : Watched C) : Prop := (w.pipeline.accepted.map (·.arrivalTs)).Pairwise (· ≤ ·)

/-- No more than the deque holds arrived in the last minute, and nobody who looked saw the clock at a time when one of
these was older than a minute. -/
def Undisturbed (w : Watched C) (now : Time) : Prop :=
  (w.since 60 now).length ≤ Pipeline.rateMaxlen ∧
    ∀ look ∈ w.looks, ∀ c ∈ look.2, now - 60 ≤ c.arrivalTs → look.1 - 60 ≤ c.arrivalTs

/-! ### One event -/

/-- The deque, with what came. -/
def recent (w : Watched C) : Recent Time where
  kept := w.pipeline.rateBucket
  all := w.pipeline.accepted.map (·.arrivalTs)
  cuts := w.looks.map fun look => (look.1 - 60, look.2.map (·.arrivalTs))

/-- The vessels that were seen. -/
def seen (w : Watched C) : List (ℕ × Time) := w.pipeline.accepted.filterMap fun c => c.mmsi.map (·, c.arrivalTs)

/-- The bounds of the sweeps. -/
def bounds (w : Watched C) : List Time := w.looks.map fun look => look.1 - 600

variable {w w' : Watched C} {e : WatchedEvent} {now : Time} {cfg : Config} {ringSize : ℕ} {startedAt : Time}
  {es : List WatchedEvent}

theorem rateBucket_recordCall (s : Pipeline C) (c : Call) :
    (s.recordCall c).rateBucket = (s.rateBucket ++ [c.arrivalTs]).rtake Pipeline.rateMaxlen := by
  unfold Pipeline.recordCall EventBus.keepLast List.rtake
  generalize Pipeline.rateMaxlen = n
  rfl

theorem mmsiLast_recordCall (s : Pipeline C) (c : Call) : (s.recordCall c).mmsiLast =
    match c.mmsi with
    | some m => s.mmsiLast.insert m c.arrivalTs
    | none => s.mmsiLast := by
  unfold Pipeline.recordCall Call.mmsi
  dsimp only
  by_cases hp : payloadOf c.sentence = []
  · rw [hp, if_pos rfl]
    rfl
  · rw [if_neg hp]
    rcases (extractMmsiAndType (payloadOf c.sentence)).map Prod.fst with _ | _ | m <;> rfl

/-- **An event** accepts a call and records it, or looks, or leaves the figures alone. -/
theorem step_cases (h : w.step digest e = some w') :
    (∃ c, w'.recent = w.recent.push Pipeline.rateMaxlen c.arrivalTs ∧
      w'.pipeline.accepted = w.pipeline.accepted ++ [c] ∧
      w'.pipeline.mmsiLast = (w.pipeline.recordCall c).mmsiLast ∧
      w'.looks = w.looks ∧ w'.times = w.times ++ [c.arrivalTs]) ∨
    (∃ now, e = .stats now ∧ w'.recent = w.recent.cut (now - 60) ∧ w'.pipeline.accepted = w.pipeline.accepted ∧
      w'.pipeline.mmsiLast = sweep (now - 600) w.pipeline.mmsiLast ∧
      w'.looks = w.looks ++ [(now, w.pipeline.accepted)] ∧ w'.times = w.times ++ [now]) ∨
    (w'.recent = w.recent ∧ w'.pipeline.accepted = w.pipeline.accepted ∧
      w'.pipeline.mmsiLast = w.pipeline.mmsiLast ∧ w'.looks = w.looks ∧ w'.times = w.times) := by
  cases e with
  | sentence sentence peer arrivalTs now pushNow =>
    rw [step] at h
    split_ifs at h
    obtain ⟨⟨p, pushed⟩, hp, rfl⟩ := Option.map_eq_some_iff.1 h
    unfold Pipeline.onSentence at hp
    rcases hc : w.pipeline.dedup.check digest sentence arrivalTs now with ⟨d, _ | ⟨_ | _, ts⟩⟩
    · simp [hc] at hp
    · simp only [hc, Option.some.injEq, Prod.mk.injEq] at hp
      obtain ⟨rfl, rfl⟩ := hp
      exact Or.inr (Or.inr ⟨rfl, rfl, rfl, rfl, List.append_nil _⟩)
    · simp only [hc, Option.map_eq_some_iff, Prod.mk.injEq] at hp
      obtain ⟨b, -, rfl, rfl⟩ := hp
      refine Or.inl ⟨w.pipeline.newCall sentence peer arrivalTs now, ?_, rfl, rfl, rfl, rfl⟩
      unfold recent Recent.push
      rw [Recent.mk.injEq]
      exact ⟨rateBucket_recordCall _ _, List.map_append, rfl⟩
  | stats now =>
    obtain rfl := Option.some.inj h
    refine Or.inr (Or.inl ⟨now, rfl, ?_, rfl, rfl, rfl, rfl⟩)
    unfold recent Recent.cut
    rw [Recent.mk.injEq]
    exact ⟨rfl, rfl, List.map_append⟩
  | popReady now =>
    obtain ⟨p, hp, rfl⟩ := Option.map_eq_some_iff.1 h
    obtain ⟨-, rfl⟩ := Pipeline.step_popReady hp
    exact Or.inr (Or.inr ⟨rfl, rfl, rfl, rfl, rfl⟩)
  | dispatch =>
    obtain ⟨p, hp, rfl⟩ := Option.map_eq_some_iff.1 h
    obtain ⟨c, rest, -, rfl⟩ := Pipeline.step_dispatch hp
    exact Or.inr (Or.inr ⟨rfl, rfl, rfl, rfl, rfl⟩)

/-! ### The rate -/

theorem recent_sound (hrun : run (step digest) (new C cfg ringSize startedAt) es = some w) (hord : w.InOrder) :
    w.recent.Sound Pipeline.rateMaxlen := by
  refine run_inv_of_step (I := fun w : Watched C => w.InOrder → w.recent.Sound Pipeline.rateMaxlen) ?_
    (fun _ => Recent.sound_new _) hrun hord
  intro w e w' ih h hord
  rcases step_cases h with ⟨c, hrecent, hacc, -⟩ | ⟨now, -, hrecent, hacc, -⟩ | ⟨hrecent, hacc, -⟩
  · rw [InOrder, hacc, List.map_append, List.pairwise_append] at hord
    obtain ⟨lost, hs⟩ := ih hord.1
    rw [hrecent]
    exact hs.push fun b hb => hord.2.2 b hb _ (List.mem_singleton_self _)
  · rw [InOrder, hacc] at hord
    obtain ⟨lost, hs⟩ := ih hord
    rw [hrecent]
    exact hs.cutAt _
  · rw [InOrder, hacc] at hord
    rw [hrecent]
    exact ih hord

theorem sixty_mul_rate (w : Watched C) (now : Time) :
    60 * (w.pipeline.stats now).2.msgsPerSec = (w.recent.cut (now - 60)).kept.length :=
  mul_div_cancel₀ _ (by norm_num)

theorem length_window (w : Watched C) (now : Time) : (w.recent.window (now - 60)).length = (w.since 60 now).length := by
  unfold Recent.window recent since
  dsimp only
  rw [List.filter_map, List.length_map]
  rfl

/-! ### The vessels -/

/-- The table is that of the vessels seen, as long as the clock does not go back. -/
structure Timed (w : Watched C) : Prop where
  accepted : ∀ c ∈ w.pipeline.accepted, c.arrivalTs ∈ w.times
  looks : ∀ look ∈ w.looks, look.1 ∈ w.times
  sightings : w.times.Pairwise (· ≤ ·) → Sightings w.pipeline.mmsiLast w.seen w.bounds

theorem timed_new : Timed (new C cfg ringSize startedAt) where
  accepted := by simp [new, Pipeline.new]
  looks := by simp [new]
  sightings _ := Sightings.nil

theorem Timed.step (hw : Timed w) (h : w.step digest e = some w') : Timed w' := by
  rcases step_cases h with ⟨c, -, hacc, hlast, hlooks, htimes⟩ | ⟨now, -, -, hacc, hlast, hlooks, htimes⟩ |
    ⟨-, hacc, hlast, hlooks, htimes⟩
  · refine ⟨fun c' hc' => ?_, fun look hlook => ?_, fun hclock => ?_⟩
    · rw [hacc] at hc'
      rw [htimes]
      rcases List.mem_append.1 hc' with hc' | hc'
      · exact List.mem_append_left _ (hw.accepted c' hc')
      · obtain rfl := List.mem_singleton.1 hc'
        exact List.mem_append_right _ (List.mem_singleton_self _)
    · rw [hlooks] at hlook
      rw [htimes]
      exact List.mem_append_left _ (hw.looks look hlook)
    · rw [htimes, List.pairwise_append] at hclock
      have hs := hw.sightings hclock.1
      have hseen : w'.seen = w.seen ++ (c.mmsi.map (·, c.arrivalTs)).toList := by
        rw [seen, hacc, List.filterMap_append]
        rcases hm : c.mmsi with _ | m <;> simp [seen, hm]
      have hbounds : w'.bounds = w.bounds := congrArg (List.map _) hlooks
      rw [hseen, hbounds, hlast, mmsiLast_recordCall]
      rcases c.mmsi with _ | m
      · rw [Option.map_none, Option.toList_none, List.append_nil]
        exact hs
      · refine hs.insert m fun s hs => ?_
        obtain ⟨c', hc', hs⟩ := List.mem_filterMap.1 hs
        obtain ⟨m', -, rfl⟩ := Option.map_eq_some_iff.1 hs
        exact hclock.2.2 _ (hw.accepted c' hc') _ (List.mem_singleton_self _)
  · refine ⟨fun c hc => ?_, fun look hlook => ?_, fun hclock => ?_⟩
    · rw [hacc] at hc
      rw [htimes]
      exact List.mem_append_left _ (hw.accepted c hc)
    · rw [hlooks] at hlook
      rw [htimes]
      rcases List.mem_append.1 hlook with hlook | hlook
      · exact List.mem_append_left _ (hw.looks look hlook)
      · obtain rfl := List.mem_singleton.1 hlook
        exact List.mem_append_right _ (List.mem_singleton_self _)
    · rw [htimes, List.pairwise_append] at hclock
      have hseen : w'.seen = w.seen := congrArg (List.filterMap _) hacc
      have hbounds : w'.bounds = w.bounds ++ [now - 600] := by
        rw [bounds, hlooks, List.map_append]
        rfl
      rw [hseen, hbounds, hlast]
      exact (hw.sightings hclock.1).sweep _
  · have hseen : w'.seen = w.seen := congrArg (List.filterMap _) hacc
    have hbounds : w'.bounds = w.bounds := congrArg (List.map _) hlooks
    refine ⟨?_, ?_, ?_⟩
    · rw [hacc, htimes]
      exact hw.accepted
    · rw [hlooks, htimes]
      exact hw.looks
    · rw [hseen, hbounds, hlast, htimes]
      exact hw.sightings

/-- The vessels of the last ten minutes. -/
theorem uniqueMmsi_eq (hrun : run (step digest) (new C cfg ringSize startedAt) es = some w)
    (hclock : (w.times ++ [now]).Pairwise (· ≤ ·)) :
    (w.pipeline.stats now).2.uniqueMmsi = ((w.since 600 now).filterMap Call.mmsi).toFinset.card := by
  have hw : Timed w := run_inv_of_step (fun _ _ _ hs h => hs.step h) timed_new hrun
  rw [List.pairwise_append] at hclock
  have hbounds : ∀ b ∈ w.bounds, b ≤ now - 600 := by
    intro b hb
    obtain ⟨look, hlook, rfl⟩ := List.mem_map.1 hb
    have hle := hclock.2.2 _ (hw.looks look hlook) now (List.mem_singleton_self _)
    exact sub_le_sub_right hle 600
  refine ((hw.sightings hclock.1).card_sweep hbounds).trans ?_
  congr 1
  ext m
  simp only [List.mem_toFinset, List.mem_map, List.mem_filter, List.mem_filterMap, decide_eq_true_eq, seen, since]
  constructor
  · rintro ⟨⟨m, t⟩, ⟨⟨c, hc, hm⟩, hle⟩, rfl⟩
    obtain ⟨m', hm', hpair⟩ := Option.map_eq_some_iff.1 hm
    obtain ⟨rfl, rfl⟩ := Prod.mk.inj hpair
    exact ⟨c, ⟨hc, hle⟩, hm'⟩
  · rintro ⟨c, ⟨hc, hle⟩, hm⟩
    exact ⟨(m, c.arrivalTs), ⟨⟨c, hc, by rw [hm]; rfl⟩, hle⟩, rfl⟩

/-! ### Runs with other looks -/

def isStats : WatchedEvent → Bool
  | .stats _ => true
  | _ => false

/-- The run without the calls of `stats`. -/
def quiet (es : List WatchedEvent) : List WatchedEvent := es.filter fun e => !isStats e

/-- A pipeline without the deque and the table. -/
def core (p : Pipeline C) : Pipeline C := { p with rateBucket := [], mmsiLast := ∅ }

/-- What an event does to the core. -/
def coreStep (digest : Str → Str) (p : Pipeline C) (e : WatchedEvent) : Option (Pipeline C) :=
  (step digest { pipeline := p } e).map fun w => core w.pipeline

theorem core_recordCall (p q : Pipeline C) (c : Call) (h : core p = core q) :
    core (p.recordCall c) = core (q.recordCall c) := by
  have hcore : ∀ p : Pipeline C, core (p.recordCall c) =
      { core p with events := ((core p).recordCall c).events } := by
    intro p
    unfold core Pipeline.recordCall
    generalize Pipeline.rateMaxlen = n
    rfl
  rw [hcore, hcore, h]

theorem core_onSentence (digest : Str → Str) (p : Pipeline C) (sentence peer : Str) (arrivalTs now pushNow : Time) :
    ((core p).onSentence digest sentence peer arrivalTs now pushNow).map (fun r => core r.1) =
      (p.onSentence digest sentence peer arrivalTs now pushNow).map fun r => core r.1 := by
  unfold Pipeline.onSentence
  rw [show (core p).dedup = p.dedup from rfl]
  rcases p.dedup.check digest sentence arrivalTs now with ⟨d, _ | ⟨_ | _, ts⟩⟩
  · rfl
  · rfl
  · dsimp only
    rw [Option.map_map, Option.map_map]
    exact Option.map_congr fun b _ => core_recordCall _ _ _ rfl

/-- Nothing but the figures depends on the deque and the table. -/
theorem core_step (w : Watched C) (he : isStats e = false) :
    (w.step digest e).map (fun w => core w.pipeline) = coreStep digest (core w.pipeline) e := by
  cases e with
  | sentence sentence peer arrivalTs now pushNow =>
    have hcall := core_onSentence digest w.pipeline sentence peer arrivalTs now pushNow
    rw [coreStep, step, step]
    dsimp only
    rw [show (core w.pipeline).cacheClock = w.pipeline.cacheClock from rfl]
    split_ifs
    · rfl
    · rw [Option.map_map, Option.map_map]
      exact hcall.symm
  | stats now => cases he
  | popReady now =>
    rw [coreStep, step, step, Pipeline.step, Pipeline.step]
    rw [show (core w.pipeline).awaiting = w.pipeline.awaiting from rfl]
    rcases w.pipeline.awaiting with _ | _ <;> rfl
  | dispatch =>
    rw [coreStep, step, step, Pipeline.step, Pipeline.step]
    rw [show (core w.pipeline).awaiting = w.pipeline.awaiting from rfl]
    rcases w.pipeline.awaiting with _ | _ <;> rfl

/-- A run is one of its core, without the looks. -/
theorem run_core (digest : Str → Str) (w : Watched C) (es : List WatchedEvent) :
    (run (step digest) w es).map (fun w => core w.pipeline) = run (coreStep digest) (core w.pipeline) (quiet es) := by
  induction es generalizing w with
  | nil => rfl
  | cons e es ih =>
    rw [run_cons]
    cases he : isStats e with
    | true =>
      obtain ⟨now, rfl⟩ : ∃ now, e = .stats now := by
        cases e <;> simp_all [isStats]
      rw [quiet, List.filter_cons_of_neg (by simp [isStats])]
      exact ih _
    | false =>
      rw [quiet, List.filter_cons_of_pos (by simp [he]), run_cons, ← core_step w he]
      rcases w.step digest e with _ | w'
      · rfl
      · exact ih w'

/-! ### A burst -/

/-- A documented cache with nothing in it but these keys, and room in the heap. -/
structure Ready {maxEntries : ℕ} {ttl : Time} (D : Documented C maxEntries ttl) (keys : List Str) (w : Watched C) :
    Prop where
  clock : w.pipeline.cacheClock ≤ 0
  room : 1 ≤ w.pipeline.reorder.maxQueue
  keys : ∀ e ∈ D.entries w.pipeline.dedup.cache, e.key ∈ keys
  looks : w.looks = []

variable {maxEntries : ℕ} {ttl arrivalTs : Time} {D : Documented C maxEntries ttl} {keys sentences : List Str}
  {sentence : Str}

theorem Ready.accept (hw : Ready D keys w) (hmax : maxEntries ≠ 0) (hkey : dedupKey digest sentence ∉ keys)
    (peer : Str) (arrivalTs : Time) :
    ∃ w', w.step digest (.sentence sentence peer arrivalTs 0 arrivalTs) = some w' ∧
      Ready D (keys ++ [dedupKey digest sentence]) w' ∧ w'.pipeline.accepted =
        w.pipeline.accepted ++ [w.pipeline.newCall sentence peer arrivalTs 0] ∧ w'.times = w.times ++ [arrivalTs] := by
  set key := dedupKey digest sentence with hk
  have halive : alive (D.entries w.pipeline.dedup.cache) 0 key = none :=
    alive_eq_none.2 fun e he hek => absurd (hek ▸ hw.keys e he) hkey
  rcases hget : C.get w.pipeline.dedup.cache 0 key with ⟨value, cache⟩
  have hvalue : value = none := by
    have h := D.get_value w.pipeline.dedup.cache 0 key
    rw [halive, hget] at h
    exact h
  have hcache : D.entries cache = D.entries w.pipeline.dedup.cache := by
    have h := D.get_entries w.pipeline.dedup.cache 0 key
    rw [touch, halive, hget] at h
    exact h
  have hset := D.set_entries cache 0 key arrivalTs
  rw [if_neg hmax] at hset
  obtain ⟨cache', hcache', hentries⟩ := Option.map_eq_some_iff.1 hset
  obtain ⟨b, hb⟩ := ReorderBuffer.push_isSome hw.room (w.pipeline.newCall sentence peer arrivalTs 0)
    (orderingKey sentence arrivalTs)
  have hcheck : w.pipeline.dedup.check digest sentence arrivalTs 0 =
      ({ w.pipeline.dedup with cache := cache', seen := w.pipeline.dedup.seen + 1 }, some (true, arrivalTs)) := by
    simp only [Deduper.check, ← hk, hget, hvalue, hcache']
  obtain ⟨p, ts, hp, hclock, hreorder, hdedup, hacc⟩ : ∃ p ts,
      w.pipeline.onSentence digest sentence peer arrivalTs 0 arrivalTs = some (p, some ts) ∧ p.cacheClock = 0 ∧
        p.reorder = b ∧ p.dedup.cache = cache' ∧
        p.accepted = w.pipeline.accepted ++ [w.pipeline.newCall sentence peer arrivalTs 0] := by
    rw [Pipeline.onSentence, hcheck]
    dsimp only
    rw [hb]
    exact ⟨_, _, rfl, rfl, rfl, rfl, rfl⟩
  refine ⟨{ w with pipeline := p, times := w.times ++ [arrivalTs] }, ?_, ⟨hclock.le, ?_, ?_, hw.looks⟩, hacc, rfl⟩
  · rw [step, if_neg (not_lt.2 hw.clock), hp]
    rfl
  · show 1 ≤ p.reorder.maxQueue
    rw [hreorder, (ReorderBuffer.push_spec hb).2.2.1]
    exact hw.room
  · intro e he
    have he : e ∈ D.entries p.dedup.cache := he
    rw [hdedup, hentries, store, hcache] at he
    rcases List.mem_append.1 he with he | he
    · exact List.mem_append_left _ (hw.keys e (mem_others.1 (List.mem_of_mem_drop he)).1)
    · obtain rfl := List.mem_singleton.1 he
      exact List.mem_append_right _ (List.mem_singleton_self _)

/-- The calls of a burst at one time. -/
def burst (sentences : List Str) (peer : Str) (arrivalTs : Time) : List WatchedEvent :=
  sentences.map fun sentence => .sentence sentence peer arrivalTs 0 arrivalTs

theorem run_burst (D : Documented C maxEntries ttl) (hmax : maxEntries ≠ 0) (hqueue : 1 ≤ cfg.maxQueue) (peer : Str)
    (arrivalTs : Time) (hkeys : (sentences.map (dedupKey digest)).Nodup) :
    ∃ w, run (step digest) (new C cfg ringSize startedAt) (burst sentences peer arrivalTs) = some w ∧
      Ready D (sentences.map (dedupKey digest)) w ∧
      w.pipeline.accepted.map (·.arrivalTs) = List.replicate sentences.length arrivalTs ∧
      w.times = List.replicate sentences.length arrivalTs := by
  induction sentences using List.reverseRecOn with
  | nil =>
    refine ⟨_, rfl, ⟨le_rfl, hqueue, ?_, rfl⟩, rfl, rfl⟩
    intro e he
    have he : e ∈ D.entries C.init := he
    rw [D.init_entries] at he
    cases he
  | append_singleton sentences sentence ih =>
    rw [List.map_append, List.nodup_append] at hkeys
    obtain ⟨w, hw, hready, hacc, htimes⟩ := ih hkeys.1
    have hkey : dedupKey digest sentence ∉ sentences.map (dedupKey digest) := fun h =>
      hkeys.2.2 _ h _ (List.mem_singleton_self _) rfl
    obtain ⟨w', hstep, hready', hacc', htimes'⟩ := hready.accept hmax hkey peer arrivalTs
    refine ⟨w', ?_, ?_, ?_, ?_⟩
    · have hsplit : burst (sentences ++ [sentence]) peer arrivalTs =
          burst sentences peer arrivalTs ++ [.sentence sentence peer arrivalTs 0 arrivalTs] := List.map_append
      rw [hsplit, run_append_of hw, run_cons, hstep]
      rfl
    · rw [List.map_append]
      exact hready'
    · rw [hacc', List.map_append, hacc, List.length_append, List.length_singleton, List.replicate_succ']
      rfl
    · rw [htimes', htimes, List.length_append, List.length_singleton, List.replicate_succ']

/-- A single-fragment sentence with a number as payload. -/
def report (n : ℕ) : Str := render true "AIVDM".toList 1 1 [] ['A'] (decimal n) 0

theorem parse_report (n : ℕ) : parse (report n) = some {
    sentenceType := "!AIVDM".toList, fragmentCount := 1, fragmentNumber := 1, messageId := [], channel := ['A']
    payload := decimal n, fillBits := (0 : ℕ), checksumOk := true } :=
  parse_render (by decide) (by simp [FieldText]) (by simp [FieldText]) (fieldText_decimal n) (by decide) (by decide)
    (by decide)

theorem canonicalise_report_injective : Function.Injective fun n => canonicalise (report n) := by
  intro m n h
  have hsplit : ∀ n, rsplit1 '*' (report n) = some ('!' :: renderBody "AIVDM".toList 1 1 [] ['A'] (decimal n) 0,
      hexPair true (xorOf (renderBody "AIVDM".toList 1 1 [] ['A'] (decimal n) 0))) := fun n =>
    rsplit1_eq_some.2 ⟨rfl, star_notMem_hexPair⟩
  have hm := (cut_of_parse (parse_report m) rfl (hsplit m)).canonical.split
  have hn := (cut_of_parse (parse_report n) rfl (hsplit n)).canonical.split
  rw [show canonicalise (report m) = canonicalise (report n) from h, hn, Option.some.injEq, Prod.mk.injEq] at hm
  have hbody := (List.cons.inj hm.1).2
  have hreport : report n = report m := by
    unfold report render
    simp only [hbody]
  have hpayload := parse_report m
  rw [← hreport, parse_report n, Option.some.injEq, NmeaParse.mk.injEq] at hpayload
  have hval := digitsVal_decimal m
  rw [← hpayload.2.2.2.2.2.1, digitsVal_decimal, Option.some.injEq] at hval
  exact hval.symm

/-- The default settings of the server, with a cache as documented. -/
def server : Watched (refCache Str Time 200000 30) := new _ ⟨30, 200000, 2000, 50000⟩ 500 0

theorem run_reports (n : ℕ) : ∃ w, run (step id) server (burst ((List.range n).map report) "10.0.0.9".toList 100) =
    some w ∧ w.looks = [] ∧ w.pipeline.accepted.map (·.arrivalTs) = List.replicate n 100 ∧
      w.times = List.replicate n 100 := by
  have hkeys : (((List.range n).map report).map (dedupKey id)).Nodup := by
    rw [List.map_map]
    exact List.nodup_range.map canonicalise_report_injective
  have hqueue : 1 ≤ (⟨30, 200000, 2000, 50000⟩ : Config).maxQueue := by decide
  obtain ⟨w, hw, hready, hacc, htimes⟩ := run_burst (refCache_documented Str Time 200000 30) (by decide) hqueue
    "10.0.0.9".toList 100 hkeys
  rw [List.length_map, List.length_range] at hacc htimes
  exact ⟨w, hw, hready.looks, hacc, htimes⟩

theorem inOrder_of_replicate {n : ℕ} (h : w.pipeline.accepted.map (·.arrivalTs) = List.replicate n arrivalTs) :
    w.InOrder := by
  rw [InOrder, h]
  exact List.pairwise_replicate.2 (Or.inr le_rfl)

end Watched

/-- **The rate.**  After any run in which the arrivals of what is accepted do not go back, sixty times the rate is the
number of what was accepted and arrived in the last minute, exactly when these are no more than the deque holds and
nobody looked when one of them was older than a minute. -/
theorem msgs_per_sec_iff {C : CacheOps Str Time} {digest : Str → Str} {cfg : Config} {ringSize : ℕ} {startedAt : Time}
    {es : List WatchedEvent} {w : Watched C}
    (hrun : run (Watched.step digest) (Watched.new C cfg ringSize startedAt) es = some w) (hord : w.InOrder)
    (now : Time) :
    60 * (w.pipeline.stats now).2.msgsPerSec = (w.since 60 now).length ↔ w.Undisturbed now := by
  rw [Watched.sixty_mul_rate, Nat.cast_inj, ← Watched.length_window, (Watched.recent_sound hrun hord).count_iff, Watched.length_window]
  refine and_congr_right fun _ => ?_
  constructor
  · intro h look hlook c hc
    exact h _ (List.mem_map_of_mem hlook) c.arrivalTs (List.mem_map_of_mem hc)
  · intro h cut hcut a ha
    obtain ⟨look, hlook, rfl⟩ := List.mem_map.1 hcut
    obtain ⟨c, hc, rfl⟩ := List.mem_map.1 ha
    exact h look hlook c hc

/-- Two reports in one second. -/
theorem msgs_per_sec_two : ∃ w, run (Watched.step id) Watched.server
    (Watched.burst ((List.range 2).map Watched.report) "10.0.0.9".toList 100) = some w ∧
      60 * (w.pipeline.stats 100).2.msgsPerSec = (w.since 60 100).length := by
  obtain ⟨w, hw, hlooks, hacc, -⟩ := Watched.run_reports 2
  refine ⟨w, hw, (msgs_per_sec_iff hw (Watched.inOrder_of_replicate hacc) 100).2 ⟨?_, ?_⟩⟩
  · have hlen := congrArg List.length hacc
    rw [List.length_map, List.length_replicate] at hlen
    exact ((List.length_filter_le _ _).trans hlen.le).trans (by decide)
  · rw [hlooks]
    simp

/-- Of ten thousand and one different reports in one second, none of them later than the clock, one is not counted. -/
theorem msgs_per_sec_fails : ∃ es w, run (Watched.step id) Watched.server es = some w ∧ w.InOrder ∧
    (∀ c ∈ w.pipeline.accepted, c.arrivalTs ≤ 100) ∧
    60 * (w.pipeline.stats 100).2.msgsPerSec ≠ (w.since 60 100).length := by
  obtain ⟨w, hw, -, hacc, -⟩ := Watched.run_reports 10001
  have hord := Watched.inOrder_of_replicate hacc
  have harrival : ∀ c ∈ w.pipeline.accepted, c.arrivalTs = 100 := by
    intro c hc
    have hmem := List.mem_map_of_mem (f := fun c : Call => c.arrivalTs) hc
    rw [hacc] at hmem
    exact List.eq_of_mem_replicate hmem
  refine ⟨_, w, hw, hord, fun c hc => (harrival c hc).le, ?_⟩
  have hwindow : (w.since 60 100).length = 10001 := by
    have hall : w.since 60 100 = w.pipeline.accepted := by
      refine List.filter_eq_self.2 fun c hc => ?_
      rw [harrival c hc]
      decide +kernel
    have hlen := congrArg List.length hacc
    rw [List.length_map, List.length_replicate] at hlen
    rw [hall, hlen]
  rw [Watched.sixty_mul_rate, hwindow]
  have hle := (Watched.recent_sound hw hord).length_cut (100 - 60)
  unfold Pipeline.rateMaxlen at hle
  intro heq
  have heq : (w.recent.cut (100 - 60)).kept.length = 10001 := by exact_mod_cast heq
  omega

/-- **The vessels.**  After any run in which the arrivals and the calls of `stats` have the times of a clock that does
not go back, the vessels are those that were read from what was accepted and arrived in the last ten minutes; and the
same calls with `stats` called at other times are a run with the same vessels. -/
theorem unique_mmsi_exact {C : CacheOps Str Time} {digest : Str → Str} {cfg : Config} {ringSize : ℕ}
    {startedAt now : Time} {es : List WatchedEvent} {w : Watched C}
    (hrun : run (Watched.step digest) (Watched.new C cfg ringSize startedAt) es = some w)
    (hclock : (w.times ++ [now]).Pairwise (· ≤ ·)) :
    (w.pipeline.stats now).2.uniqueMmsi = ((w.since 600 now).filterMap Call.mmsi).toFinset.card ∧
    ∀ fs, Watched.quiet fs = Watched.quiet es →
      ∃ w', run (Watched.step digest) (Watched.new C cfg ringSize startedAt) fs = some w' ∧
        ((w'.times ++ [now]).Pairwise (· ≤ ·) →
          (w'.pipeline.stats now).2.uniqueMmsi = (w.pipeline.stats now).2.uniqueMmsi) := by
  refine ⟨Watched.uniqueMmsi_eq hrun hclock, fun fs hfs => ?_⟩
  have hcore := Watched.run_core digest (Watched.new C cfg ringSize startedAt) fs
  rw [hfs, ← Watched.run_core, hrun, Option.map_some] at hcore
  obtain ⟨w', hw', heq⟩ := Option.map_eq_some_iff.1 hcore
  refine ⟨w', hw', fun hclock' => ?_⟩
  have hacc : (Watched.core w'.pipeline).accepted = (Watched.core w.pipeline).accepted := by rw [heq]
  have hacc : w'.pipeline.accepted = w.pipeline.accepted := hacc
  rw [Watched.uniqueMmsi_eq hw' hclock', Watched.uniqueMmsi_eq hrun hclock, Watched.since, Watched.since, hacc]

/-- Two vessels, of which one is heard again on the other channel; somebody looks in between, and again when its first
report is more than ten minutes old. -/
def twoVessels : List WatchedEvent := [
  .sentence "!AIVDM,1,1,,A,13aEOK?P00PD2wVMdLDRhgvL289?,0*26".toList "10.0.0.9".toList 100 0 100,
  .stats 200,
  .sentence "!AIVDM,1,1,,A,402E4JAs8@P000,0*01".toList "10.0.0.9".toList 300 200 300,
  .sentence "!AIVDM,1,1,,B,13aEOK?P00PD2wVMdLDRhgvL289?,0*25".toList "10.0.0.9".toList 400 300 400,
  .stats 750]

/-- At 850 both are counted, and at 950 only the one that was heard again; nobody who looked made a difference. -/
theorem unique_mmsi_exact_two : ∃ w w',
    run (Watched.step id) Watched.server twoVessels = some w ∧
    run (Watched.step id) Watched.server (Watched.quiet twoVessels) = some w' ∧
    w.pipeline.accepted.map Call.mmsi = [some 244670316, some 2442345, some 244670316] ∧
    (w.pipeline.stats 850).2.uniqueMmsi = 2 ∧ (w'.pipeline.stats 850).2.uniqueMmsi = 2 ∧
    (w.pipeline.stats 950).2.uniqueMmsi = 1 ∧ (w'.pipeline.stats 950).2.uniqueMmsi = 1 := by
  have hrun : (run (Watched.step id) Watched.server twoVessels).map (fun w =>
      (w.times, w.pipeline.accepted.map Call.mmsi, ((w.since 600 850).filterMap Call.mmsi).toFinset.card,
        ((w.since 600 950).filterMap Call.mmsi).toFinset.card)) =
      some ([100, 200, 300, 400, 750], [some 244670316, some 2442345, some 244670316], 2, 1) := by decide +kernel
  have hquiet : (run (Watched.step id) Watched.server (Watched.quiet twoVessels)).map (·.times) =
      some [100, 300, 400] := by decide +kernel
  obtain ⟨w, hw, hfacts⟩ := Option.map_eq_some_iff.1 hrun
  obtain ⟨htimes, hvessels, hboth, hone⟩ : _ ∧ _ ∧ _ ∧ _ := by simpa only [Prod.mk.injEq] using hfacts
  have hclock : ∀ now, 750 ≤ now → (w.times ++ [now]).Pairwise (· ≤ ·) := by
    intro now hnow
    rw [htimes]
    refine List.pairwise_append.2 ⟨by decide +kernel, List.pairwise_singleton _ _, fun a ha b hb => ?_⟩
    obtain rfl := List.mem_singleton.1 hb
    have hle : ∀ a ∈ ([100, 200, 300, 400, 750] : List Time), a ≤ 750 := by decide +kernel
    exact (hle a ha).trans hnow
  obtain ⟨h850, hsame⟩ := unique_mmsi_exact hw (hclock 850 (by decide +kernel))
  obtain ⟨h950, hsame'⟩ := unique_mmsi_exact hw (hclock 950 (by decide +kernel))
  have hidem : Watched.quiet (Watched.quiet twoVessels) = Watched.quiet twoVessels := by simp [Watched.quiet]
  obtain ⟨w', hw', hcount⟩ := hsame (Watched.quiet twoVessels) hidem
  obtain ⟨w'', hw'', hcount'⟩ := hsame' (Watched.quiet twoVessels) hidem
  obtain rfl : w' = w'' := Option.some.inj (hw'.symm.trans hw'')
  have htimes' : w'.times = [100, 300, 400] := by
    rw [Watched.server, hw', Option.map_some, Option.some.injEq] at hquiet
    exact hquiet
  have hclock' : ∀ now, 750 ≤ now → (w'.times ++ [now]).Pairwise (· ≤ ·) := by
    intro now hnow
    refine (hclock now hnow).sublist (List.Sublist.append ?_ (List.Sublist.refl _))
    rw [htimes, htimes']
    decide +kernel
  rw [hboth] at h850
  rw [hone] at h950
  exact ⟨w, w', hw, hw', hvessels, h850, (hcount (hclock' 850 (by decide +kernel))).trans h850, h950,
    (hcount' (hclock' 950 (by decide +kernel))).trans h950⟩

end AisServer.Stream
