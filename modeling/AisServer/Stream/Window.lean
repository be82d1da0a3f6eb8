import AisServer.Lib.Run
import AisServer.Stream.Dedup

/-!
# The dedup window

`Checks` is a duplicate detector with the log of its checks, on a timer that does not go back.

* `Exact` — a check finds a duplicate exactly when the key was accepted less than `ttl` seconds before;
* `dedup_window` — as long as what is accepted within `ttl` seconds fits in the cache, every log is exact;
* `earliest_arrival` — the copies of a sentence within one window get the arrival time of the first copy that
  was checked, which is the earliest exactly when no later copy arrived before it.
-/

namespace AisServer.Stream

open AisServer.Lib AisServer.Nmea

/-- A call of `check`, at a reading `now` of the timer of the cache. -/
structure Check where
  sentence : Str
  arrivalTs : Time
  now : Time
  deriving DecidableEq

/-- A call that returned `(isNew, ts)`. -/
structure Checked extends Check where
  isNew : Bool
  ts : Time
  deriving DecidableEq

def Check.returned (c : Check) (isNew : Bool) (ts : Time) : Checked := { c with isNew, ts }

structure Checks (C : CacheOps Str Time) where
  dedup : Deduper C
  clock : Time
  log : List Checked := []

namespace Checks

variable {C : CacheOps Str Time} {digest : Str → Str} {maxEntries : ℕ} {ttl : Time} {s t : Checks C}
  {c : Check}

def start (C : CacheOps Str Time) (clock : Time) : Checks C := { dedup := Deduper.new C, clock }

/-- A check that returns; `none` when the timer went back or the cache has no room at all. -/
def step (digest : Str → Str) (s : Checks C) (c : Check) : Option (Checks C) :=
  if c.now < s.clock then none
  else
    match s.dedup.check digest c.sentence c.arrivalTs c.now with
    | (dedup, some (isNew, ts)) =>
      some { dedup, clock := c.now, log := s.log ++ [c.returned isNew ts] }
    | (_, none) => none

theorem step_eq_some (h : s.step digest c = some t) : s.clock ≤ c.now ∧ ∃ dedup isNew ts,
    s.dedup.check digest c.sentence c.arrivalTs c.now = (dedup, some (isNew, ts)) ∧
      t = { dedup, clock := c.now, log := s.log ++ [c.returned isNew ts] } := by
  unfold step at h
  by_cases hlt : c.now < s.clock
  · simp [hlt] at h
  · rw [if_neg hlt] at h
    refine ⟨not_lt.1 hlt, ?_⟩
    rcases hc : s.dedup.check digest c.sentence c.arrivalTs c.now with ⟨dedup, _ | ⟨isNew, ts⟩⟩
    · simp [hc] at h
    · simp only [hc, Option.some.injEq] at h
      exact ⟨dedup, isNew, ts, rfl, h.symm⟩

theorem step_isSome (D : Documented C maxEntries ttl) (hmax : maxEntries ≠ 0) (hc : s.clock ≤ c.now) :
    (s.step digest c).isSome = true := by
  obtain ⟨dedup, r, hr⟩ := Deduper.check_returns D hmax digest s.dedup c.sentence c.arrivalTs c.now
  simp [step, not_lt.2 hc, hr]

/-! ### Exactness -/

/-- The canonical forms that were accepted in the `ttl` seconds up to a time. -/
def acceptedForms (log : List Checked) (ttl time : Time) : Finset Str :=
  ((log.filter fun c => c.isNew ∧ time - ttl < c.now ∧ c.now ≤ time).map
    fun c => canonicalise c.sentence).toFinset

/-- In no `ttl` seconds are more than `maxEntries` distinct canonical forms accepted. -/
def Fits (log : List Checked) (ttl : Time) (maxEntries : ℕ) : Prop :=
  ∀ time, (acceptedForms log ttl time).card ≤ maxEntries

/-- The keys of two checked sentences are equal only when their canonical forms are. -/
def NoCollision (digest : Str → Str) (log : List Checked) : Prop :=
  ∀ a ∈ log, ∀ b ∈ log, dedupKey digest a.sentence = dedupKey digest b.sentence →
    canonicalise a.sentence = canonicalise b.sentence

/-- The `i`-th check finds a duplicate exactly when an earlier one accepted its key less than `ttl` before. -/
def Exact (digest : Str → Str) (ttl : Time) (log : List Checked) : Prop :=
  ∀ i e, log[i]? = some e → (e.isNew = false ↔ ∃ a ∈ log.take i, a.isNew = true ∧
    dedupKey digest a.sentence = dedupKey digest e.sentence ∧ a.now ≤ e.now ∧ e.now < a.now + ttl)

/-- The entry that an accepted check stores. -/
def toEntry (digest : Str → Str) (ttl : Time) (c : Checked) : Entry Str Time :=
  ⟨dedupKey digest c.sentence, c.arrivalTs, c.now + ttl⟩

/-- Everything that was ever stored. -/
def stored (digest : Str → Str) (ttl : Time) (log : List Checked) : List (Entry Str Time) :=
  (log.filter (·.isNew)).map (toEntry digest ttl)

theorem mem_stored {log : List Checked} {e : Entry Str Time} :
    e ∈ stored digest ttl log ↔ ∃ c ∈ log, c.isNew = true ∧ toEntry digest ttl c = e := by
  simp only [stored, List.mem_map, List.mem_filter]
  constructor
  · rintro ⟨c, ⟨hc, hnew⟩, he⟩
    exact ⟨c, hc, hnew, he⟩
  · rintro ⟨c, hc, hnew, he⟩
    exact ⟨c, ⟨hc, hnew⟩, he⟩

theorem card_windowKeys_le (digest : Str → Str) (log : List Checked) (ttl time : Time) :
    (Tracks.windowKeys (stored digest ttl log) ttl time).card ≤ (acceptedForms log ttl time).card := by
  have hsub : Tracks.windowKeys (stored digest ttl log) ttl time ⊆ (acceptedForms log ttl time).image digest := by
    intro k hk
    simp only [Tracks.windowKeys, List.mem_toFinset, List.mem_map, List.mem_filter, decide_eq_true_eq] at hk
    obtain ⟨e, ⟨he, hlt, hle⟩, rfl⟩ := hk
    obtain ⟨c, hc, hnew, rfl⟩ := mem_stored.1 he
    refine Finset.mem_image.2 ⟨canonicalise c.sentence, ?_, rfl⟩
    simp only [acceptedForms, List.mem_toFinset, List.mem_map, List.mem_filter, decide_eq_true_eq]
    exact ⟨c, ⟨hc, hnew, sub_lt_iff_lt_add.2 hlt, le_of_add_le_add_right hle⟩, rfl⟩
  exact (Finset.card_le_card hsub).trans Finset.card_image_le

theorem Fits.of_prefix {log log' : List Checked} (h : Fits log' ttl maxEntries) (hp : log <+: log') :
    Fits log ttl maxEntries := by
  intro time
  refine (Finset.card_le_card fun k hk => ?_).trans (h time)
  simp only [acceptedForms, List.mem_toFinset, List.mem_map, List.mem_filter] at hk ⊢
  obtain ⟨c, ⟨hc, hwin⟩, rfl⟩ := hk
  exact ⟨c, ⟨hp.subset hc, hwin⟩, rfl⟩

theorem Exact.append {log : List Checked} (h : Exact digest ttl log) {c : Checked}
    (hc : c.isNew = false ↔ ∃ a ∈ log, a.isNew = true ∧
      dedupKey digest a.sentence = dedupKey digest c.sentence ∧ a.now ≤ c.now ∧ c.now < a.now + ttl) :
    Exact digest ttl (log ++ [c]) := by
  intro i e he
  rcases Nat.lt_or_ge i log.length with hi | hi
  · rw [List.getElem?_append_left hi] at he
    rw [List.take_append_of_le_length hi.le]
    exact h i e he
  · rw [List.getElem?_append_right hi, List.getElem?_singleton] at he
    obtain ⟨hi', rfl⟩ : i = log.length ∧ c = e := by
      split at he
      · exact ⟨by omega, Option.some.inj he⟩
      · cases he
    rw [hi', List.take_left]
    exact hc

theorem fits_of_length {log : List Checked} (h : log.length ≤ maxEntries) : Fits log ttl maxEntries := by
  intro time
  refine (List.toFinset_card_le _).trans ?_
  rw [List.length_map]
  exact (List.length_filter_le _ _).trans h

/-- What the duplicate detector knows of its log. -/
structure Windowed (digest : Str → Str) (D : Documented C maxEntries ttl) (s : Checks C) : Prop where
  tracks : Tracks (D.entries s.dedup.cache) (stored digest ttl s.log) s.clock
  past : ∀ c ∈ s.log, c.now ≤ s.clock
  exact : Exact digest ttl s.log
  seen : s.dedup.seen = s.log.length
  duplicates : s.dedup.duplicates + s.log.countP (·.isNew) = s.log.length

variable {D : Documented C maxEntries ttl}

theorem windowed_start (digest : Str → Str) (D : Documented C maxEntries ttl) (clock : Time) :
    Windowed digest D (start C clock) where
  tracks := by
    show Tracks (D.entries C.init) [] clock
    rw [D.init_entries]
    exact Tracks.nil clock
  past := by simp [start]
  exact := by simp [Exact, start]
  seen := rfl
  duplicates := rfl

theorem Windowed.step (hs : Windowed digest D s) (hfits : Fits t.log ttl maxEntries)
    (h : s.step digest c = some t) : Windowed digest D t := by
  obtain ⟨hnow, dedup, isNew, ts, hc, rfl⟩ := step_eq_some h
  obtain ⟨hseen, hdup⟩ := Deduper.check_counters hc
  have hpast : ∀ a ∈ s.log, a.now ≤ c.now := fun a ha => (hs.past a ha).trans hnow
  have hpast' : ∀ a ∈ s.log ++ [c.returned isNew ts], a.now ≤ c.now := by
    intro a ha
    rcases List.mem_append.1 ha with ha | ha
    · exact hpast a ha
    · obtain rfl := List.mem_singleton.1 ha
      exact le_rfl
  have hseen : dedup.seen = (s.log ++ [c.returned isNew ts]).length := by
    rw [hseen, hs.seen, List.length_append, List.length_singleton]
  have hdup : dedup.duplicates + (s.log ++ [c.returned isNew ts]).countP (·.isNew) =
      (s.log ++ [c.returned isNew ts]).length := by
    have hcount := hs.duplicates
    rw [hdup, List.countP_append, List.length_append]
    cases isNew <;> simp [Check.returned] <;> omega
  cases isNew with
  | false =>
    have hstored : stored digest ttl (s.log ++ [c.returned false ts]) = stored digest ttl s.log := by
      simp [stored, Check.returned]
    refine ⟨?_, hpast', hs.exact.append ?_, hseen, hdup⟩
    · rw [hstored]
      exact Deduper.tracks_get D hs.tracks hnow _ (Deduper.check_not_new hc)
    · obtain ⟨e, he, hkey, hlt, -⟩ := Deduper.accepted_of_duplicate D hs.tracks hc
      obtain ⟨a, ha, hnew, rfl⟩ := mem_stored.1 he
      exact iff_of_true rfl ⟨a, ha, hnew, hkey, hpast a ha, hlt⟩
  | true =>
    have hstored : stored digest ttl (s.log ++ [c.returned true ts]) =
        stored digest ttl s.log ++ [⟨dedupKey digest c.sentence, c.arrivalTs, c.now + ttl⟩] := by
      simp [stored, toEntry, Check.returned]
    have hexpires : ∀ e ∈ stored digest ttl s.log, e.expires ≤ c.now + ttl := by
      intro e he
      obtain ⟨a, ha, -, rfl⟩ := mem_stored.1 he
      exact add_le_add_left (hpast a ha) ttl
    have hroom := (card_windowKeys_le digest _ ttl c.now).trans (hfits c.now)
    rw [hstored] at hroom
    obtain ⟨hold, htracks⟩ := Deduper.tracks_check_new D hs.tracks hnow hexpires hc hroom
    refine ⟨?_, hpast', hs.exact.append ?_, hseen, hdup⟩
    · rw [hstored]
      exact htracks
    · refine iff_of_false Bool.noConfusion ?_
      rintro ⟨a, ha, hnew, hkey, -, hlt⟩
      exact absurd (hold (toEntry digest ttl a) (mem_stored.2 ⟨a, ha, hnew, rfl⟩) hkey) (not_le.2 hlt)

theorem log_grows (h : s.step digest c = some t) : s.log <+: t.log := by
  obtain ⟨-, dedup, isNew, ts, -, rfl⟩ := step_eq_some h
  exact List.prefix_append _ _

theorem windowed_of_run {clock : Time} {es : List Check} (h : run (step digest) (start C clock) es = some s)
    (hfits : Fits s.log ttl maxEntries) : Windowed digest D s := by
  refine run_inv_of_step (I := fun s => Fits s.log ttl maxEntries → Windowed digest D s) ?_
    (fun _ => windowed_start digest D clock) h hfits
  intro s c t hs hst hfits
  exact (hs (hfits.of_prefix (log_grows hst))).step hfits hst

end Checks

variable {C : CacheOps Str Time} {digest : Str → Str} {maxEntries : ℕ} {ttl : Time}

/-- **An exact window.**  When the timer of the cache does not go back, in no `ttl` seconds more than `maxEntries`
canonical forms are accepted and no two of the forms collide, a check finds a duplicate exactly when an earlier
check accepted the same form less than `ttl` seconds before; every check counts in `seen`, and either in
`duplicates` or as accepted; and with room for one entry every check returns. -/
theorem dedup_window (D : Documented C maxEntries ttl) {clock : Time} {es : List Check} {s : Checks C}
    (h : run (Checks.step digest) (Checks.start C clock) es = some s) (hfits : Checks.Fits s.log ttl maxEntries)
    (hcol : Checks.NoCollision digest s.log) :
    (∀ i e, s.log[i]? = some e → (e.isNew = false ↔ ∃ a ∈ s.log.take i, a.isNew = true ∧
      canonicalise a.sentence = canonicalise e.sentence ∧ a.now ≤ e.now ∧ e.now < a.now + ttl)) ∧
    s.dedup.seen = s.dedup.duplicates + s.log.countP (·.isNew) ∧
    (maxEntries ≠ 0 → ∀ c, s.clock ≤ c.now → (s.step digest c).isSome = true) := by
  have hw : Checks.Windowed digest D s := Checks.windowed_of_run h hfits
  refine ⟨fun i e he => ?_, hw.seen.trans hw.duplicates.symm, fun hmax c hc => Checks.step_isSome D hmax hc⟩
  rw [hw.exact i e he]
  constructor
  · rintro ⟨a, ha, hnew, hkey, hin⟩
    exact ⟨a, ha, hnew, hcol a (List.mem_of_mem_take ha) e (List.mem_of_getElem? he) hkey, hin⟩
  · rintro ⟨a, ha, hnew, hform, hin⟩
    refine ⟨a, ha, hnew, ?_, hin⟩
    unfold dedupKey
    rw [hform]

/-- A sentence that comes again within the window and a third time after it. -/
def threeChecks : List Check := [⟨['a'], 100, 0⟩, ⟨['a'], 105, 5⟩, ⟨['a'], 131, 31⟩]

theorem dedup_window_threeChecks : ∃ s,
    run (Checks.step id) (Checks.start (refCache Str Time 10 30) 0) threeChecks = some s ∧
      s.log.map (·.isNew) = [true, false, true] ∧ s.dedup.seen = s.dedup.duplicates + 2 := by
  have hrun : (run (Checks.step id) (Checks.start (refCache Str Time 10 30) 0) threeChecks).map (·.log) =
      some [⟨⟨['a'], 100, 0⟩, true, 100⟩, ⟨⟨['a'], 105, 5⟩, false, 100⟩, ⟨⟨['a'], 131, 31⟩, true, 131⟩] := by
    decide +kernel
  obtain ⟨s, hs, hlog⟩ := Option.map_eq_some_iff.1 hrun
  obtain ⟨-, hseen, -⟩ := dedup_window (refCache_documented Str Time 10 30) hs
    (Checks.fits_of_length (by rw [hlog]; decide)) (fun a _ b _ h => h)
  refine ⟨s, hs, by rw [hlog]; rfl, ?_⟩
  rw [hseen, hlog]
  rfl

/-! ### The effective timestamp -/

namespace Checks

variable {s t : Checks C} {c : Check}

/-- As long as the cache holds a copy that has not expired, a check of another copy is a duplicate of it, and
leaves it there. -/
theorem step_of_holds (D : Documented C maxEntries ttl) {e : Entry Str Time}
    (hs : Holds (D.entries s.dedup.cache) e) (hkey : dedupKey digest c.sentence = e.key)
    (hlt : c.now < e.expires) (h : s.step digest c = some t) :
    t.log = s.log ++ [c.returned false e.value] ∧ Holds (D.entries t.dedup.cache) e := by
  obtain ⟨-, dedup, isNew, ts, hc, rfl⟩ := step_eq_some h
  have hget : (C.get s.dedup.cache c.now (dedupKey digest c.sentence)).1 = some e.value := by
    rw [D.get_value, hkey, hs.alive hlt]
    rfl
  cases isNew with
  | true =>
    rw [(Deduper.check_new hc).2.1] at hget
    cases hget
  | false =>
    rw [Deduper.check_duplicate hc] at hget
    obtain rfl := Option.some.inj hget
    refine ⟨rfl, ?_⟩
    rw [Deduper.check_not_new hc, D.get_entries]
    exact hs.touch _ _

theorem run_of_holds (D : Documented C maxEntries ttl) {e : Entry Str Time} {es : List Check}
    (hs : Holds (D.entries s.dedup.cache) e) (hkey : ∀ c ∈ es, dedupKey digest c.sentence = e.key)
    (hlt : ∀ c ∈ es, c.now < e.expires) (h : run (step digest) s es = some t) :
    t.log = s.log ++ es.map fun c => c.returned false e.value := by
  induction es generalizing s with
  | nil =>
    obtain rfl : s = t := by simpa using h
    simp
  | cons c es ih =>
    obtain ⟨u, hu, h⟩ := run_cons_some h
    obtain ⟨hlog, hholds⟩ := step_of_holds D hs (hkey c (List.mem_cons_self ..)) (hlt c (List.mem_cons_self ..)) hu
    rw [ih hholds (fun c hc => hkey c (List.mem_cons_of_mem _ hc))
      (fun c hc => hlt c (List.mem_cons_of_mem _ hc)) h, hlog, List.map_cons, List.append_assoc,
      List.singleton_append]

theorem holds_of_new (D : Documented C maxEntries ttl) {ts : Time} {dedup : Deduper C}
    (h : s.dedup.check digest c.sentence c.arrivalTs c.now = (dedup, some (true, ts))) :
    Holds (D.entries dedup.cache) ⟨dedupKey digest c.sentence, c.arrivalTs, c.now + ttl⟩ := by
  obtain ⟨-, -, hset⟩ := Deduper.check_new h
  have hstore := D.set_entries (C.get s.dedup.cache c.now (dedupKey digest c.sentence)).2 c.now
    (dedupKey digest c.sentence) c.arrivalTs
  rw [hset, Option.map_some] at hstore
  split at hstore
  · cases hstore
  · rw [Option.some.inj hstore]
    exact holds_store _ _ _ _ _ _

/-- The copies of a sentence, from one that is new, on a timer within its window. -/
theorem log_of_copies (D : Documented C maxEntries ttl) {es : List Check}
    (h : run (step digest) s (c :: es) = some t)
    (hnew : (s.dedup.check digest c.sentence c.arrivalTs c.now).2.map Prod.fst = some true)
    (hcopies : ∀ e ∈ es, canonicalise e.sentence = canonicalise c.sentence)
    (hwindow : ∀ e ∈ es, e.now < c.now + ttl) :
    t.log = s.log ++ c.returned true c.arrivalTs :: es.map fun e => e.returned false c.arrivalTs := by
  obtain ⟨u, hu, h⟩ := run_cons_some h
  obtain ⟨-, dedup, isNew, ts, hc, rfl⟩ := step_eq_some hu
  rw [hc] at hnew
  obtain rfl : isNew = true := by simpa using hnew
  obtain ⟨rfl, -, -⟩ := Deduper.check_new hc
  rw [run_of_holds D (holds_of_new D hc) ?_ hwindow h, List.append_assoc, List.singleton_append]
  intro e he
  unfold dedupKey
  rw [hcopies e he]

end Checks

/-- **The earliest arrival.**  The copies of a sentence are checked in any order of their arrival, the first of
them is new, and all are checked within its window.  The timestamp that each of them gets is the least arrival of
the copies checked so far, and not later than its own, exactly when no copy arrived before the one that was checked
first. -/
theorem earliest_arrival (D : Documented C maxEntries ttl) {s t : Checks C} {c : Check} {es : List Check}
    (h : run (Checks.step digest) s (c :: es) = some t)
    (hnew : (s.dedup.check digest c.sentence c.arrivalTs c.now).2.map Prod.fst = some true)
    (hcopies : ∀ e ∈ es, canonicalise e.sentence = canonicalise c.sentence)
    (hwindow : ∀ e ∈ es, e.now < c.now + ttl) :
    ∃ results, t.log = s.log ++ results ∧ results.map Checked.toCheck = c :: es ∧
      ((∀ ds e, ds ++ [e] <+: results →
        IsLeast {x | ∃ d ∈ ds ++ [e], d.arrivalTs = x} e.ts ∧ e.ts ≤ e.arrivalTs) ↔
        ∀ e ∈ es, c.arrivalTs ≤ e.arrivalTs) := by
  refine ⟨_, Checks.log_of_copies D h hnew hcopies hwindow, ?_, ?_⟩
  · rw [List.map_cons, List.map_map]
    exact congrArg (c :: ·) (List.map_id' es)
  set results := c.returned true c.arrivalTs :: es.map fun e => e.returned false c.arrivalTs with hresults
  have hts : ∀ e ∈ results, e.ts = c.arrivalTs := by
    simp [hresults, Check.returned]
  constructor
  · intro hall e he
    have hmem : e.returned false c.arrivalTs ∈ results :=
      List.mem_cons_of_mem _ (List.mem_map_of_mem he)
    obtain ⟨ds, post, hsplit⟩ := List.append_of_mem hmem
    exact (hall ds (e.returned false c.arrivalTs) ⟨post, by rw [hsplit]; simp⟩).2
  · intro hle ds e hpre
    have hmem : ∀ d ∈ ds ++ [e], d ∈ results := fun d hd => hpre.subset hd
    have hearliest : ∀ d ∈ results, c.arrivalTs ≤ d.arrivalTs := by
      intro d hd
      rcases List.mem_cons.1 hd with rfl | hd
      · exact le_rfl
      · obtain ⟨e', he', rfl⟩ := List.mem_map.1 hd
        exact hle e' he'
    rw [hts e (hmem e (by simp))]
    refine ⟨⟨?_, ?_⟩, hearliest e (hmem e (by simp))⟩
    · -- the first copy is among those checked so far
      obtain ⟨post, hpost⟩ := hpre
      have hfirst : c.returned true c.arrivalTs ∈ ds ++ [e] := by
        rcases ds with _ | ⟨d, ds⟩
        · simp [(List.cons.inj hpost).1]
        · simp [(List.cons.inj hpost).1]
      exact ⟨_, hfirst, rfl⟩
    · rintro x ⟨d, hd, rfl⟩
      exact hearliest d (hmem d hd)

/-- Two copies, the second of which arrived `delay` seconds after the first. -/
def twoCopies (delay : Time) : List Check := [⟨['a'], 100, 0⟩, ⟨['a'], 100 + delay, 1⟩]

theorem earliest_arrival_later : ∃ t results, run (Checks.step id)
    (Checks.start (refCache Str Time 10 30) 0) (twoCopies 5) = some t ∧ t.log = results ∧
      results.map Checked.toCheck = twoCopies 5 ∧ ∀ ds e, ds ++ [e] <+: results →
        IsLeast {x | ∃ d ∈ ds ++ [e], d.arrivalTs = x} e.ts ∧ e.ts ≤ e.arrivalTs := by
  have hrun : (run (Checks.step id) (Checks.start (refCache Str Time 10 30) 0) (twoCopies 5)).isSome = true := by
    decide +kernel
  obtain ⟨t, ht⟩ := Option.isSome_iff_exists.1 hrun
  obtain ⟨results, hlog, hcalls, hiff⟩ := earliest_arrival (refCache_documented Str Time 10 30) ht
    (by decide +kernel) (by decide +kernel) (by decide +kernel)
  exact ⟨t, results, ht, hlog, hcalls, hiff.2 (by decide +kernel)⟩

/-- The copy that arrived first is checked second, and gets a later timestamp than its own. -/
theorem earliest_arrival_fails : ∃ t, run (Checks.step id) (Checks.start (refCache Str Time 10 30) 0)
    (twoCopies (-5)) = some t ∧ t.log.map (fun e => (e.arrivalTs, e.isNew, e.ts)) =
      [(100, true, 100), (95, false, 100)] ∧ ∃ e ∈ t.log, e.arrivalTs < e.ts := by
  have hrun : (run (Checks.step id) (Checks.start (refCache Str Time 10 30) 0) (twoCopies (-5))).map (·.log) =
      some [⟨⟨['a'], 100, 0⟩, true, 100⟩, ⟨⟨['a'], 95, 1⟩, false, 100⟩] := by decide +kernel
  obtain ⟨t, ht, hlog⟩ := Option.map_eq_some_iff.1 hrun
  refine ⟨t, ht, by rw [hlog]; rfl, ?_⟩
  rw [hlog]
  exact ⟨⟨⟨['a'], 95, 1⟩, false, 100⟩, by simp, by decide +kernel⟩

end AisServer.Stream
