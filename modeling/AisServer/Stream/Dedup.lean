import AisServer.Lib.TtlCache
import AisServer.Nmea.Sentence

/-!
# The duplicate detector

`Deduper.check` looks a sentence up under the digest of its canonical form, and stores the arrival time
of the first copy.  The cache object and the digest are parameters: `C` is what `cachetools.TTLCache`
gives, `digest` is SHA-1.

* `check_cases` — what one check does, from what the cache answered.
-/

namespace AisServer.Stream

open AisServer.Lib AisServer.Nmea

/-- `_key` -/
def dedupKey (digest : Str → Str) (sentence : Str) : Str := digest (canonicalise sentence)

structure Deduper (C : CacheOps Str Time) where
  cache : C.State
  seen : ℕ := 0
  duplicates : ℕ := 0

namespace Deduper

variable {C : CacheOps Str Time} {digest : Str → Str}

def new (C : CacheOps Str Time) : Deduper C := { cache := C.init }

/-- `check` at a reading `now` of the timer of the cache: the deduper afterwards and
`(is_new, effective_timestamp)`, `none` for the `ValueError` of a cache without room. -/
def check (digest : Str → Str) (d : Deduper C) (sentence : Str) (arrivalTs now : Time) :
    Deduper C × Option (Bool × Time) :=
  let key := dedupKey digest sentence
  match C.get d.cache now key with
  | (none, cache) =>
    match C.set cache now key arrivalTs with
    | some cache => ({ d with cache, seen := d.seen + 1 }, some (true, arrivalTs))
    | none => ({ d with cache, seen := d.seen + 1 }, none)
  | (some existing, cache) =>
    ({ d with cache, seen := d.seen + 1, duplicates := d.duplicates + 1 }, some (false, existing))

variable {d d' : Deduper C} {sentence : Str} {arrivalTs now ts : Time}

/-- What one check can do: the cache has the key, or takes it, or has no room for it. -/
theorem check_cases {r : Option (Bool × Time)} (h : check digest d sentence arrivalTs now = (d', r)) :
    let key := dedupKey digest sentence
    let found := C.get d.cache now key
    (∃ existing, found.1 = some existing ∧ r = some (false, existing) ∧
      d' = { d with cache := found.2, seen := d.seen + 1, duplicates := d.duplicates + 1 }) ∨
    (∃ cache, found.1 = none ∧ C.set found.2 now key arrivalTs = some cache ∧ r = some (true, arrivalTs) ∧
      d' = { d with cache, seen := d.seen + 1 }) ∨
    (found.1 = none ∧ C.set found.2 now key arrivalTs = none ∧ r = none ∧
      d' = { d with cache := found.2, seen := d.seen + 1 }) := by
  intro key found
  unfold check at h
  rcases hg : found with ⟨_ | existing, cache⟩
  · simp only [show C.get d.cache now (dedupKey digest sentence) = (none, cache) from hg] at h
    rcases hs : C.set cache now key arrivalTs with _ | cache'
    · simp only [show C.set cache now (dedupKey digest sentence) arrivalTs = none from hs, Prod.mk.injEq] at h
      exact Or.inr (Or.inr ⟨rfl, rfl, h.2.symm, h.1.symm⟩)
    · simp only [show C.set cache now (dedupKey digest sentence) arrivalTs = some cache' from hs, Prod.mk.injEq] at h
      exact Or.inr (Or.inl ⟨cache', rfl, rfl, h.2.symm, h.1.symm⟩)
  · simp only [show C.get d.cache now (dedupKey digest sentence) = (some existing, cache) from hg, Prod.mk.injEq] at h
    exact Or.inl ⟨existing, rfl, h.2.symm, h.1.symm⟩

theorem check_new (h : check digest d sentence arrivalTs now = (d', some (true, ts))) :
    ts = arrivalTs ∧ (C.get d.cache now (dedupKey digest sentence)).1 = none ∧
    C.set (C.get d.cache now (dedupKey digest sentence)).2 now (dedupKey digest sentence) arrivalTs =
      some d'.cache := by
  obtain ⟨existing, -, hr, -⟩ | ⟨cache, hnone, hset, hr, rfl⟩ | ⟨-, -, hr, -⟩ := check_cases h
  · cases hr
  · cases hr
    exact ⟨rfl, hnone, hset⟩
  · cases hr

theorem check_not_new (h : check digest d sentence arrivalTs now = (d', some (false, ts))) :
    d'.cache = (C.get d.cache now (dedupKey digest sentence)).2 := by
  obtain ⟨existing, -, -, rfl⟩ | ⟨cache, -, -, hr, -⟩ | ⟨-, -, hr, -⟩ := check_cases h
  · rfl
  · cases hr
  · cases hr

theorem check_raises (h : check digest d sentence arrivalTs now = (d', none)) :
    d'.cache = (C.get d.cache now (dedupKey digest sentence)).2 := by
  obtain ⟨existing, -, hr, -⟩ | ⟨cache, -, -, hr, -⟩ | ⟨-, -, -, rfl⟩ := check_cases h
  · cases hr
  · cases hr
  · rfl

theorem check_duplicate (h : check digest d sentence arrivalTs now = (d', some (false, ts))) :
    (C.get d.cache now (dedupKey digest sentence)).1 = some ts := by
  obtain ⟨existing, hfound, hr, -⟩ | ⟨cache, -, -, hr, -⟩ | ⟨-, -, hr, -⟩ := check_cases h
  · cases hr
    exact hfound
  · cases hr
  · cases hr

theorem check_counters {isNew : Bool} (h : check digest d sentence arrivalTs now = (d', some (isNew, ts))) :
    d'.seen = d.seen + 1 ∧ d'.duplicates = d.duplicates + if isNew then 0 else 1 := by
  obtain ⟨existing, -, hr, rfl⟩ | ⟨cache, -, -, hr, rfl⟩ | ⟨-, -, hr, -⟩ := check_cases h
  · cases hr
    exact ⟨rfl, rfl⟩
  · cases hr
    exact ⟨rfl, rfl⟩
  · cases hr

/-! ### The cache and what was accepted -/

variable {maxEntries : ℕ} {ttl clock : Time} {log : List (Entry Str Time)}
  (D : Documented C maxEntries ttl)

/-- A cache with room for one entry lets every check return. -/
theorem check_returns (D : Documented C maxEntries ttl) (hmax : maxEntries ≠ 0) (digest : Str → Str)
    (d : Deduper C) (sentence : Str) (arrivalTs now : Time) :
    ∃ d' r, check digest d sentence arrivalTs now = (d', some r) := by
  unfold check
  rcases hg : C.get d.cache now (dedupKey digest sentence) with ⟨_ | existing, cache⟩
  · have hset := D.set_entries cache now (dedupKey digest sentence) arrivalTs
    rw [if_neg hmax] at hset
    obtain ⟨cache', hc, -⟩ := Option.map_eq_some_iff.1 hset
    simp only [hg, hc]
    exact ⟨_, _, rfl⟩
  · simp only [hg]
    exact ⟨_, _, rfl⟩

/-- When a sentence is new everything accepted under its key has expired, and it is accepted, as long as what
was accepted in the last `ttl` seconds fits in the cache. -/
theorem tracks_check_new (ht : Tracks (D.entries d.cache) log clock) (hc : clock ≤ now)
    (hpast : ∀ e ∈ log, e.expires ≤ now + ttl)
    (h : check digest d sentence arrivalTs now = (d', some (true, ts)))
    (hw : (Tracks.windowKeys (log ++ [⟨dedupKey digest sentence, arrivalTs, now + ttl⟩]) ttl now).card ≤
      maxEntries) :
    (∀ e ∈ log, e.key = dedupKey digest sentence → e.expires ≤ now) ∧
    Tracks (D.entries d'.cache) (log ++ [⟨dedupKey digest sentence, arrivalTs, now + ttl⟩]) now := by
  obtain ⟨-, hnone, hset⟩ := check_new h
  set k := dedupKey digest sentence
  have halive : alive (D.entries d.cache) now k = none := by
    rw [D.get_value, Option.map_eq_none_iff] at hnone
    exact hnone
  have hold := (ht.alive_eq_none_iff hc).1 halive
  have hstore := D.set_entries (C.get d.cache now k).2 now k arrivalTs
  rw [hset, Option.map_some] at hstore
  have hmax : maxEntries ≠ 0 := by
    intro hz
    rw [if_pos hz] at hstore
    cases hstore
  rw [if_neg hmax, D.get_entries] at hstore
  refine ⟨hold, ?_⟩
  rw [Option.some.inj hstore]
  exact (ht.touch hc k).store le_rfl hold (Tracks.room hpast hmax hw)

theorem tracks_get (ht : Tracks (D.entries d.cache) log clock) (hc : clock ≤ now) (k : Str)
    (hd : d'.cache = (C.get d.cache now k).2) : Tracks (D.entries d'.cache) log now := by
  rw [hd, D.get_entries]
  exact ht.touch hc k

theorem accepted_of_duplicate (ht : Tracks (D.entries d.cache) log clock)
    (h : check digest d sentence arrivalTs now = (d', some (false, ts))) :
    ∃ e ∈ log, e.key = dedupKey digest sentence ∧ now < e.expires ∧ e.value = ts := by
  have hget := check_duplicate h
  rw [D.get_value] at hget
  obtain ⟨e, he, hts⟩ := Option.map_eq_some_iff.1 hget
  obtain ⟨hmem, hkey, hlt⟩ := alive_eq_some he
  exact ⟨e, ht.sub e hmem, hkey, hlt, hts⟩

end Deduper

end AisServer.Stream
