import AisServer.Lib.Calendar
import Mathlib.Data.Finset.Card
import Mathlib.Data.Finset.Image
import Mathlib.Tactic.Linarith

/-!
# A cache whose entries expire

`CacheOps` is the interface of a cache object, `Documented` the behaviour that the documentation of
`cachetools.TTLCache(maxsize, ttl)` promises of it, in terms of its entries, least recently used
first.  `refCache` is a cache that behaves so.

`Tracks` relates the entries of a cache to the log of everything that was ever stored.  As long as
fewer than `maxsize` keys are alive when a new one is stored, the cache holds exactly what has not
expired (`Tracks.alive_eq_none_iff`, `Tracks.store`), and so few are alive when those stored in the last `ttl`
seconds fit in it (`Tracks.room`).  What was stored last is found until it expires, as long as nothing else is
stored (`Holds`).
-/

namespace AisServer.Lib

variable {κ α : Type} [DecidableEq κ]

/-- What a cache stores under a key, and the time from which on it has expired. -/
structure Entry (κ α : Type) where
  key : κ
  value : α
  expires : Time

/-- The operations of a cache object at a reading of its timer; `set` gives `none` for the
`ValueError` of a value that the cache can never hold. -/
structure CacheOps (κ α : Type) where
  State : Type
  init : State
  get : State → Time → κ → Option α × State
  set : State → Time → κ → α → Option State

section Entries

variable (es : List (Entry κ α)) (now : Time) (k : κ)

/-- The entry that is alive under a key. -/
def alive : Option (Entry κ α) := es.find? fun e => e.key = k ∧ now < e.expires

/-- A hit becomes the most recently used entry. -/
def touch : List (Entry κ α) :=
  match alive es now k with
  | some e => (es.filter fun x => x.key ≠ k) ++ [e]
  | none => es

/-- The entries of other keys that have not expired. -/
def others : List (Entry κ α) := es.filter fun e => e.key ≠ k ∧ now < e.expires

/-- Storing a value: expired entries go, then the least recently used ones until there is room. -/
def store (maxsize : ℕ) (ttl : Time) (v : α) : List (Entry κ α) :=
  (others es now k).drop ((others es now k).length + 1 - maxsize) ++ [⟨k, v, now + ttl⟩]

end Entries

/-- The documented behaviour of `TTLCache(maxsize, ttl)`. -/
structure Documented (C : CacheOps κ α) (maxsize : ℕ) (ttl : Time) where
  entries : C.State → List (Entry κ α)
  init_entries : entries C.init = []
  get_value : ∀ st now k, (C.get st now k).1 = (alive (entries st) now k).map (·.value)
  get_entries : ∀ st now k, entries (C.get st now k).2 = touch (entries st) now k
  set_entries : ∀ st now k v, (C.set st now k v).map entries =
    if maxsize = 0 then none else some (store (entries st) now k maxsize ttl v)

/-- A cache that is its list of entries. -/
def refCache (κ α : Type) [DecidableEq κ] (maxsize : ℕ) (ttl : Time) : CacheOps κ α where
  State := List (Entry κ α)
  init := []
  get es now k := ((alive es now k).map (·.value), touch es now k)
  set es now k v := if maxsize = 0 then none else some (store es now k maxsize ttl v)

def refCache_documented (κ α : Type) [DecidableEq κ] (maxsize : ℕ) (ttl : Time) :
    Documented (refCache κ α maxsize ttl) maxsize ttl where
  entries := fun st => st
  init_entries := rfl
  get_value := fun _ _ _ => rfl
  get_entries := fun _ _ _ => rfl
  set_entries := fun _ _ _ _ => Option.map_id'

/-! ### The entries and the log -/

theorem alive_eq_some {es : List (Entry κ α)} {now : Time} {k : κ} {e : Entry κ α}
    (h : alive es now k = some e) : e ∈ es ∧ e.key = k ∧ now < e.expires := by
  refine ⟨List.mem_of_find?_eq_some h, ?_⟩
  simpa using List.find?_some h

theorem alive_eq_none {es : List (Entry κ α)} {now : Time} {k : κ} :
    alive es now k = none ↔ ∀ e ∈ es, e.key = k → e.expires ≤ now := by
  simp [alive, List.find?_eq_none]

theorem mem_others {es : List (Entry κ α)} {now : Time} {k : κ} {e : Entry κ α} :
    e ∈ others es now k ↔ e ∈ es ∧ e.key ≠ k ∧ now < e.expires := by
  simp [others]

/-- A lookup adds no entry. -/
theorem length_touch_le (es : List (Entry κ α)) (now : Time) (k : κ) : (touch es now k).length ≤ es.length := by
  unfold touch
  rcases ha : alive es now k with _ | e
  · exact le_rfl
  · obtain ⟨he, hk, -⟩ := alive_eq_some ha
    have hlt : (es.filter fun x => x.key ≠ k).length < es.length :=
      List.length_filter_lt_length_iff_exists.2 ⟨e, he, by simpa using hk⟩
    rw [List.length_append, List.length_singleton]
    exact hlt

/-- Storing a value makes room for it first. -/
theorem length_store_le (es : List (Entry κ α)) (now : Time) (k : κ) {maxsize : ℕ} (hmax : maxsize ≠ 0) (ttl : Time)
    (v : α) : (store es now k maxsize ttl v).length ≤ maxsize := by
  rw [store, List.length_append, List.length_drop, List.length_singleton]
  omega

/-! ### One key -/

/-- The entry is the only one of its key. -/
def Holds (es : List (Entry κ α)) (e : Entry κ α) : Prop := es.filter (fun x => x.key = e.key) = [e]

theorem holds_store (es : List (Entry κ α)) (now : Time) (k : κ) (maxsize : ℕ) (ttl : Time) (v : α) :
    Holds (store es now k maxsize ttl v) ⟨k, v, now + ttl⟩ := by
  have hnil : ((others es now k).drop ((others es now k).length + 1 - maxsize)).filter
      (fun x => x.key = k) = [] := by
    rw [List.filter_eq_nil_iff]
    intro x hx
    have hne := (mem_others.1 (List.mem_of_mem_drop hx)).2.1
    simpa using hne
  simp [Holds, store, hnil]

namespace Holds

variable {es : List (Entry κ α)} {e : Entry κ α} {now : Time}

theorem mem (h : Holds es e) : e ∈ es :=
  (List.mem_filter.1 (show e ∈ es.filter _ by rw [show es.filter _ = [e] from h]; simp)).1

theorem eq_of_key (h : Holds es e) {x : Entry κ α} (hx : x ∈ es) (hk : x.key = e.key) : x = e := by
  have hmem : x ∈ es.filter fun x => x.key = e.key := List.mem_filter.2 ⟨hx, by simpa using hk⟩
  rw [show es.filter _ = [e] from h] at hmem
  exact List.mem_singleton.1 hmem

theorem alive (h : Holds es e) (hlt : now < e.expires) : alive es now e.key = some e := by
  rcases ha : Lib.alive es now e.key with _ | x
  · exact absurd (alive_eq_none.1 ha e h.mem rfl) (not_le.2 hlt)
  · obtain ⟨hx, hk, -⟩ := alive_eq_some ha
    rw [h.eq_of_key hx hk]

theorem touch (h : Holds es e) (now : Time) (k : κ) : Holds (touch es now k) e := by
  unfold Lib.touch
  rcases ha : Lib.alive es now k with _ | x
  · exact h
  · obtain ⟨hx, hk, -⟩ := alive_eq_some ha
    unfold Holds
    rw [List.filter_append, List.filter_filter]
    by_cases hke : x.key = e.key
    · obtain rfl := h.eq_of_key hx hke
      have hnil : es.filter (fun a => decide (a.key = x.key) && decide (a.key ≠ k)) = [] := by
        rw [List.filter_eq_nil_iff]
        intro a _
        simp [← hk]
      rw [hnil]
      simp
    · have hsame : es.filter (fun a => decide (a.key = e.key) && decide (a.key ≠ k)) =
          es.filter fun a => a.key = e.key := by
        refine List.filter_congr fun a _ => ?_
        by_cases hae : a.key = e.key
        · have hne : a.key ≠ k := fun hak => hke (hk.trans (hak.symm.trans hae))
          rw [decide_eq_true hne, Bool.and_true]
        · simp [hae]
      rw [hsame, show es.filter _ = [e] from h]
      simp [hke]

end Holds

/-- The entries have distinct keys and were all stored once, and what was stored and has not expired
at the time of the last operation is among them. -/
structure Tracks (es log : List (Entry κ α)) (clock : Time) : Prop where
  nodup : (es.map (·.key)).Nodup
  sub : ∀ e ∈ es, e ∈ log
  live : ∀ e ∈ log, clock < e.expires → e ∈ es

/-- The keys of the log that are alive at a time. -/
def liveKeys (log : List (Entry κ α)) (now : Time) : Finset κ :=
  ((log.filter fun e => now < e.expires).map (·.key)).toFinset

namespace Tracks

variable {es log : List (Entry κ α)} {clock now : Time} {k : κ}

omit [DecidableEq κ] in
theorem nil (clock : Time) : Tracks ([] : List (Entry κ α)) [] clock where
  nodup := List.nodup_nil
  sub := by simp
  live := by simp

omit [DecidableEq κ] in
theorem eq_of_key (h : Tracks es log clock) {e f : Entry κ α} (he : e ∈ es) (hf : f ∈ es)
    (hk : e.key = f.key) : e = f :=
  List.inj_on_of_nodup_map h.nodup he hf hk

/-- A lookup fails exactly when everything ever stored under the key has expired. -/
theorem alive_eq_none_iff (h : Tracks es log clock) (hc : clock ≤ now) :
    alive es now k = none ↔ ∀ e ∈ log, e.key = k → e.expires ≤ now := by
  rw [alive_eq_none]
  constructor
  · intro hes e he hk
    by_contra hlt
    have hlt : now < e.expires := not_le.1 hlt
    exact absurd (hes e (h.live e he (hc.trans_lt hlt)) hk) (not_le.2 hlt)
  · intro hlog e he hk
    exact hlog e (h.sub e he) hk

theorem touch (h : Tracks es log clock) (hc : clock ≤ now) (k : κ) :
    Tracks (touch es now k) log now := by
  unfold Lib.touch
  rcases ha : alive es now k with _ | e
  · exact ⟨h.nodup, h.sub, fun f hf hlt => h.live f hf (hc.trans_lt hlt)⟩
  · obtain ⟨he, hk, -⟩ := alive_eq_some ha
    have hmem : ∀ f, f ∈ (es.filter fun x => x.key ≠ k) ++ [e] ↔ f ∈ es := by
      intro f
      simp only [List.mem_append, List.mem_filter, List.mem_singleton, decide_eq_true_eq]
      constructor
      · rintro (⟨hf, -⟩ | rfl)
        · exact hf
        · exact he
      · intro hf
        by_cases hfk : f.key = k
        · exact Or.inr (h.eq_of_key hf he (hfk.trans hk.symm))
        · exact Or.inl ⟨hf, hfk⟩
    refine ⟨?_, fun f hf => h.sub f ((hmem f).1 hf),
      fun f hf hlt => (hmem f).2 (h.live f hf (hc.trans_lt hlt))⟩
    rw [List.map_append, List.nodup_append]
    refine ⟨h.nodup.sublist ((List.filter_sublist).map _), by simp, ?_⟩
    intro a ha' b hb
    obtain ⟨f, hf, rfl⟩ := List.mem_map.1 ha'
    obtain rfl : b = e.key := by simpa using hb
    rw [hk]
    simpa using (List.mem_filter.1 hf).2

theorem length_others_le (h : Tracks es log clock) (now : Time) (k : κ) :
    (others es now k).length ≤ ((liveKeys log now).erase k).card := by
  have hnd : ((others es now k).map (·.key)).Nodup :=
    h.nodup.sublist ((List.filter_sublist).map _)
  rw [← List.length_map (f := fun e : Entry κ α => e.key), ← List.toFinset_card_of_nodup hnd]
  apply Finset.card_le_card
  intro x hx
  obtain ⟨e, he, rfl⟩ := List.mem_map.1 (List.mem_toFinset.1 hx)
  obtain ⟨he, hne, hlt⟩ := mem_others.1 he
  refine Finset.mem_erase.2 ⟨hne, ?_⟩
  simp only [liveKeys, List.mem_toFinset, List.mem_map, List.mem_filter, decide_eq_true_eq]
  exact ⟨e, ⟨h.sub e he, hlt⟩, rfl⟩

/-- **Storing a new key.**  When everything stored under `k` has expired and there is room for it
besides the other live keys, the log grows by the new entry and nothing alive is lost. -/
theorem store (h : Tracks es log clock) (hc : clock ≤ now) {maxsize : ℕ} {ttl : Time} {v : α}
    (hold : ∀ e ∈ log, e.key = k → e.expires ≤ now)
    (hroom : ((liveKeys log now).erase k).card + 1 ≤ maxsize) :
    Tracks (store es now k maxsize ttl v) (log ++ [⟨k, v, now + ttl⟩]) now := by
  have hlen := h.length_others_le now k
  unfold Lib.store
  rw [show (others es now k).length + 1 - maxsize = 0 by omega, List.drop_zero]
  refine ⟨?_, ?_, ?_⟩
  · rw [List.map_append, List.nodup_append]
    refine ⟨h.nodup.sublist ((List.filter_sublist).map _), by simp, ?_⟩
    intro a ha b hb
    obtain ⟨e, he, rfl⟩ := List.mem_map.1 ha
    obtain rfl : b = k := by simpa using hb
    exact (mem_others.1 he).2.1
  · intro e he
    rcases List.mem_append.1 he with he | he
    · exact List.mem_append_left _ (h.sub e (mem_others.1 he).1)
    · exact List.mem_append_right _ he
  · intro e he hlt
    rcases List.mem_append.1 he with he | he
    · refine List.mem_append_left _ (mem_others.2 ⟨h.live e he (hc.trans_lt hlt), ?_, hlt⟩)
      intro hk
      exact absurd (hold e he hk) (not_le.2 hlt)
    · exact List.mem_append_right _ he

/-- The keys that were stored in the `ttl` seconds up to a time. -/
def windowKeys (log : List (Entry κ α)) (ttl time : Time) : Finset κ :=
  ((log.filter fun e => time < e.expires ∧ e.expires ≤ time + ttl).map (·.key)).toFinset

/-- **Room for a new key.**  When the keys that were stored in the last `ttl` seconds fit in the cache, the new
one among them, there is room for it besides the other live keys. -/
theorem room {maxsize : ℕ} {ttl : Time} {v : α} (hpast : ∀ e ∈ log, e.expires ≤ now + ttl)
    (hmax : maxsize ≠ 0) (hw : (windowKeys (log ++ [⟨k, v, now + ttl⟩]) ttl now).card ≤ maxsize) :
    ((liveKeys log now).erase k).card + 1 ≤ maxsize := by
  have hmem : ∀ k' ∈ liveKeys log now, ∃ e ∈ log, e.key = k' ∧ now < e.expires := by
    intro k' hk'
    simp only [liveKeys, List.mem_toFinset, List.mem_map, List.mem_filter, decide_eq_true_eq] at hk'
    obtain ⟨e, ⟨he, hlt⟩, rfl⟩ := hk'
    exact ⟨e, he, rfl, hlt⟩
  rcases le_or_gt ttl 0 with hz | hpos
  · -- with no time to live nothing is ever alive
    have hempty : liveKeys log now = ∅ := by
      rw [Finset.eq_empty_iff_forall_notMem]
      intro k' hk'
      obtain ⟨e, he, -, hlt⟩ := hmem k' hk'
      have hle := hpast e he
      linarith
    rw [hempty]
    simpa using Nat.one_le_iff_ne_zero.2 hmax
  · have hsub : insert k ((liveKeys log now).erase k) ⊆ windowKeys (log ++ [⟨k, v, now + ttl⟩]) ttl now := by
      intro k' hk'
      simp only [windowKeys, List.mem_toFinset, List.mem_map, List.mem_filter, decide_eq_true_eq]
      rcases Finset.mem_insert.1 hk' with rfl | hk'
      · exact ⟨⟨k', v, now + ttl⟩, ⟨by simp, by linarith, le_rfl⟩, rfl⟩
      · obtain ⟨e, he, rfl, hlt⟩ := hmem k' (Finset.mem_erase.1 hk').2
        exact ⟨e, ⟨List.mem_append_left _ he, hlt, hpast e he⟩, rfl⟩
    have hcard := (Finset.card_le_card hsub).trans hw
    rwa [Finset.card_insert_of_notMem (Finset.notMem_erase _ _)] at hcard

end Tracks

end AisServer.Lib
