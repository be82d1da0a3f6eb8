import AisServer.Nmea.Header
import AisServer.Stream.Conservation
import Mathlib.Data.List.Perm.Subperm

/-!
# What the pipeline can hold

* `Limited.step` — the heap, the popped items, the cache, the figures and the rings keep to their limits.
-/

namespace AisServer.Stream

open AisServer.Lib AisServer.Nmea

variable {C : CacheOps Str Time} {digest : Str → Str} {cfg : Config} {ringSize : ℕ} {startedAt : Time}

theorem length_keepLast_le {α : Type} (n : ℕ) (l : List α) : (EventBus.keepLast n l).length ≤ n := by
  rw [EventBus.keepLast, List.length_drop]
  omega

namespace Pipeline

variable {s t : Pipeline C} {e : PipelineEvent}

/-- The stores of the pipeline keep to their limits. -/
structure Limited (D : Documented C cfg.maxEntries cfg.ttlSeconds) (ringSize : ℕ) (s : Pipeline C) : Prop where
  conserved : s.Conserved cfg
  awaiting : s.awaiting.length ≤ cfg.maxQueue
  entries : (D.entries s.dedup.cache).length ≤ cfg.maxEntries
  rate : s.rateBucket.length ≤ rateMaxlen
  ring : s.events.ringSize = ringSize
  rings : ∀ topic, (s.events.rings topic).length ≤ ringSize
  vessels : ∀ mmsi ∈ s.mmsiLast.keys, mmsi < 2 ^ 30

variable {D : Documented C cfg.maxEntries cfg.ttlSeconds}

theorem limited_new : Limited D ringSize (new C cfg ringSize startedAt) where
  conserved := conserved_new cfg ringSize startedAt
  awaiting := Nat.zero_le _
  entries := by
    show (D.entries C.init).length ≤ _
    rw [D.init_entries]
    exact Nat.zero_le _
  rate := Nat.zero_le _
  ring := rfl
  rings _ := Nat.zero_le _
  vessels := by simp [new, AList.keys]

theorem entries_check {d d' : Deduper C} {sentence : Str} {arrivalTs now ts : Time}
    (h : d.check digest sentence arrivalTs now = (d', some (true, ts))) :
    (D.entries d'.cache).length ≤ cfg.maxEntries := by
  obtain ⟨-, -, hset⟩ := Deduper.check_new h
  have hstore := D.set_entries (C.get d.cache now (dedupKey digest sentence)).2 now (dedupKey digest sentence) arrivalTs
  rw [hset, Option.map_some] at hstore
  split at hstore
  · cases hstore
  · rename_i hmax
    rw [Option.some.inj hstore]
    exact length_store_le _ _ _ hmax _ _

theorem rateBucket_recordCall_le (s : Pipeline C) (c : Call) : (s.recordCall c).rateBucket.length ≤ rateMaxlen := by
  unfold recordCall
  generalize rateMaxlen = n
  exact length_keepLast_le _ _

theorem mmsiLast_recordCall_cases (s : Pipeline C) (c : Call) : (s.recordCall c).mmsiLast = s.mmsiLast ∨
    ∃ payload mmsi type, extractMmsiAndType payload = some (mmsi, type) ∧
      (s.recordCall c).mmsiLast = s.mmsiLast.insert mmsi c.arrivalTs := by
  unfold recordCall
  dsimp only
  split
  · rename_i mmsi hmmsi
    split at hmmsi
    · cases hmmsi
    · obtain ⟨⟨_, type⟩, hextract, rfl⟩ := Option.map_eq_some_iff.1 hmmsi
      exact Or.inr ⟨_, _, type, hextract, rfl⟩
  · exact Or.inl rfl

theorem events_recordCall (s : Pipeline C) (c : Call) :
    ∃ payload, (s.recordCall c).events = s.events.publish "incoming".toList payload := by
  unfold recordCall
  exact ⟨_, rfl⟩

theorem recordCall_frame (s : Pipeline C) (c : Call) :
    ∃ rateBucket mmsiLast events, s.recordCall c = { s with rateBucket, mmsiLast, events } := ⟨_, _, _, rfl⟩

theorem step_record_at {i : ℕ} (h : s.step digest (.record i) = some t) :
    ∃ c, s.recording[i]? = some c ∧ t = { s.recordCall c with recording := s.recording.eraseIdx i } := by
  rw [step] at h
  rcases hi : s.recording[i]? with _ | c
  · simp [hi] at h
  · simp only [hi, Option.some.injEq] at h
    exact ⟨c, rfl, h.symm⟩

theorem rings_publish (bus : EventBus) (hrings : ∀ topic, (bus.rings topic).length ≤ bus.ringSize) (topic : Str)
    (payload : UiEvent) (topic' : Str) : ((bus.publish topic payload).rings topic').length ≤ bus.ringSize := by
  show (Function.update bus.rings topic (EventBus.keepLast bus.ringSize (bus.rings topic ++ [payload]))
    topic').length ≤ _
  by_cases ht : topic' = topic
  · subst ht
    rw [Function.update_self]
    exact length_keepLast_le _ _
  · rw [Function.update_of_ne ht]
    exact hrings topic'

theorem Limited.step (hs : Limited D ringSize s) (h : s.step digest e = some t) : Limited D ringSize t := by
  have hconserved := hs.conserved.step h
  cases e with
  | check sentence peer arrivalTs now =>
    obtain ⟨-, ⟨d, hcheck, rfl⟩ | ⟨d, hcache, rfl⟩⟩ := step_check h
    · exact { hs with conserved := hconserved, entries := entries_check hcheck }
    · refine { hs with conserved := hconserved, entries := ?_ }
      show (D.entries d.cache).length ≤ _
      rw [hcache, D.get_entries]
      exact (length_touch_le _ _ _).trans hs.entries
  | push i now =>
    obtain ⟨c, ts, b, -, -, rfl⟩ := step_push h
    exact { hs with conserved := hconserved }
  | record i =>
    obtain ⟨c, -, rfl⟩ := step_record_at h
    have hrate := s.rateBucket_recordCall_le c
    have hmmsi := s.mmsiLast_recordCall_cases c
    obtain ⟨payload, hevents⟩ := s.events_recordCall c
    obtain ⟨rateBucket, mmsiLast, events, hframe⟩ := s.recordCall_frame c
    rw [hframe] at hconserved hrate hmmsi hevents ⊢
    obtain rfl : events = s.events.publish "incoming".toList payload := hevents
    have hrings := rings_publish s.events (hs.ring ▸ hs.rings) "incoming".toList payload
    refine { hs with
      conserved := hconserved, rate := hrate, rings := hs.ring ▸ hrings, vessels := ?_ }
    rcases hmmsi with rfl | ⟨payload, mmsi, type, hextract, hinsert⟩
    · exact hs.vessels
    · obtain rfl : mmsiLast = s.mmsiLast.insert mmsi c.arrivalTs := hinsert
      intro vessel hmem
      simp only [AList.keys_insert] at hmem
      rcases List.mem_cons.1 hmem with rfl | hmem
      · exact mmsi_lt hextract
      · exact hs.vessels vessel (List.mem_of_mem_erase hmem)
  | popReady now =>
    obtain ⟨-, rfl⟩ := step_popReady h
    refine { hs with conserved := hconserved, awaiting := ?_ }
    have hsize := s.reorder.size_popReady now
    have hbounded := hs.conserved.bounded
    simp only [List.length_map]
    omega
  | dispatch =>
    obtain ⟨c, rest, ha, rfl⟩ := step_dispatch h
    refine { hs with conserved := hconserved, awaiting := ?_ }
    have hlen := hs.awaiting
    rw [ha] at hlen
    exact (Nat.le_succ _).trans hlen

theorem Limited.vessels_length (hs : Limited D ringSize s) : s.mmsiLast.keys.length ≤ 2 ^ 30 := by
  have hsub : s.mmsiLast.keys ⊆ List.range (2 ^ 30) := fun mmsi hmem => List.mem_range.2 (hs.vessels mmsi hmem)
  have hlen := (s.mmsiLast.keys_nodup.subperm hsub).length_le
  rwa [List.length_range] at hlen

end Pipeline

end AisServer.Stream
