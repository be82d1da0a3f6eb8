import AisServer.Lib.Run
import AisServer.Stream.Pipeline

/-!
# A whole call of `on_sentence`

`onSentence` is the call of a thread that nobody interrupts, with the timestamp of the item that it pushes.  The
payload that it decodes is that of `parse`, whatever the number of the fragment.

* `onSentence_run` — the call is a run of the steps of the pipeline;
* `payloadOf_of_parse` — the payload that is decoded;
* `continuation_fragments` — when a call orders its sentence by the arrival and leaves the MMSI table as it is.
-/

namespace AisServer.Stream

open AisServer.Lib AisServer.Nmea

theorem payloadOf_of_parse {sentence : Str} {p : NmeaParse} (h : parse sentence = some p) :
    payloadOf sentence = p.payload := by
  obtain ⟨-, -, count, number, fill, rest, hfields, -⟩ := parse_spec h
  obtain ⟨tail, htail⟩ : upTo '*' sentence <+: sentence := List.takeWhile_prefix _
  have hget := @getElem?_splitOn_append ',' (upTo '*' sentence) tail 5
  rw [htail, show (upTo '*' sentence).splitOn ',' = _ from hfields] at hget
  rw [payloadOf, List.getD_eq_getElem?_getD, hget (by simp)]
  rfl

theorem intrinsic_eq (sentence : Str) : intrinsic sentence = extractTimestamp (payloadOf sentence) := by
  unfold intrinsic
  split
  · rename_i h
    rw [h]
    rfl
  · rfl

namespace Pipeline

variable {C : CacheOps Str Time} {digest : Str → Str} {s t : Pipeline C} {sentence peer : Str}
  {arrivalTs now pushNow : Time} {pushed : Option Time}

/-- `on_sentence`: the pipeline afterwards and the timestamp of the item that was pushed, none for a duplicate.  The
call itself is `none` when `check` or `push` raises; `pushNow` is the time of the push, for the history. -/
def onSentence (digest : Str → Str) (s : Pipeline C) (sentence peer : Str) (arrivalTs now pushNow : Time) :
    Option (Pipeline C × Option Time) :=
  match s.dedup.check digest sentence arrivalTs now with
  | (_, none) => none
  | (dedup, some (false, _)) => some ({ s with dedup, calls := s.calls + 1, cacheClock := now }, none)
  | (dedup, some (true, effectiveTs)) =>
    let c := s.newCall sentence peer arrivalTs now
    let ts := orderingKey sentence effectiveTs
    (s.reorder.push c ts).map fun reorder =>
      let t : Pipeline C := { s with
        dedup, reorder, calls := s.calls + 1, cacheClock := now, clock := pushNow
        accepted := s.accepted ++ [c]
        overflowed := s.overflowed ++ s.reorder.oldest.toList.map (·.payload) }
      (t.recordCall c, some ts)

theorem onSentence_cases (h : s.onSentence digest sentence peer arrivalTs now pushNow = some (t, pushed)) :
    ((C.get s.dedup.cache now (dedupKey digest sentence)).1 ≠ none ∧ pushed = none ∧
      t.mmsiLast = s.mmsiLast) ∨
    ((C.get s.dedup.cache now (dedupKey digest sentence)).1 = none ∧
      pushed = some (orderingKey sentence arrivalTs) ∧ t.mmsiLast =
        (s.recordCall (s.newCall sentence peer arrivalTs now)).mmsiLast) := by
  unfold onSentence at h
  rcases hc : s.dedup.check digest sentence arrivalTs now with ⟨d, _ | ⟨_ | _, ts⟩⟩
  · simp [hc] at h
  · simp only [hc, Option.some.injEq, Prod.mk.injEq] at h
    obtain ⟨rfl, rfl⟩ := h
    left
    rw [Deduper.check_duplicate hc]
    exact ⟨Option.some_ne_none _, rfl, rfl⟩
  · obtain ⟨rfl, hnone, -⟩ := Deduper.check_new hc
    simp only [hc, Option.map_eq_some_iff, Prod.mk.injEq] at h
    obtain ⟨b, -, rfl, rfl⟩ := h
    exact Or.inr ⟨hnone, rfl, rfl⟩

/-- **The call as a run.**  A call that returns is the check, and for a new sentence the push and the record, with no
step of another thread between them. -/
theorem onSentence_run (hnow : s.cacheClock ≤ now)
    (h : s.onSentence digest sentence peer arrivalTs now pushNow = some (t, pushed)) :
    run (step digest) s (.check sentence peer arrivalTs now ::
      if pushed.isSome then [.push s.checked.length pushNow, .record s.recording.length] else []) = some t := by
  unfold onSentence at h
  rcases hc : s.dedup.check digest sentence arrivalTs now with ⟨d, _ | ⟨_ | _, ts⟩⟩
  · simp [hc] at h
  · simp only [hc, Option.some.injEq, Prod.mk.injEq] at h
    obtain ⟨rfl, rfl⟩ := h
    simp [step, not_lt.2 hnow, hc]
  · simp only [hc, Option.map_eq_some_iff, Prod.mk.injEq] at h
    obtain ⟨b, hb, rfl, rfl⟩ := h
    set c := s.newCall sentence peer arrivalTs now with hcall
    have hcheck : s.step digest (.check sentence peer arrivalTs now) = some { s with
        dedup := d, calls := s.calls + 1, cacheClock := now
        checked := s.checked ++ [(c, ts)], accepted := s.accepted ++ [c] } := by
      simp only [step, if_neg (not_lt.2 hnow), hc]
      rfl
    have hlast : ∀ {α : Type} (l : List α) (a : α), (l ++ [a]).eraseIdx l.length = l := by
      intro α l a
      rw [List.eraseIdx_append_of_length_le le_rfl]
      simp
    have hpush : step digest { s with
        dedup := d, calls := s.calls + 1, cacheClock := now
        checked := s.checked ++ [(c, ts)], accepted := s.accepted ++ [c] } (.push s.checked.length pushNow) =
        some { s with
          dedup := d, reorder := b, calls := s.calls + 1, cacheClock := now, clock := pushNow
          recording := s.recording ++ [c], accepted := s.accepted ++ [c]
          overflowed := s.overflowed ++ s.reorder.oldest.toList.map (·.payload) } := by
      have hb : s.reorder.push c (orderingKey c.sentence ts) = some b := hb
      simp only [step, List.getElem?_concat_length, hb, Option.map_some, hlast]
    rw [Option.isSome_some, if_pos rfl, run_cons, hcheck, Option.bind_some, run_cons, hpush, Option.bind_some,
      run_cons]
    have hrecord : ∀ {u : Pipeline C} {c : Call}, u.recording = s.recording ++ [c] →
        step digest u (.record s.recording.length) =
          some { u.recordCall c with recording := s.recording } := by
      intro u c hu
      simp only [step, hu, List.getElem?_concat_length, hlast]
    rw [hrecord rfl, Option.bind_some, run_nil]
    simp only [recordCall]

theorem lookup_recordCall (c : Call) (m : ℕ) : (s.recordCall c).mmsiLast.lookup m =
    if m ≠ 0 ∧ (extractMmsiAndType (payloadOf c.sentence)).map Prod.fst = some m then some c.arrivalTs
    else s.mmsiLast.lookup m := by
  have hmmsi : (if payloadOf c.sentence = [] then none
      else (extractMmsiAndType (payloadOf c.sentence)).map Prod.fst) =
      (extractMmsiAndType (payloadOf c.sentence)).map Prod.fst := by
    split
    · rename_i h
      rw [h]
      rfl
    · rfl
  simp only [recordCall, hmmsi]
  rcases (extractMmsiAndType (payloadOf c.sentence)).map Prod.fst with _ | _ | n
  · simp
  · by_cases hm : m = 0 <;> simp [hm, Ne.symm]
  · by_cases hm : n + 1 = m
    · subst hm
      simp
    · simp [hm, AList.lookup_insert_ne (Ne.symm hm)]

end Pipeline

/-- **Whole calls.**  A call with a sentence that `parse` accepts, whatever the number of its fragment, orders it by
its arrival and leaves the MMSI table as it is exactly when it is a duplicate, or no other time and no new entry of
the table can be read from its payload. -/
theorem continuation_fragments {C : CacheOps Str Time} {digest : Str → Str} {s t : Pipeline C} {sentence peer : Str}
    {arrivalTs now pushNow : Time} {pushed : Option Time} {p : NmeaParse} (hp : parse sentence = some p)
    (h : s.onSentence digest sentence peer arrivalTs now pushNow = some (t, pushed)) :
    ((∀ ts ∈ pushed, ts = arrivalTs) ∧ ∀ m, t.mmsiLast.lookup m = s.mmsiLast.lookup m) ↔
      (C.get s.dedup.cache now (dedupKey digest sentence)).1 ≠ none ∨
      ((∀ ts ∈ extractTimestamp p.payload, ts = arrivalTs) ∧
        ∀ m ∈ (extractMmsiAndType p.payload).map Prod.fst, m = 0 ∨ s.mmsiLast.lookup m = some arrivalTs) := by
  rcases Pipeline.onSentence_cases h with ⟨hdup, rfl, ht⟩ | ⟨hnew, rfl, ht⟩
  · simp [hdup, ht]
  · have hkey : (∀ ts ∈ some (orderingKey sentence arrivalTs), ts = arrivalTs) ↔
        ∀ ts ∈ extractTimestamp p.payload, ts = arrivalTs := by
      rw [orderingKey, intrinsic_eq, payloadOf_of_parse hp]
      rcases extractTimestamp p.payload with _ | ts <;> simp
    have htable : (∀ m, t.mmsiLast.lookup m = s.mmsiLast.lookup m) ↔
        ∀ m ∈ (extractMmsiAndType p.payload).map Prod.fst, m = 0 ∨ s.mmsiLast.lookup m = some arrivalTs := by
      rw [ht]
      simp only [Pipeline.lookup_recordCall, Pipeline.newCall, payloadOf_of_parse hp]
      constructor
      · intro hm m hread
        by_cases h0 : m = 0
        · exact Or.inl h0
        · have hsame := hm m
          rw [if_pos ⟨h0, hread⟩] at hsame
          exact Or.inr hsame.symm
      · intro hm m
        split
        · rename_i hread
          exact ((hm m hread.2).resolve_left hread.1).symm
        · rfl
    rw [hkey, htable]
    simp [hnew]

/-- The start of the server with a cache of ten entries. -/
def started : Pipeline (refCache Str Time 10 30) := Pipeline.new _ ⟨30, 10, 2000, 3⟩ 500 100

/-- A second fragment of four characters, from which nothing can be read. -/
theorem continuation_fragments_short : ∃ t pushed,
    started.onSentence id "!AIVDM,2,2,1,A,0000,0*17".toList [] 100 0 100 = some (t, pushed) ∧
      (∀ ts ∈ pushed, ts = 100) ∧ ∀ m, t.mmsiLast.lookup m = started.mmsiLast.lookup m := by
  obtain ⟨⟨t, pushed⟩, h⟩ := Option.isSome_iff_exists.1 (by decide +kernel :
    (started.onSentence id "!AIVDM,2,2,1,A,0000,0*17".toList [] 100 0 100).isSome = true)
  have hp : parse "!AIVDM,2,2,1,A,0000,0*17".toList =
      some ⟨"!AIVDM".toList, 2, 2, "1".toList, "A".toList, "0000".toList, 0, true⟩ := by decide +kernel
  have htime : extractTimestamp ['0', '0', '0', '0'] = none := by decide +kernel
  have hmmsi : extractMmsiAndType ['0', '0', '0', '0'] = none := by decide +kernel
  have hkept := (continuation_fragments hp h).2 (Or.inr ⟨by simp [htime], by simp [hmmsi]⟩)
  exact ⟨t, pushed, h, hkept⟩

/-- A second fragment that decodes as a base station report of 1970 is ordered by that time, and enters a vessel that
does not exist. -/
theorem continuation_fragments_fails :
    (parse "!AIVDM,2,2,1,A,402E4JAs8@P000,0*30".toList).map (·.fragmentNumber) = some 2 ∧
      ∃ t, started.onSentence id "!AIVDM,2,2,1,A,402E4JAs8@P000,0*30".toList [] 100 0 100 = some (t, some 0) ∧
        started.mmsiLast.lookup 2442345 = none ∧ t.mmsiLast.lookup 2442345 = some 100 := by
  have hcall : (started.onSentence id "!AIVDM,2,2,1,A,402E4JAs8@P000,0*30".toList [] 100 0 100).map
      (fun r => (r.1.mmsiLast.lookup 2442345, r.2)) = some (some 100, some 0) := by decide +kernel
  obtain ⟨⟨t, pushed⟩, h, hr⟩ := Option.map_eq_some_iff.1 hcall
  obtain ⟨ht, rfl⟩ := Prod.mk.inj hr
  exact ⟨by decide +kernel, t, h, by decide +kernel, ht⟩

end AisServer.Stream
