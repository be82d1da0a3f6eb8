import AisServer.Stream.Pipeline
import Mathlib.Data.List.Count
import Mathlib.Tactic.Linarith

/-!
# Nothing is lost and nothing is sent twice

From the check of a sentence to its dispatch.  `Conserved` is the invariant of the hand-over: the calls
whose check returned new are, each once, between check and push, in the heap, dropped by the safety
valve, popped, or dispatched.  `Spaced` is the invariant of the duplicate detector: as long as the
window of the cache holds the accepted keys (`Window`), two accepted copies are `ttlSeconds` apart.
-/

namespace AisServer.Stream

open AisServer.Lib AisServer.Nmea

variable {C : CacheOps Str Time} {digest : Str → Str} {cfg : Config} {ringSize : ℕ} {startedAt : Time}

namespace Pipeline

variable {s t : Pipeline C} {e : PipelineEvent}

/-- Where an accepted call can be. -/
def places (s : Pipeline C) : List Call :=
  s.checked.map Prod.fst ++ s.reorder.heap.items.map (·.payload) ++ s.overflowed ++ s.awaiting ++
    s.dispatched

/-! ### The hand-over -/

structure Conserved (cfg : Config) (s : Pipeline C) : Prop where
  ids : (s.accepted.map (·.id)).Nodup
  fresh : ∀ c ∈ s.accepted, c.id < s.calls
  placed : s.accepted.Perm s.places
  cap : s.reorder.maxQueue = cfg.maxQueue
  bounded : s.reorder.heap.size ≤ cfg.maxQueue
  dropped : s.reorder.dropped = s.overflowed.length
  popped : s.reorder.popped = s.awaiting.length + s.dispatched.length
  pushed : s.reorder.pushed = s.reorder.popped + s.reorder.dropped + s.reorder.heap.size

theorem conserved_new (cfg : Config) (ringSize : ℕ) (startedAt : Time) :
    Conserved cfg (new C cfg ringSize startedAt) where
  ids := List.nodup_nil
  fresh := by simp [new]
  placed := by simp [new, places, ReorderBuffer.new]
  cap := rfl
  bounded := Nat.zero_le _
  dropped := rfl
  popped := rfl
  pushed := rfl

/-- A step moves calls from one place to the next. -/
theorem places_step (h : s.step digest e = some t) (hs : s.accepted.Perm s.places) :
    t.accepted.Perm t.places := by
  classical
  cases e with
  | check sentence peer arrivalTs now =>
    obtain ⟨-, ⟨d, -, rfl⟩ | ⟨d, -, rfl⟩⟩ := step_check h
    · rw [List.perm_iff_count] at hs ⊢
      intro c
      have hc := hs c
      simp only [places, List.map_append, List.map_cons, List.map_nil, List.count_append] at hc ⊢
      omega
    · exact hs
  | push i now =>
    obtain ⟨c, ts, b, hi, hb, rfl⟩ := step_push h
    have hchecked : (c :: (s.checked.eraseIdx i).map Prod.fst).Perm (s.checked.map Prod.fst) := by
      obtain ⟨hlt, hget⟩ := List.getElem?_eq_some_iff.1 hi
      have := (List.getElem_cons_eraseIdx_perm hlt).map Prod.fst
      rwa [List.map_cons, hget] at this
    have hheap := (ReorderBuffer.push_items_perm hb).map (·.payload)
    rw [List.perm_iff_count] at hs hchecked hheap ⊢
    intro x
    have h1 := hs x
    have h2 := hchecked x
    have h3 := hheap x
    simp only [places, List.map_append, List.map_cons, List.count_append, List.count_cons] at *
    omega
  | record i =>
    obtain ⟨rate, mmsi, events, recording, rfl⟩ := step_record h
    exact hs
  | popReady now =>
    obtain ⟨ha, rfl⟩ := step_popReady h
    have hsplit := congrArg (List.map (·.payload)) (s.reorder.ready_append now)
    rw [List.map_append] at hsplit
    rw [List.perm_iff_count] at hs ⊢
    intro c
    have hc := hs c
    have h1 := congrArg (List.count c) hsplit
    simp only [places, ha, List.count_append, List.count_nil] at hc h1 ⊢
    omega
  | dispatch =>
    obtain ⟨c, rest, ha, rfl⟩ := step_dispatch h
    rw [List.perm_iff_count] at hs ⊢
    intro x
    have hx := hs x
    simp only [places, ha, List.count_append, List.count_cons, List.count_nil] at hx ⊢
    omega

theorem Conserved.step (hs : Conserved cfg s) (h : s.step digest e = some t) :
    Conserved cfg t := by
  have hplaced := places_step h hs.placed
  cases e with
  | check sentence peer arrivalTs now =>
    obtain ⟨-, ⟨d, -, rfl⟩ | ⟨d, -, rfl⟩⟩ := step_check h
    · refine { hs with ids := ?_, fresh := ?_, placed := hplaced }
      · rw [List.map_append, List.nodup_append]
        refine ⟨hs.ids, by simp, ?_⟩
        intro a ha b hb
        obtain ⟨c, hc, rfl⟩ := List.mem_map.1 ha
        obtain rfl : b = s.calls := by simpa [newCall] using hb
        exact (hs.fresh c hc).ne
      · intro c hc
        rcases List.mem_append.1 hc with hc | hc
        · exact (hs.fresh c hc).trans (Nat.lt_succ_self _)
        · obtain rfl := List.mem_singleton.1 hc
          exact Nat.lt_succ_self _
    · exact { hs with fresh := fun c hc => (hs.fresh c hc).trans (Nat.lt_succ_self _) }
  | push i now =>
    obtain ⟨c, ts, b, -, hb, rfl⟩ := step_push h
    obtain ⟨-, -, hmax, -, hpushed, hpopped, hdropped⟩ := ReorderBuffer.push_spec hb
    refine { hs with
      placed := hplaced, cap := hmax.trans hs.cap, bounded := ?_, dropped := ?_, popped := ?_
      pushed := ?_ }
    · show b.heap.size ≤ cfg.maxQueue
      have hroom : s.reorder.heap.size ≤ s.reorder.maxQueue := hs.bounded.trans hs.cap.ge
      exact (ReorderBuffer.size_push_le hb hroom).trans hs.cap.le
    · show b.dropped = (s.overflowed ++ _).length
      rw [hdropped, hs.dropped, List.length_append, List.length_map]
    · show b.popped = _
      rw [hpopped, hs.popped]
    · show b.pushed = b.popped + b.dropped + b.heap.size
      have hsize := ReorderBuffer.size_push hb
      have := hs.pushed
      omega
  | record i =>
    obtain ⟨rate, mmsi, events, recording, rfl⟩ := step_record h
    exact { hs with placed := hplaced }
  | popReady now =>
    obtain ⟨ha, rfl⟩ := step_popReady h
    have hb := hs.bounded
    have hpop := hs.popped
    have hpush := hs.pushed
    have hsize := s.reorder.size_popReady now
    refine { hs with placed := hplaced, bounded := ?_, popped := ?_, pushed := ?_ }
    · show (s.reorder.popReady now).2.heap.size ≤ cfg.maxQueue
      omega
    · show s.reorder.popped + (s.reorder.ready now).length = _
      rw [ha] at hpop
      simp only [List.length_map, List.length_nil] at hpop ⊢
      omega
    · show s.reorder.pushed = s.reorder.popped + (s.reorder.ready now).length +
        s.reorder.dropped + (s.reorder.popReady now).2.heap.size
      omega
  | dispatch =>
    obtain ⟨c, rest, ha, rfl⟩ := step_dispatch h
    refine { hs with placed := hplaced, popped := ?_ }
    have hpop := hs.popped
    simp only [ha, List.length_cons, List.length_append, List.length_nil] at hpop ⊢
    omega

/-! ### The duplicate detector -/

/-- The entry that an accepted call stores. -/
def toEntry (digest : Str → Str) (ttl : Time) (c : Call) : Entry Str Time :=
  ⟨dedupKey digest c.sentence, c.arrivalTs, c.checkedAt + ttl⟩

/-- In no `ttlSeconds` of the cache clock are more than `maxEntries` distinct keys accepted. -/
def Window (digest : Str → Str) (cfg : Config) (s : Pipeline C) : Prop :=
  ∀ time : Time, ((s.accepted.filter fun c =>
    time - cfg.ttlSeconds < c.checkedAt ∧ c.checkedAt ≤ time).map
      fun c => dedupKey digest c.sentence).toFinset.card ≤ cfg.maxEntries

theorem window_of_length (h : s.accepted.length ≤ cfg.maxEntries) : Window digest cfg s := by
  intro time
  refine (List.toFinset_card_le _).trans ?_
  rw [List.length_map]
  exact (List.length_filter_le _ _).trans h

theorem Window.mono (hw : Window digest cfg t) (hp : s.accepted <+: t.accepted) :
    Window digest cfg s := by
  intro time
  refine le_trans (Finset.card_le_card ?_) (hw time)
  intro k hk
  simp only [List.mem_toFinset, List.mem_map, List.mem_filter] at hk ⊢
  obtain ⟨c, ⟨hc, hlt⟩, rfl⟩ := hk
  exact ⟨c, ⟨hp.subset hc, hlt⟩, rfl⟩

theorem accepted_grows (h : s.step digest e = some t) : s.accepted <+: t.accepted := by
  cases e with
  | check sentence peer arrivalTs now =>
    obtain ⟨-, ⟨d, -, rfl⟩ | ⟨d, -, rfl⟩⟩ := step_check h
    · exact List.prefix_append _ _
    · exact List.prefix_rfl
  | push i now => obtain ⟨c, ts, b, -, -, rfl⟩ := step_push h; exact List.prefix_rfl
  | record i => obtain ⟨rate, mmsi, events, recording, rfl⟩ := step_record h; exact List.prefix_rfl
  | popReady now => obtain ⟨-, rfl⟩ := step_popReady h; exact List.prefix_rfl
  | dispatch => obtain ⟨c, rest, -, rfl⟩ := step_dispatch h; exact List.prefix_rfl

structure Spaced (digest : Str → Str) (D : Documented C cfg.maxEntries cfg.ttlSeconds)
    (s : Pipeline C) : Prop where
  tracks : Tracks (D.entries s.dedup.cache) (s.accepted.map (toEntry digest cfg.ttlSeconds))
    s.cacheClock
  past : ∀ c ∈ s.accepted, c.checkedAt ≤ s.cacheClock
  spaced : s.accepted.Pairwise fun a b : Call =>
    dedupKey digest a.sentence = dedupKey digest b.sentence →
      a.checkedAt + cfg.ttlSeconds ≤ b.checkedAt

variable {D : Documented C cfg.maxEntries cfg.ttlSeconds}

theorem spaced_new (digest : Str → Str) (D : Documented C cfg.maxEntries cfg.ttlSeconds)
    (ringSize : ℕ) (startedAt : Time) : Spaced digest D (new C cfg ringSize startedAt) where
  tracks := by
    show Tracks (D.entries C.init) [] 0
    rw [D.init_entries]
    exact Tracks.nil 0
  past := by simp [new]
  spaced := List.Pairwise.nil

theorem windowKeys_accepted (calls : List Call) (time : Time) :
    Tracks.windowKeys (calls.map (toEntry digest cfg.ttlSeconds)) cfg.ttlSeconds time =
      ((calls.filter fun c => time - cfg.ttlSeconds < c.checkedAt ∧ c.checkedAt ≤ time).map
        fun c => dedupKey digest c.sentence).toFinset := by
  unfold Tracks.windowKeys
  rw [List.filter_map, List.map_map]
  congr 2
  refine List.filter_congr fun c _ => ?_
  simp only [toEntry, Function.comp_apply, add_le_add_iff_right, sub_lt_iff_lt_add]

theorem Spaced.step (hs : Spaced digest D s) (hw : Window digest cfg t)
    (h : s.step digest e = some t) : Spaced digest D t := by
  cases e with
  | check sentence peer arrivalTs now =>
    obtain ⟨hnow, ⟨d, hd, rfl⟩ | ⟨d, hd, rfl⟩⟩ := step_check h
    · set c := s.newCall sentence peer arrivalTs now with hc
      have hwindow := hw now
      rw [← windowKeys_accepted, List.map_append] at hwindow
      have hpast : ∀ e ∈ s.accepted.map (toEntry digest cfg.ttlSeconds),
          e.expires ≤ now + cfg.ttlSeconds := by
        intro e he
        obtain ⟨a, ha, rfl⟩ := List.mem_map.1 he
        exact add_le_add_left ((hs.past a ha).trans hnow) _
      obtain ⟨hold, htracks⟩ := Deduper.tracks_check_new D hs.tracks hnow hpast hd hwindow
      refine ⟨?_, ?_, ?_⟩
      · show Tracks (D.entries d.cache) ((s.accepted ++ [c]).map _) now
        rw [List.map_append]
        exact htracks
      · intro a ha
        rcases List.mem_append.1 ha with ha | ha
        · exact (hs.past a ha).trans hnow
        · obtain rfl := List.mem_singleton.1 ha
          exact le_rfl
      · refine List.pairwise_append.2 ⟨hs.spaced, by simp, ?_⟩
        intro a ha b hb hab
        obtain rfl := List.mem_singleton.1 hb
        exact hold (toEntry digest cfg.ttlSeconds a) (List.mem_map_of_mem ha) hab
    · exact ⟨Deduper.tracks_get D hs.tracks hnow _ hd, fun a ha => (hs.past a ha).trans hnow, hs.spaced⟩
  | push i now => obtain ⟨c, ts, b, -, -, rfl⟩ := step_push h; exact ⟨hs.1, hs.2, hs.3⟩
  | record i => obtain ⟨rate, mmsi, events, recording, rfl⟩ := step_record h; exact ⟨hs.1, hs.2, hs.3⟩
  | popReady now => obtain ⟨-, rfl⟩ := step_popReady h; exact ⟨hs.1, hs.2, hs.3⟩
  | dispatch => obtain ⟨c, rest, -, rfl⟩ := step_dispatch h; exact ⟨hs.1, hs.2, hs.3⟩

theorem spaced_of_run {es : List PipelineEvent}
    (h : run (step digest) (new C cfg ringSize startedAt) es = some s) (hw : Window digest cfg s) :
    Spaced digest D s := by
  refine run_inv_of_step (I := fun s => Window digest cfg s → Spaced digest D s) ?_
    (fun _ => spaced_new digest D ringSize startedAt) h hw
  intro s e t hs hst hw
  exact (hs (hw.mono (accepted_grows hst))).step hw hst

end Pipeline

/-- **No loss and no duplication.**  In every reachable state each accepted call is in exactly one
place and nothing else is anywhere, the counters of the buffer agree with the places, and the heap is
bounded; and while the window of the cache holds the accepted keys, two dispatched copies of one
sentence were checked at least `ttlSeconds` apart. -/
theorem no_loss_no_duplication (D : Documented C cfg.maxEntries cfg.ttlSeconds)
    (hq : 1 ≤ cfg.maxQueue) {es : List PipelineEvent} {s : Pipeline C}
    (h : run (Pipeline.step digest) (Pipeline.new C cfg ringSize startedAt) es = some s) :
    (s.accepted.map (·.id)).Nodup ∧ s.accepted.Perm s.places ∧
    (∀ i now, i < s.checked.length → (s.step digest (.push i now)).isSome) ∧
    s.reorder.dropped = s.overflowed.length ∧ s.reorder.heap.size ≤ cfg.maxQueue ∧
    s.reorder.pushed = s.reorder.popped + s.reorder.dropped + s.reorder.heap.size ∧
    (Pipeline.Window digest cfg s → ∀ a ∈ s.dispatched, ∀ b ∈ s.dispatched, a.id ≠ b.id →
      canonicalise a.sentence = canonicalise b.sentence →
      a.checkedAt + cfg.ttlSeconds ≤ b.checkedAt ∨ b.checkedAt + cfg.ttlSeconds ≤ a.checkedAt) := by
  have hs : Pipeline.Conserved cfg s :=
    run_inv_of_step (fun _ _ _ hs hst => hs.step hst) (Pipeline.conserved_new cfg ringSize startedAt) h
  refine ⟨hs.ids, hs.placed, ?_, hs.dropped, hs.bounded, hs.pushed, ?_⟩
  · intro i now hi
    have hq' : 1 ≤ s.reorder.maxQueue := hs.cap ▸ hq
    have hpush : ∃ t, s.step digest (.push i now) = some t :=
      Pipeline.step_push_isSome hq' (List.getElem?_eq_getElem hi)
    exact Option.isSome_iff_exists.2 hpush
  · intro hw a ha b hb hid hcanon
    have hacc : ∀ c ∈ s.dispatched, c ∈ s.accepted := by
      intro c hc
      exact hs.placed.mem_iff.2 (List.mem_append_right _ hc)
    have hkey : dedupKey digest a.sentence = dedupKey digest b.sentence := by
      unfold dedupKey
      rw [hcanon]
    have hspaced := (Pipeline.spaced_of_run (D := D) h hw).spaced
    have hsymm := List.pairwise_iff_getElem.1 hspaced
    obtain ⟨i, hi, rfl⟩ := List.getElem_of_mem (hacc a ha)
    obtain ⟨j, hj, rfl⟩ := List.getElem_of_mem (hacc b hb)
    rcases lt_trichotomy i j with hij | rfl | hij
    · exact Or.inl (hsymm i j hi hj hij hkey)
    · exact absurd rfl hid
    · exact Or.inr (hsymm j i hj hi hij hkey.symm)

/-- A sentence that comes again within the window and a third time after it. -/
def threeCopies : List PipelineEvent :=
  [.check ['a'] ['p'] 100 0, .check ['a'] ['q'] 105 5, .push 0 100, .popReady 102, .dispatch,
    .check ['a'] ['q'] 131 31, .push 0 131, .popReady 133, .dispatch]

theorem no_loss_no_duplication_threeCopies :
    ∃ s, run (Pipeline.step id) (Pipeline.new (refCache Str Time 10 30) ⟨30, 10, 2000, 3⟩ 500 100)
        threeCopies = some s ∧ s.accepted.Perm s.places ∧
      ∀ a ∈ s.dispatched, ∀ b ∈ s.dispatched, a.id ≠ b.id →
        canonicalise a.sentence = canonicalise b.sentence →
        a.checkedAt + 30 ≤ b.checkedAt ∨ b.checkedAt + 30 ≤ a.checkedAt := by
  have hrun : (run (Pipeline.step id)
      (Pipeline.new (refCache Str Time 10 30) ⟨30, 10, 2000, 3⟩ 500 100) threeCopies).map
        (fun s => s.accepted.length) = some 2 := by decide +kernel
  obtain ⟨s, hs, hlen⟩ := Option.map_eq_some_iff.1 hrun
  obtain ⟨-, hplaced, -, -, -, -, hspaced⟩ :=
    no_loss_no_duplication (refCache_documented Str Time 10 (30 : ℕ)) (by decide) hs
  refine ⟨s, hs, hplaced, hspaced (Pipeline.window_of_length ?_)⟩
  rw [hlen]
  decide

end AisServer.Stream
