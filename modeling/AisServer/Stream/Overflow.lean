import AisServer.Stream.Reorder

/-!
# The safety valve of the reorder buffer

A push into a full buffer takes the smallest item out *before* it puts the new one in, so what it drops is
the smallest of the old items, and that is the smallest of all only when the new item does not come before
it.

* `discardsOldest_iff` — when a push drops the smallest of the old items and the new one;
* `overflow_discards` — in a run exactly those pushes do that are not before the oldest item held.
-/

namespace AisServer.Stream

open AisServer.Lib

variable {α : Type}

namespace ReorderBuffer

/-- From `b` to `c` the new item came in and the smallest of all, by `(ts, seq)`, was left out. -/
def DiscardsOldest (b : ReorderBuffer α) (payload : α) (ts : Time) (c : ReorderBuffer α) : Prop :=
  ∃ d, (d :: c.heap.items).Perm (⟨ts, b.seq, payload⟩ :: b.heap.items) ∧
    ∀ i ∈ (⟨ts, b.seq, payload⟩ : HeapItem α) :: b.heap.items, d.key ≤ i.key

/-- A timestamp that is not before the oldest item held. -/
def NotBefore (b : ReorderBuffer α) (ts : Time) : Prop := ∀ i ∈ b.heap.peek, i.ts ≤ ts

instance (b : ReorderBuffer α) (ts : Time) : Decidable (b.NotBefore ts) :=
  match h : b.heap.peek with
  | none => isTrue (by simp [NotBefore, h])
  | some i => decidable_of_iff (i.ts ≤ ts) (by simp [NotBefore, h])

/-- The items held were numbered before the next one. -/
def Numbered (b : ReorderBuffer α) : Prop := ∀ i ∈ b.heap.items, i.seq < b.seq

variable {b c : ReorderBuffer α} {payload : α} {ts now : Time}

theorem Numbered.push (hb : b.Numbered) (h : b.push payload ts = some c) : c.Numbered := by
  intro i hi
  rw [(push_spec h).2.2.2.1]
  rcases mem_push h hi with rfl | hi
  · exact Nat.lt_succ_self _
  · exact (hb i hi).trans (Nat.lt_succ_self _)

theorem Numbered.popReady (hb : b.Numbered) (now : Time) : (b.popReady now).2.Numbered := by
  intro i hi
  rw [popReady_items] at hi
  exact hb i (List.mem_filter.1 hi).1

/-- **What an overflow discards.**  The smallest of the old items; it is the smallest of all exactly when
the new item is not before it. -/
theorem discardsOldest_iff (hn : b.Numbered) (hq : 1 ≤ b.maxQueue) (hfull : b.maxQueue ≤ b.heap.size)
    (h : b.push payload ts = some c) : b.DiscardsOldest payload ts c ↔ b.NotBefore ts := by
  obtain ⟨m, hm⟩ : ∃ m, b.heap.peek = some m := by
    have hlen := b.length_oldest hq
    rw [oldest, if_pos hfull, if_pos hfull] at hlen
    exact Option.isSome_iff_exists.1 (by rcases hp : b.heap.peek with _ | m <;> simp [hp] at hlen ⊢)
  have hold : b.oldest = some m := by rw [oldest, if_pos hfull, hm]
  have hperm := push_items_perm h
  rw [hold] at hperm
  have hmem : m ∈ b.heap.items := List.mem_of_mem_head? hm
  have hafter : b.NotBefore ts ↔ m.ts ≤ ts := by simp [NotBefore, hm]
  rw [hafter]
  constructor
  · rintro ⟨d, hd, hmin⟩
    -- what was left out is the old item that the push drops
    have hdm : [d].Perm [m] := (List.perm_append_right_iff c.heap.items).1 (hd.trans hperm.symm)
    obtain rfl : d = m := List.singleton_inj.1 (List.singleton_perm.1 hdm)
    exact HeapItem.ts_le_of_key_le (hmin _ List.mem_cons_self)
  · intro hle
    refine ⟨m, hperm, fun i hi => ?_⟩
    rcases List.mem_cons.1 hi with rfl | hi
    · rcases hle.lt_or_eq with hlt | heq
      · exact HeapItem.key_le_of_ts_lt hlt
      · exact Prod.Lex.toLex_le_toLex.2 (Or.inr ⟨heq, (hn m hmem).le⟩)
    · exact Heap.peek_le hm hi

end ReorderBuffer

namespace Feed

variable {s t : Feed α} {e : BufferCall α}

/-- A push into a full buffer discards the smallest of the old items and the new one. -/
def DiscardsOldest (s : Feed α) : BufferCall α → Prop
  | .push payload ts => s.buf.maxQueue ≤ s.buf.heap.size →
      ∀ c, s.buf.push payload ts = some c → s.buf.DiscardsOldest payload ts c
  | .popReady _ => True

/-- A push into a full buffer is not before the oldest item held. -/
def NotBefore (s : Feed α) : BufferCall α → Prop
  | .push _ ts => s.buf.maxQueue ≤ s.buf.heap.size → s.buf.NotBefore ts
  | .popReady _ => True

instance (s : Feed α) : ∀ e, Decidable (NotBefore s e)
  | .push _ ts => inferInstanceAs (Decidable (s.buf.maxQueue ≤ s.buf.heap.size → s.buf.NotBefore ts))
  | .popReady _ => inferInstanceAs (Decidable True)

/-- There is room for an item, and the items are numbered in the order of their pushes. -/
structure Stamped (s : Feed α) : Prop where
  room : 1 ≤ s.buf.maxQueue
  numbered : s.buf.Numbered

theorem stamped_new (holdMs : ℕ) {maxQueue : ℕ} (hq : 1 ≤ maxQueue) :
    Stamped (new holdMs maxQueue : Feed α) where
  room := hq
  numbered := by simp [ReorderBuffer.Numbered, new, ReorderBuffer.new]

theorem Stamped.step (hs : Stamped s) (h : s.step e = some t) : Stamped t := by
  cases e with
  | push payload ts =>
    obtain ⟨c, hc, rfl⟩ := Option.map_eq_some_iff.1 h
    exact ⟨(ReorderBuffer.push_spec hc).2.2.1 ▸ hs.room, hs.numbered.push hc⟩
  | popReady now =>
    obtain rfl := Option.some.inj h
    exact ⟨hs.room, hs.numbered.popReady now⟩

theorem Stamped.discardsOldest_iff (hs : Stamped s) (e : BufferCall α) :
    NotBefore s e ↔ DiscardsOldest s e := by
  cases e with
  | push payload ts =>
    refine forall_congr' fun hfull => ?_
    obtain ⟨c, hc⟩ := ReorderBuffer.push_isSome hs.room payload ts
    rw [← ReorderBuffer.discardsOldest_iff hs.numbered hs.room hfull hc]
    constructor
    · intro hd c' hc'
      obtain rfl := Option.some.inj (hc.symm.trans hc')
      exact hd
    · exact fun hd => hd c hc
  | popReady now => exact Iff.rfl

end Feed

/-- **Overflow.**  In a run from a new buffer every push into a full buffer discards the smallest of the
old items and the new one exactly when none of these pushes is before the oldest item held; and at the
end of any run a push does so exactly when it is not before that item. -/
theorem overflow_discards (holdMs maxQueue : ℕ) (hq : 1 ≤ maxQueue) (calls : List (BufferCall α)) :
    (Guarded Feed.step Feed.NotBefore (Feed.new holdMs maxQueue) calls ↔
      Guarded Feed.step Feed.DiscardsOldest (Feed.new holdMs maxQueue) calls) ∧
    ∀ s, run Feed.step (Feed.new holdMs maxQueue) calls = some s → s.buf.maxQueue ≤ s.buf.heap.size →
      ∀ payload ts c, s.buf.push payload ts = some c →
        (s.buf.DiscardsOldest payload ts c ↔ s.buf.NotBefore ts) := by
  refine ⟨?_, fun s hs hfull payload ts c hc => ?_⟩
  · exact guarded_congr (I := Feed.Stamped) (fun _ _ _ hs h => hs.step h)
      (fun _ e hs => hs.discardsOldest_iff e) (Feed.stamped_new holdMs hq)
  · have hst : Feed.Stamped s :=
      run_inv_of_step (fun _ _ _ hs h => hs.step h) (Feed.stamped_new holdMs hq) hs
    exact ReorderBuffer.discardsOldest_iff hst.numbered hst.room hfull hc

/-- Increasing timestamps. -/
theorem overflow_discards_increasing :
    Guarded Feed.step Feed.DiscardsOldest (Feed.new 1000 2 : Feed Char)
      [.push 'a' 1, .push 'b' 2, .push 'c' 3, .push 'd' 4] :=
  (overflow_discards 1000 2 (by decide) [.push 'a' 1, .push 'b' 2, .push 'c' 3, .push 'd' 4]).1.1
    (by decide +kernel)

/-- A late item is kept, and the newer one that was held is dropped for it. -/
theorem overflow_discards_fails : ∃ s c, run Feed.step (Feed.new 1000 1) [.push 'a' 5] = some s ∧
    s.buf.heap.size = s.buf.maxQueue ∧ s.buf.push 'b' 1 = some c ∧ ¬s.buf.DiscardsOldest 'b' 1 c := by
  obtain ⟨s, hs⟩ := Feed.run_isSome (s := (Feed.new 1000 1 : Feed Char)) (by decide) [.push 'a' 5]
  have hst : Feed.Stamped s :=
    run_inv_of_step (fun _ _ _ hs h => hs.step h) (Feed.stamped_new 1000 (by decide)) hs
  have hsome : (run Feed.step (Feed.new 1000 1) [.push 'a' 5]).map (fun s =>
      decide (s.buf.heap.size = s.buf.maxQueue ∧ ¬s.buf.NotBefore 1)) = some true := by decide +kernel
  rw [hs, Option.map_some, Option.some.injEq, decide_eq_true_eq] at hsome
  obtain ⟨c, hc⟩ := ReorderBuffer.push_isSome hst.room 'b' 1
  exact ⟨s, c, hs, hsome.1, hc,
    fun hd => hsome.2 ((ReorderBuffer.discardsOldest_iff hst.numbered hst.room hsome.1.ge hc).1 hd)⟩

end AisServer.Stream
