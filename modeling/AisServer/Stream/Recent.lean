import AisServer.Lib.Recent
import AisServer.Stream.Events
import Mathlib.Data.List.Induction

/-!
# The recent events of a topic

A bus under any sequence of its calls.  Here a callback has an outcome, and `publish` goes on with the next one
whatever it is.

* `publishAll_eq` — the outcomes do not matter;
* `recent_iff` — when `recent` is the end of what was published to the topic.
-/

namespace AisServer.Stream

open AisServer.Lib

namespace EventBus

/-! ### The calls of a bus -/

/-- `for cb in subs: try: cb(payload) except Exception: pass`, with the calls that are made. -/
def callAll (outcome : ℕ → Except Str Unit) (payload : UiEvent) : List ℕ → List (ℕ × UiEvent)
  | [] => []
  | cb :: subs =>
    match outcome cb with
    | .ok () => (cb, payload) :: callAll outcome payload subs
    | .error _ => (cb, payload) :: callAll outcome payload subs

/-- `publish`, when the callbacks have these outcomes. -/
def publishAll (bus : EventBus) (topic : Str) (payload : UiEvent) (outcome : ℕ → Except Str Unit) : EventBus :=
  { bus with
    rings := Function.update bus.rings topic (keepLast bus.ringSize (bus.rings topic ++ [payload]))
    calls := bus.calls ++ callAll outcome payload (bus.subs topic) }

inductive BusCall
  | subscribe (topic : Str) (callback : ℕ)
  | publish (topic : Str) (payload : UiEvent) (outcome : ℕ → Except Str Unit)

def call (bus : EventBus) : BusCall → EventBus
  | .subscribe topic callback => bus.subscribe topic callback
  | .publish topic payload outcome => bus.publishAll topic payload outcome

/-- `EventBus(ring_size)` after some calls. -/
def after (ringSize : ℕ) (calls : List BusCall) : EventBus := calls.foldl call { ringSize }

/-- What was published to a topic. -/
def published (topic : Str) (calls : List BusCall) : List UiEvent :=
  calls.filterMap fun
    | .publish t payload _ => if t = topic then some payload else none
    | .subscribe _ _ => none

variable {bus : EventBus} {topic : Str} {ringSize n : ℕ} {calls : List BusCall}

theorem callAll_eq (outcome : ℕ → Except Str Unit) (payload : UiEvent) (subs : List ℕ) :
    callAll outcome payload subs = subs.map fun cb => (cb, payload) := by
  induction subs with
  | nil => rfl
  | cons cb subs ih =>
    rw [callAll]
    rcases outcome cb with _ | _ <;> exact congrArg ((cb, payload) :: ·) ih

theorem publishAll_eq (bus : EventBus) (topic : Str) (payload : UiEvent) (outcome : ℕ → Except Str Unit) :
    bus.publishAll topic payload outcome = bus.publish topic payload := by
  rw [publishAll, callAll_eq, publish]

theorem call_ringSize (bus : EventBus) (c : BusCall) : (bus.call c).ringSize = bus.ringSize := by
  cases c <;> rfl

theorem call_cases (bus : EventBus) (c : BusCall) (topic : Str) :
    (published topic [c] = [] ∧ (bus.call c).rings topic = bus.rings topic) ∨
    ∃ payload, published topic [c] = [payload] ∧
      (bus.call c).rings topic = (bus.rings topic ++ [payload]).rtake bus.ringSize := by
  cases c with
  | subscribe t callback => exact Or.inl ⟨rfl, rfl⟩
  | publish t payload outcome =>
    rw [call, publishAll_eq]
    unfold publish published
    by_cases ht : t = topic
    · subst ht
      exact Or.inr ⟨payload, by simp, by simp [keepLast, List.rtake]⟩
    · exact Or.inl ⟨by simp [ht], Function.update_of_ne (Ne.symm ht) _ _⟩

theorem published_concat (topic : Str) (calls : List BusCall) (c : BusCall) :
    published topic (calls ++ [c]) = published topic calls ++ published topic [c] := List.filterMap_append

/-- The ring of a topic is the end of what was published to it. -/
theorem rings_after (ringSize : ℕ) (calls : List BusCall) (topic : Str) : (after ringSize calls).ringSize = ringSize ∧
    (after ringSize calls).rings topic = (published topic calls).rtake ringSize := by
  induction calls using List.reverseRecOn with
  | nil => exact ⟨rfl, (List.rtake_nil ringSize).symm⟩
  | append_singleton calls c ih =>
    have hlast : after ringSize (calls ++ [c]) = (after ringSize calls).call c := List.foldl_append
    rw [hlast, call_ringSize, published_concat]
    refine ⟨ih.1, ?_⟩
    rcases call_cases (after ringSize calls) c topic with ⟨hnone, hring⟩ | ⟨payload, hone, hring⟩
    · rw [hnone, hring, List.append_nil]
      exact ih.2
    · rw [hone, hring, ih.1, ih.2]
      exact rtake_rtake_concat _ _ _

/-- **Recent events.**  After any calls of a bus, `recent` returns the last payloads of the topic, as many as are asked
for, fit in the ring and were published, exactly when some are asked for or none was published; and calls that publish
the same to the topic have the same ones. -/
theorem recent_iff (hsize : 1 ≤ ringSize) (calls : List BusCall) (topic : Str) (n : ℕ) :
    ((after ringSize calls).recent topic n = (published topic calls).rtake
      (min n (min ringSize (published topic calls).length)) ↔ n ≠ 0 ∨ published topic calls = []) ∧
    ∀ others, published topic others = published topic calls →
      (after ringSize others).recent topic n = (after ringSize calls).recent topic n := by
  refine ⟨?_, fun others h => ?_⟩
  · rw [← Nat.min_assoc, rtake_min_length, recent, (rings_after ringSize calls topic).2]
    by_cases hn : n = 0
    · subst hn
      rw [if_pos rfl, Nat.zero_min, List.rtake_zero, ← List.length_eq_zero_iff, length_rtake]
      constructor
      · intro h
        exact Or.inr (List.length_eq_zero_iff.1 (by omega))
      · rintro (h | h)
        · exact absurd rfl h
        · rw [h, List.length_nil, Nat.min_zero]
    · rw [if_neg hn]
      exact ⟨fun _ => Or.inl hn, fun _ => rtake_rtake _ _ _⟩
  · rw [recent, recent, (rings_after ringSize others topic).2, (rings_after ringSize calls topic).2, h]

/-- Three publications, one of them to another topic, with a callback that raises. -/
def threeCalls : List BusCall :=
  [.subscribe "incoming".toList 1,
   .publish "incoming".toList (.incoming "a".toList "p".toList 1 none) fun _ => .error "boom".toList,
   .publish "outgoing".toList (.outgoing 7 "e".toList "a".toList 2) fun _ => .ok (),
   .publish "incoming".toList (.incoming "b".toList "p".toList 3 none) fun _ => .ok ()]

theorem recent_iff_one : 1 ≤ 500 ∧ (after 500 threeCalls).recent "incoming".toList 1 =
    (published "incoming".toList threeCalls).rtake (min 1 (min 500 (published "incoming".toList threeCalls).length)) :=
  ⟨by decide, (recent_iff (by decide) threeCalls "incoming".toList 1).1.2 (Or.inl (by decide))⟩

/-- When no payload is asked for all of them are returned. -/
theorem recent_fails : (after 500 threeCalls).recent "incoming".toList 0 ≠
    (published "incoming".toList threeCalls).rtake (min 0 (min 500 (published "incoming".toList threeCalls).length)) := by
  decide +kernel

end EventBus

end AisServer.Stream
