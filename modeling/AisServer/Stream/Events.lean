import AisServer.Lib.Calendar
import AisServer.Lib.Text
import Mathlib.Logic.Function.Basic

/-!
# The event bus

`EventBus` keeps for every topic the callbacks that were subscribed and a ring of the last `ringSize`
payloads.  A callback is a number; `calls` lists the calls that were made, in order.  What a callback
raises is swallowed, so a call has no further effect here.
-/

namespace AisServer.Stream

open AisServer.Lib

/-- The payloads of the topics `incoming` and `outgoing`. -/
inductive UiEvent
  | incoming (sentence peer : Str) (ts : Time) (mmsi : Option ℕ)
  | outgoing (endpointId : ℕ) (endpoint sentence : Str) (ts : Time)
  deriving DecidableEq

structure EventBus where
  ringSize : ℕ
  subs : Str → List ℕ := fun _ => []
  rings : Str → List UiEvent := fun _ => []
  calls : List (ℕ × UiEvent) := []

namespace EventBus

/-- A `deque(maxlen=n)` after an append: the last `n` values. -/
def keepLast {α : Type} (n : ℕ) (l : List α) : List α := l.drop (l.length - n)

def subscribe (bus : EventBus) (topic : Str) (callback : ℕ) : EventBus :=
  { bus with subs := Function.update bus.subs topic (bus.subs topic ++ [callback]) }

theorem mem_subs_self (bus : EventBus) (topic : Str) (callback : ℕ) :
    callback ∈ (bus.subscribe topic callback).subs topic := by
  simp [subscribe]

theorem mem_subs_subscribe {bus : EventBus} {topic t : Str} {callback cb : ℕ} (h : cb ∈ bus.subs t) :
    cb ∈ (bus.subscribe topic callback).subs t := by
  by_cases ht : t = topic
  · subst ht
    simp [subscribe, h]
  · simpa [subscribe, Function.update_of_ne ht] using h

def publish (bus : EventBus) (topic : Str) (payload : UiEvent) : EventBus :=
  { bus with
    rings := Function.update bus.rings topic (keepLast bus.ringSize (bus.rings topic ++ [payload]))
    calls := bus.calls ++ (bus.subs topic).map fun cb => (cb, payload) }

/-- `list(ring)[-n:]`: for `n = 0` the slice is the whole ring. -/
def recent (bus : EventBus) (topic : Str) (n : ℕ) : List UiEvent :=
  if n = 0 then bus.rings topic else keepLast n (bus.rings topic)

end EventBus

end AisServer.Stream
