import AisServer.Lib.Calendar
import AisServer.Lib.Text
import AisServer.Lib.Throttle
import Mathlib.Data.List.AList
import Mathlib.Data.List.DropRight
import Mathlib.Data.List.Infix

/-!
# The lines about sessions

`should_log_session` decides which sessions get an `INFO` line, so that a node that reconnects every few seconds does
not fill the journal.  `_last_log` holds the times of the last two lines of a node, and `prune_inactive` drops them with
the node.

* `Refines.call` — it is a throttle with a key for each node and kind of line;
* `session_lines` — two lines of one kind about a node are a minute apart unless the node was dropped between them, and
  which lines are left out.
-/

namespace AisServer.Ingest

open AisServer.Lib

/-- `_last_log`: when the last lines about the opening and the closing of a session were written. -/
structure SessionLog where
  lastLog : AList (fun _ : Str => Time × Time) := ∅

namespace SessionLog

/-- `_SESSION_LOG_MIN_INTERVAL` -/
def minInterval : Time := 60

/-- `self._last_log.get(key, (0.0, 0.0))` -/
def times (s : SessionLog) (key : Str) : Time × Time := (s.lastLog.lookup key).getD (0, 0)

/-- `should_log_session`, with the log after it. -/
def shouldLogSession (s : SessionLog) (key event : Str) (now : Time) : Bool × SessionLog :=
  if event = "open".toList then
    if minInterval ≤ now - (s.times key).1 then (true, ⟨s.lastLog.insert key (now, (s.times key).2)⟩) else (false, s)
  else if event = "close".toList then
    if minInterval ≤ now - (s.times key).2 then (true, ⟨s.lastLog.insert key ((s.times key).1, now)⟩) else (false, s)
  else (true, s)

/-- `self._last_log.pop(key, None)`, for every node that `prune_inactive` drops. -/
def drop (s : SessionLog) (keys : List Str) : SessionLog := ⟨keys.foldl (fun log key => log.erase key) s.lastLog⟩

end SessionLog

/-- The kinds of lines that a session thread asks for. -/
inductive SessionKind
  | opened
  | closed
  deriving DecidableEq

namespace SessionKind

def event : SessionKind → Str
  | .opened => "open".toList
  | .closed => "close".toList

/-- The time of the kind. -/
def pick : SessionKind → Time × Time → Time
  | .opened, times => times.1
  | .closed, times => times.2

def put : SessionKind → Time × Time → Time → Time × Time
  | .opened, times, now => (now, times.2)
  | .closed, times, now => (times.1, now)

variable {kind kind' : SessionKind} {times : Time × Time} {now : Time}

@[simp] theorem pick_put : kind.pick (kind.put times now) = now := by cases kind <;> rfl

theorem pick_put_of_ne (h : kind' ≠ kind) : kind'.pick (kind.put times now) = kind'.pick times := by
  cases kind <;> cases kind' <;> first | rfl | exact absurd rfl h

end SessionKind

inductive LogCall
  | session (key : Str) (kind : SessionKind) (now : Time)
  | prune (keys : List Str)

/-- What the journal shows of a node: a line about a session, or that the node was dropped. -/
inductive JournalEntry
  | line (key : Str) (kind : SessionKind) (now : Time)
  | dropped (key : Str)
  deriving DecidableEq

namespace JournalEntry

/-- The time of a line of the kind about the node. -/
def at? (key : Str) (kind : SessionKind) : JournalEntry → Option Time
  | .line key' kind' now => if (key, kind) = (key', kind') then some now else none
  | .dropped _ => none

end JournalEntry

/-- When the lines of a kind about a node were written since it was last dropped. -/
def timesSince (history : List JournalEntry) (key : Str) (kind : SessionKind) : List Time :=
  (history.rtakeWhile (· ≠ .dropped key)).filterMap (JournalEntry.at? key kind)

/-- The log with everything that was written and dropped so far. -/
structure Journal where
  log : SessionLog := {}
  history : List JournalEntry := []

namespace Journal

def call (s : Journal) : LogCall → Journal
  | .session key kind now =>
    let r := s.log.shouldLogSession key kind.event now
    { log := r.2, history := if r.1 then s.history ++ [.line key kind now] else s.history }
  | .prune keys => { log := s.log.drop keys, history := s.history ++ keys.map .dropped }

/-- When the lines that `_last_log` still knows of were written. -/
def times (s : Journal) (key : Str) (kind : SessionKind) : List Time := timesSince s.history key kind

end Journal

section History

variable {history before between : List JournalEntry} {key key' : Str} {kind kind' : SessionKind} {a now : Time}

theorem timesSince_line : timesSince (history ++ [.line key kind now]) key' kind' =
    if (key', kind') = (key, kind) then timesSince history key' kind' ++ [now] else timesSince history key' kind' := by
  unfold timesSince
  rw [List.rtakeWhile_concat_pos _ _ _ (by simp), List.filterMap_append]
  by_cases h : (key', kind') = (key, kind)
  · rw [if_pos h]
    simp [JournalEntry.at?, h]
  · rw [if_neg h]
    simp [JournalEntry.at?, h]

theorem timesSince_dropped : timesSince (history ++ [.dropped key]) key' kind' =
    if key' = key then [] else timesSince history key' kind' := by
  unfold timesSince
  by_cases h : key' = key
  · rw [if_pos h, List.rtakeWhile_concat_neg _ _ _ (by simp [h]), List.filterMap_nil]
  · rw [if_neg h, List.rtakeWhile_concat_pos _ _ _ (by simpa using Ne.symm h), List.filterMap_append]
    simp [JournalEntry.at?]

theorem timesSince_prune (keys : List Str) : timesSince (history ++ keys.map .dropped) key kind =
    if key ∈ keys then [] else timesSince history key kind := by
  induction keys using List.reverseRecOn with
  | nil => simp
  | append_singleton keys key' ih =>
    rw [List.map_append, ← List.append_assoc, List.map_singleton, timesSince_dropped, ih]
    by_cases hkey : key = key' <;> simp [hkey]

theorem mem_timesSince (h : .dropped key ∉ between) :
    a ∈ timesSince (before ++ .line key kind a :: between) key kind := by
  unfold timesSince
  refine List.mem_filterMap.mpr ⟨.line key kind a, ?_, by simp [JournalEntry.at?]⟩
  have hall : ∀ e ∈ (JournalEntry.line key kind a :: between).reverse, decide (e ≠ .dropped key) = true := by
    intro e he
    rcases List.mem_cons.mp (List.mem_reverse.mp he) with rfl | he
    · simp
    · exact decide_eq_true fun heq => h (heq ▸ he)
  rw [List.rtakeWhile, List.reverse_append, List.takeWhile_append_of_pos hall]
  simp

end History

/-! ### A throttle for each node and kind -/

abbrev SessionThrottle := Throttle (Str × SessionKind) Time

def interval : Str × SessionKind → Time := fun _ => SessionLog.minInterval

def LogCall.offers : LogCall → List (ThrottleEvent (Str × SessionKind) Time)
  | .session key kind now => [.offer (key, kind) now]
  | .prune keys => keys.flatMap fun key => [.forget (key, .opened), .forget (key, .closed)]

structure Refines (s : Journal) (θ : SessionThrottle) : Prop where
  last : ∀ key kind, kind.pick (s.log.times key) = θ.last (key, kind)
  passed : ∀ key kind, s.times key kind = θ.passed (key, kind)

theorem refines_new : Refines {} (Throttle.new 0) where
  last key kind := by cases kind <;> rfl
  passed _ _ := rfl

variable {s : Journal} {θ : SessionThrottle} {log : SessionLog} {key key' : Str} {kind : SessionKind} {now : Time}

/-- Both kinds of line are decided alike. -/
theorem shouldLogSession_event : log.shouldLogSession key kind.event now =
    if SessionLog.minInterval ≤ now - kind.pick (log.times key) then
      (true, ⟨log.lastLog.insert key (kind.put (log.times key) now)⟩)
    else (false, log) := by
  cases kind <;> rfl

theorem times_insert {times : Time × Time} :
    SessionLog.times ⟨log.lastLog.insert key times⟩ key' = if key' = key then times else log.times key' := by
  unfold SessionLog.times
  by_cases hkey : key' = key
  · subst hkey
    simp
  · rw [AList.lookup_insert_ne hkey, if_neg hkey]

theorem times_drop {keys : List Str} : (log.drop keys).times key = if key ∈ keys then (0, 0) else log.times key := by
  unfold SessionLog.drop SessionLog.times
  induction keys generalizing log with
  | nil => simp
  | cons key' keys ih =>
    rw [List.foldl_cons, @ih ⟨log.lastLog.erase key'⟩]
    by_cases hmem : key ∈ keys
    · simp [hmem]
    · by_cases hkey : key = key'
      · subst hkey
        simp [hmem]
      · simp [hmem, hkey, AList.lookup_erase_ne hkey]

theorem foldl_forget {keys : List Str} (θ : SessionThrottle) :
    ((keys.flatMap fun key => [ThrottleEvent.forget (key, .opened), .forget (key, .closed)]).foldl
      (Throttle.step interval 0) θ).last (key, kind) = (if key ∈ keys then 0 else θ.last (key, kind)) ∧
    ((keys.flatMap fun key => [ThrottleEvent.forget (key, .opened), .forget (key, .closed)]).foldl
      (Throttle.step interval 0) θ).passed (key, kind) = if key ∈ keys then [] else θ.passed (key, kind) := by
  induction keys generalizing θ with
  | nil => exact ⟨rfl, rfl⟩
  | cons key' keys ih =>
    rw [List.flatMap_cons, List.foldl_append, (ih _).1, (ih _).2]
    by_cases hmem : key ∈ keys
    · simp [hmem]
    · by_cases hkey : key = key'
      · subst hkey
        cases kind <;> simp [hmem, Throttle.step, Function.update]
      · simp [hmem, hkey, Throttle.step, Function.update]

theorem Refines.call (h : Refines s θ) (c : LogCall) :
    Refines (s.call c) (c.offers.foldl (Throttle.step interval 0) θ) := by
  cases c with
  | session key kind now =>
    have hdue : θ.due interval (key, kind) now =
        decide (SessionLog.minInterval ≤ now - kind.pick (s.log.times key)) := by
      rw [Throttle.due, h.last, interval]
    simp only [LogCall.offers, List.foldl_cons, List.foldl_nil, Throttle.step, Journal.call,
      shouldLogSession_event, hdue, decide_eq_true_eq]
    by_cases hlong : SessionLog.minInterval ≤ now - kind.pick (s.log.times key)
    · simp only [if_pos hlong, if_true]
      refine ⟨fun key' kind' => ?_, fun key' kind' => ?_⟩
      · show _ = Function.update θ.last (key, kind) now (key', kind')
        rw [times_insert]
        by_cases hkey : key' = key
        · subst hkey
          by_cases hkind : kind' = kind
          · subst hkind
            simp
          · rw [if_pos rfl, SessionKind.pick_put_of_ne hkind, h.last, Function.update_of_ne (by simpa using hkind)]
        · rw [if_neg hkey, h.last, Function.update_of_ne (fun he => hkey (Prod.mk.inj he).1)]
      · show _ = Function.update θ.passed (key, kind) (θ.passed (key, kind) ++ [now]) (key', kind')
        rw [Journal.times, timesSince_line, ← h.passed]
        by_cases hk : (key', kind') = (key, kind)
        · obtain ⟨rfl, rfl⟩ := Prod.mk.inj hk
          rw [if_pos rfl, Function.update_self, Journal.times]
        · rw [if_neg hk, Function.update_of_ne hk, ← h.passed, Journal.times]
    · simp only [if_neg hlong, Bool.false_eq_true, if_false]
      exact ⟨h.last, h.passed⟩
  | prune keys =>
    refine ⟨fun key kind => ?_, fun key kind => ?_⟩
    · rw [LogCall.offers, (foldl_forget θ).1, ← h.last]
      show kind.pick ((s.log.drop keys).times key) = _
      rw [times_drop]
      by_cases hmem : key ∈ keys
      · rw [if_pos hmem, if_pos hmem]
        cases kind <;> rfl
      · rw [if_neg hmem, if_neg hmem]
    · rw [LogCall.offers, (foldl_forget θ).2, ← h.passed]
      exact timesSince_prune keys

theorem refines_of_calls (calls : List LogCall) :
    ∃ θ, Refines (calls.foldl Journal.call {}) θ ∧ Throttle.Faithful interval 0 θ := by
  suffices h : ∀ (s : Journal) θ, Refines s θ → Throttle.Faithful interval 0 θ →
      ∃ θ', Refines (calls.foldl Journal.call s) θ' ∧ Throttle.Faithful interval 0 θ' from
    h {} _ refines_new (Throttle.faithful_new interval 0)
  have hpos : ∀ k, 0 ≤ interval k := fun _ => (by decide : (0 : Time) ≤ 60)
  induction calls with
  | nil => exact fun s θ hs hθ => ⟨θ, hs, hθ⟩
  | cons c calls ih => exact fun s θ hs hθ => ih _ _ (hs.call c) (hθ.foldl hpos c.offers)

/-- Also before every entry of the journal, the lines that were remembered then were a minute apart. -/
theorem spaced_of_prefix (calls : List LogCall) {h : List JournalEntry}
    (hpre : h <+: (calls.foldl Journal.call {}).history) (key : Str) (kind : SessionKind) :
    Spaced (60 : Time) (timesSince h key kind) := by
  have hlast : ∀ calls : List LogCall,
      Spaced (60 : Time) (timesSince (calls.foldl Journal.call {}).history key kind) := by
    intro calls
    obtain ⟨θ, hs, hθ⟩ := refines_of_calls calls
    rw [← Journal.times, hs.passed]
    exact hθ.spaced (key, kind)
  induction calls using List.reverseRecOn with
  | nil => exact List.prefix_nil.mp hpre ▸ List.Pairwise.nil
  | append_singleton calls c ih =>
    have hnow := hlast (calls ++ [c])
    rw [List.foldl_append, List.foldl_cons, List.foldl_nil] at hpre hnow
    cases c with
    | session key' kind' now =>
      simp only [Journal.call] at hpre hnow
      split at hpre
      · rename_i hwritten
        rw [if_pos hwritten] at hnow
        rcases List.prefix_concat_iff.mp hpre with rfl | hold
        · exact hnow
        · exact ih hold
      · exact ih hpre
    | prune keys =>
      rcases List.prefix_or_prefix_of_prefix hpre (List.prefix_append _ _) with hold | ⟨dropped, rfl⟩
      · exact ih hold
      · -- some of the nodes are dropped by then
        obtain ⟨keys', -, rfl⟩ := List.prefix_map_iff.mp ((List.prefix_append_right_inj _).mp hpre)
        rw [timesSince_prune]
        split
        · exact List.Pairwise.nil
        · exact hlast calls

/-- **The lines about a node.**  However often the sessions of a node open and close, whatever the others do and
whichever nodes are dropped: two lines of one kind about a node are a minute apart unless the node was dropped between
them, so that `n + 1` of them since it was last dropped span `n` minutes; and a line is left out exactly when one of
its kind was written less than a minute before, or when there was none and the clock stands within the first minute. -/
theorem session_lines (calls : List LogCall) (key : Str) (kind : SessionKind) :
    let s := calls.foldl Journal.call {}
    (∀ before between after a b,
      s.history = before ++ .line key kind a :: between ++ .line key kind b :: after →
      .dropped key ∉ between → a + 60 ≤ b) ∧
    (∀ n, n < (s.times key kind).length → ∃ a ∈ s.times key kind, ∃ b ∈ s.times key kind, a + n * 60 ≤ b) ∧
    ∀ now, (s.log.shouldLogSession key kind.event now).1 = false ↔
      (s.times key kind = [] ∧ now < 60) ∨ ∃ a ∈ s.times key kind, now < a + 60 := by
  intro s
  obtain ⟨θ, hs, hθ⟩ := refines_of_calls calls
  have hspaced : Spaced (60 : Time) (s.times key kind) := hs.passed key kind ▸ hθ.spaced (key, kind)
  refine ⟨fun before between after a b heq hkept => ?_, fun n hn => ?_, fun now => ?_⟩
  · have hpre : before ++ .line key kind a :: between ++ [.line key kind b] <+: s.history :=
      ⟨after, by rw [heq, List.append_assoc _ _ after, List.singleton_append]⟩
    have hb := spaced_of_prefix calls hpre key kind
    rw [timesSince_line, if_pos rfl] at hb
    exact (List.pairwise_append.mp hb).2.2 a (mem_timesSince hkept) b (List.mem_singleton_self b)
  · obtain ⟨a, ha, b, hb, hle⟩ := hspaced.exists_span hn
    exact ⟨a, ha, b, hb, nsmul_eq_mul n (60 : Time) ▸ hle⟩
  · have hdue : (s.log.shouldLogSession key kind.event now).1 = θ.due interval (key, kind) now := by
      rw [shouldLogSession_event, hs.last, Throttle.due, interval]
      by_cases hlong : SessionLog.minInterval ≤ now - θ.last (key, kind) <;> simp [hlong]
    rw [hdue, hθ.due_eq_false, ← hs.passed, interval, SessionLog.minInterval, zero_add]

-- a node that was dropped starts anew
example : ([.session [] .opened 100, .session [] .opened 130, .prune [[]], .session [] .opened 131].foldl
    Journal.call {}).history = [.line [] .opened 100, .dropped [], .line [] .opened 131] := by decide +kernel

end AisServer.Ingest
