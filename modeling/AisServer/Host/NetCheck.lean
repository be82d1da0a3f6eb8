import AisServer.Lib.Calendar
import AisServer.Lib.Counter
import AisServer.Lib.Text

/-!
# The watch on the network

`NetCheck` of `netcheck.py`.  A wake-up of `run` looks for a target, probes it and counts the probes that failed; at
the threshold it bounces the interface and starts counting anew.  What the two commands of a bounce come to is only
logged.

* `tick_spec` — in a wake-up the watch is a counter of the library: a success resets it, a failure is a hit;
* `recoveries_counted` — the recoveries and the failures from the blocks of failed probes, and the patience of it.
-/

namespace AisServer.Host

open AisServer.Lib

/-- What a bounce meets: whether `nmcli` is found, and for its two commands whether `subprocess.run` raises. -/
structure Nmcli where
  found : Bool := true
  disconnectRaises : Bool := false
  connectRaises : Bool := false

/-- What a wake-up finds. -/
structure Wake where
  /-- What `_default_gateway` returns. -/
  gateway : Option Str
  /-- `create_connection` returns; otherwise it raises an `OSError`. -/
  connects : Bool
  now : Time := 0
  nmcli : Nmcli := {}

/-- The lines of the log of `run`. -/
inductive NetRecord
  | starting
  /-- `connectivity to %s restored` -/
  | restored (target : Str) (fails : ℕ)
  /-- `probe %s:%d failed (%d/%d)` -/
  | probeFailed (target : Str) (port : ℤ) (fails : ℕ) (threshold : ℤ)
  /-- `%d consecutive failures – bouncing %s` -/
  | bouncing (fails : ℕ) (interface : Str)
  /-- `nmcli not available` -/
  | noNmcli
  /-- `%s failed: %s` -/
  | commandFailed (args : List Str)

structure NetCheck where
  failThreshold : ℤ
  host : Option Str
  port : ℤ
  interface : Str
  autoRecover : Bool
  fails : ℕ := 0
  lastOk : Time := 0
  lastFail : Time := 0
  recoveries : ℕ := 0
  /-- The commands that were run. -/
  commands : List (List Str) := []
  log : List NetRecord := []

namespace NetCheck

def new (failThreshold : ℤ) (host : Option Str) (port : ℤ) (interface : Str) (autoRecover : Bool) : NetCheck where
  failThreshold := failThreshold
  host := host
  port := port
  interface := interface
  autoRecover := autoRecover

/-- `["nmcli", "device", action, self.interface]` -/
def deviceArgs (n : NetCheck) (action : Str) : List Str := ["nmcli".toList, "device".toList, action, n.interface]

/-- `_bounce_wifi` -/
def bounceWifi (n : NetCheck) (nmcli : Nmcli) : NetCheck :=
  if nmcli.found then
    let disconnect := n.deviceArgs "disconnect".toList
    let connect := n.deviceArgs "connect".toList
    { n with
      commands := n.commands ++ [disconnect, connect]
      log := n.log ++ (if nmcli.disconnectRaises then [.commandFailed disconnect] else [])
        ++ (if nmcli.connectRaises then [.commandFailed connect] else []) }
  else { n with log := n.log ++ [.noNmcli] }

/-- `self.host or _default_gateway()`, `none` where it is not true. -/
def target (n : NetCheck) (w : Wake) : Option Str := (n.host.filter (· ≠ [])).or (w.gateway.filter (· ≠ []))

/-- A wake-up with a route and a successful probe. -/
def succeed (n : NetCheck) (target : Str) (now : Time) : NetCheck :=
  { n with
    fails := 0
    lastOk := now
    log := n.log ++ if n.fails ≠ 0 then [.restored target n.fails] else [] }

/-- A failed probe, up to the test of the threshold. -/
def countFail (n : NetCheck) (target : Str) (now : Time) : NetCheck :=
  { n with
    fails := n.fails + 1
    lastFail := now
    log := n.log ++ [.probeFailed target n.port (n.fails + 1) n.failThreshold] }

/-- What happens at the threshold, up to the reset. -/
def recover (n : NetCheck) (nmcli : Nmcli) : NetCheck :=
  if n.autoRecover then
    let m := bounceWifi { n with log := n.log ++ [.bouncing n.fails n.interface] } nmcli
    { m with recoveries := m.recoveries + 1 }
  else n

/-- One turn of the loop of `run`. -/
def tick (n : NetCheck) (w : Wake) : NetCheck :=
  match n.target w with
  | none => n
  | some target =>
    if w.connects then n.succeed target w.now
    else
      let m := n.countFail target w.now
      if m.failThreshold ≤ m.fails then { m.recover w.nmcli with fails := 0 } else m

/-- The first line of `run`. -/
def start (n : NetCheck) : NetCheck := { n with log := n.log ++ [.starting] }

/-- The loop of `run`. -/
def after (n : NetCheck) (wakes : List Wake) : NetCheck := wakes.foldl tick n

/-! ### What it should do -/

/-- The result of the probe in a wake-up, `none` without a route. -/
def outcome (n : NetCheck) (w : Wake) : Option Bool := (n.target w).map fun _ => w.connects

/-- The blocks of failed probes that no success separates, the current one last. -/
def blocks (n : NetCheck) (wakes : List Wake) : List (List Bool) := (wakes.filterMap n.outcome).splitOn true

/-- The failed probes. -/
def failures (n : NetCheck) (wakes : List Wake) : ℕ := (wakes.filterMap n.outcome).count false

/-- In the wake-up after `ws` the interface is bounced. -/
def Bounced (n : NetCheck) (ws : List Wake) (w : Wake) : Prop :=
  (n.after (ws ++ [w])).recoveries ≠ (n.after ws).recoveries ∨ (n.after (ws ++ [w])).commands ≠ (n.after ws).commands

/-- In the wake-up after `ws` there is a bounce or a success. -/
def Fresh (n : NetCheck) (ws : List Wake) (w : Wake) : Prop := n.outcome w = some true ∨ n.Bounced ws w

/-- The wake-ups `vs` are those since the last bounce or success in `us ++ vs`. -/
structure Since (n : NetCheck) (us vs : List Wake) : Prop where
  last : ∀ us' u, us = us' ++ [u] → n.Fresh us' u
  none : ∀ vs' v, vs' ++ [v] <+: vs → ¬ n.Fresh (us ++ vs') v

structure Counted (n : NetCheck) (k : ℕ) (wakes : List Wake) : Prop where
  recoveries : (n.after wakes).recoveries = ((n.blocks wakes).map fun block => block.length / k).sum
  fails : (n.after wakes).fails = ((n.blocks wakes).getLast?.getD []).length % k
  patient : ∀ us vs w, us ++ vs ++ [w] <+: wakes → n.Since us vs → n.Bounced (us ++ vs) w → k ≤ n.failures (vs ++ [w])

variable {n : NetCheck} {k : ℕ} {w : Wake} {ws us vs wakes : List Wake}

/-! ### One wake-up -/

/-- The watch as a counter of failures. -/
def counter (n : NetCheck) : Counter := ⟨n.fails, n.recoveries⟩

/-- The settings, which stay. -/
structure Settings (n m : NetCheck) : Prop where
  failThreshold : m.failThreshold = n.failThreshold
  host : m.host = n.host
  autoRecover : m.autoRecover = n.autoRecover

theorem bounceWifi_frame (n : NetCheck) (nmcli : Nmcli) : Settings n (n.bounceWifi nmcli) ∧
    (n.bounceWifi nmcli).fails = n.fails ∧ (n.bounceWifi nmcli).recoveries = n.recoveries := by
  unfold bounceWifi
  split_ifs <;> exact ⟨⟨rfl, rfl, rfl⟩, rfl, rfl⟩

theorem recover_spec (hauto : n.autoRecover = true) (nmcli : Nmcli) :
    Settings n (n.recover nmcli) ∧ (n.recover nmcli).recoveries = n.recoveries + 1 := by
  obtain ⟨⟨h1, h2, h3⟩, -, hrec⟩ :=
    bounceWifi_frame { n with log := n.log ++ [.bouncing n.fails n.interface] } nmcli
  unfold recover
  rw [if_pos hauto]
  exact ⟨⟨h1, h2, h3⟩, congrArg (· + 1) hrec⟩

/-- What a wake-up with such a result does to the counter. -/
def feedOutcome (k : ℕ) (c : Counter) : Option Bool → Counter
  | none => c
  | some b => c.feed k b

/-- **A wake-up is an input to the counter**; the commands are only run when it goes off. -/
theorem tick_spec (hk : n.failThreshold = k) (hauto : n.autoRecover = true) (w : Wake) :
    Settings n (n.tick w) ∧ (n.tick w).counter = feedOutcome k n.counter (n.outcome w) ∧
      ((n.tick w).recoveries = n.recoveries → (n.tick w).commands = n.commands) := by
  unfold tick outcome
  rcases n.target w with _ | target
  · exact ⟨⟨rfl, rfl, rfl⟩, rfl, fun _ => rfl⟩
  · dsimp only [Option.map_some]
    rcases hconn : w.connects
    · rw [if_neg Bool.false_ne_true]
      by_cases hle : k ≤ n.fails + 1
      · have hthr : (n.countFail target w.now).failThreshold ≤ ((n.countFail target w.now).fails : ℤ) := by
          rw [countFail, hk]
          exact_mod_cast hle
        obtain ⟨⟨h1, h2, h3⟩, hrec⟩ := recover_spec (n := n.countFail target w.now) hauto w.nmcli
        rw [if_pos hthr]
        refine ⟨⟨h1, h2, h3⟩, ?_, fun h => absurd (hrec.symm.trans h) (Nat.succ_ne_self _)⟩
        rw [counter, hrec, feedOutcome, Counter.feed, Counter.hit_of_le hle]
        rfl
      · have hthr : ¬ (n.countFail target w.now).failThreshold ≤ ((n.countFail target w.now).fails : ℤ) := by
          rw [countFail, hk]
          exact_mod_cast hle
        rw [if_neg hthr]
        refine ⟨⟨rfl, rfl, rfl⟩, ?_, fun _ => rfl⟩
        rw [feedOutcome, Counter.feed, Counter.hit_of_lt (not_le.1 hle)]
        rfl
    · exact ⟨⟨rfl, rfl, rfl⟩, rfl, fun _ => rfl⟩

/-! ### Runs -/

theorem after_append (n : NetCheck) (ws vs : List Wake) : n.after (ws ++ vs) = (n.after ws).after vs :=
  List.foldl_append

theorem after_settings (hk : n.failThreshold = k) (hauto : n.autoRecover = true) (ws : List Wake) :
    Settings n (n.after ws) := by
  induction ws using List.reverseRecOn with
  | nil => exact ⟨rfl, rfl, rfl⟩
  | append_singleton ws w ih =>
    rw [after_append]
    obtain ⟨⟨h1, h2, h3⟩, -⟩ := tick_spec (ih.failThreshold.trans hk) (ih.autoRecover.trans hauto) w
    exact ⟨h1.trans ih.failThreshold, h2.trans ih.host, h3.trans ih.autoRecover⟩

theorem outcome_after (hk : n.failThreshold = k) (hauto : n.autoRecover = true) (ws : List Wake) (w : Wake) :
    (n.after ws).outcome w = n.outcome w := by
  rw [outcome, outcome, target, target, (after_settings hk hauto ws).host]

theorem after_concat (hk : n.failThreshold = k) (hauto : n.autoRecover = true) (ws : List Wake) (w : Wake) :
    (n.after (ws ++ [w])).counter = feedOutcome k (n.after ws).counter (n.outcome w) ∧
      ((n.after (ws ++ [w])).recoveries = (n.after ws).recoveries →
        (n.after (ws ++ [w])).commands = (n.after ws).commands) := by
  have hs := after_settings hk hauto ws
  obtain ⟨-, hc, hcmd⟩ := tick_spec (hs.failThreshold.trans hk) (hs.autoRecover.trans hauto) w
  rw [outcome_after hk hauto] at hc
  rw [after_append]
  exact ⟨hc, hcmd⟩

/-- A run of the watch is a run of the counter over the results of its probes. -/
theorem after_counter (hk : n.failThreshold = k) (hauto : n.autoRecover = true) (ws : List Wake) :
    (n.after ws).counter = (ws.filterMap n.outcome).foldl (Counter.feed k) n.counter := by
  induction ws using List.reverseRecOn with
  | nil => rfl
  | append_singleton ws w ih =>
    rw [(after_concat hk hauto ws w).1, ih, List.filterMap_append, List.foldl_append]
    rcases h : n.outcome w with _ | b
    · rw [List.filterMap_cons_none h]
      rfl
    · rw [List.filterMap_cons_some h]
      rfl

theorem bounced_iff (hk : n.failThreshold = k) (hauto : n.autoRecover = true) :
    n.Bounced ws w ↔ (feedOutcome k (n.after ws).counter (n.outcome w)).fired ≠ (n.after ws).counter.fired := by
  obtain ⟨hc, hcmd⟩ := after_concat hk hauto ws w
  have hrec : (n.after (ws ++ [w])).recoveries = (feedOutcome k (n.after ws).counter (n.outcome w)).fired :=
    congrArg Counter.fired hc
  unfold Bounced
  rw [← hrec]
  exact or_iff_left_of_imp fun h heq => h (hcmd heq)

theorem fails_of_fresh (hk : n.failThreshold = k) (hauto : n.autoRecover = true) (h : n.Fresh ws w) :
    (n.after (ws ++ [w])).fails = 0 := by
  have hc : (n.after (ws ++ [w])).fails = (feedOutcome k (n.after ws).counter (n.outcome w)).count :=
    congrArg Counter.count (after_concat hk hauto ws w).1
  rw [hc]
  rw [Fresh, bounced_iff hk hauto] at h
  rcases hout : n.outcome w with _ | b
  · rw [hout] at h
    rcases h with h | h
    · cases h
    · exact absurd rfl h
  · rw [hout, Option.some.injEq] at h
    exact Counter.feed_count h

theorem fails_since (hk : n.failThreshold = k) (hauto : n.autoRecover = true) (hn : n.fails = 0)
    (h : n.Since us vs) : (n.after (us ++ vs)).fails = n.failures vs := by
  induction vs using List.reverseRecOn with
  | nil =>
    rw [List.append_nil]
    cases us using List.reverseRecOn with
    | nil => exact hn
    | append_singleton us' u _ => exact fails_of_fresh hk hauto (h.last us' u rfl)
  | append_singleton vs v ih =>
    have ih := ih ⟨h.last, fun vs' v' hp => h.none vs' v' (hp.trans (List.prefix_append vs [v]))⟩
    have hnot := h.none vs v (List.prefix_refl _)
    rw [Fresh, bounced_iff hk hauto, not_or, not_not] at hnot
    have hc : (n.after (us ++ vs ++ [v])).fails = (feedOutcome k (n.after (us ++ vs)).counter (n.outcome v)).count :=
      congrArg Counter.count (after_concat hk hauto (us ++ vs) v).1
    rw [← List.append_assoc, hc]
    unfold failures
    rw [List.filterMap_append, List.count_append]
    rcases hout : n.outcome v with _ | b
    · rw [List.filterMap_cons_none hout]
      exact ih
    · rw [hout] at hnot
      rw [List.filterMap_cons_some hout]
      cases b with
      | true => exact absurd rfl hnot.1
      | false =>
        rw [feedOutcome, Counter.feed_count_succ hnot.2]
        exact congrArg (· + 1) ih

theorem Bounced.le_fails (hk : n.failThreshold = k) (hauto : n.autoRecover = true) (h : n.Bounced ws w) :
    n.outcome w = some false ∧ k ≤ (n.after ws).fails + 1 := by
  rw [bounced_iff hk hauto] at h
  rcases hout : n.outcome w with _ | b
  · rw [hout] at h
    exact absurd rfl h
  · rw [hout] at h
    obtain ⟨rfl, hle⟩ := Counter.feed_fired h
    exact ⟨rfl, hle⟩

/-- **Recoveries match runs of failures.**  Whatever the wake-ups find, there is one recovery for every `k` failures of
a block, the failures in the count are the rest of the current block, and every bounce comes after `k` failures since
the last bounce or success. -/
theorem recoveries_counted (hk : 1 ≤ k) (host : Option Str) (port : ℤ) (interface : Str) (wakes : List Wake) :
    Counted (new k host port interface true).start k wakes := by
  set n : NetCheck := (new k host port interface true).start
  have hthr : n.failThreshold = k := rfl
  have hauto : n.autoRecover = true := rfl
  obtain ⟨init, last, hsplit, hfold⟩ := Counter.foldl_feed hk (wakes.filterMap n.outcome)
  have hblocks : n.blocks wakes = init ++ [last] := hsplit
  have hcounter : (n.after wakes).counter = ⟨last.length % k, Counter.firings k (init ++ [last])⟩ := by
    rw [after_counter hthr hauto]
    exact hfold
  refine ⟨?_, ?_, ?_⟩
  · rw [hblocks]
    exact congrArg Counter.fired hcounter
  · rw [hblocks, List.getLast?_concat]
    exact congrArg Counter.count hcounter
  · intro us vs w _ hsince hbounced
    obtain ⟨hout, hle⟩ := hbounced.le_fails hthr hauto
    rw [fails_since hthr hauto rfl hsince] at hle
    unfold failures at hle ⊢
    rw [List.filterMap_append, List.count_append, List.filterMap_cons_some hout]
    exact hle

/-- Three failures without a route in between: the interface is bounced once. -/
theorem recoveries_counted_three : 1 ≤ 3 ∧ Counted (new (3 : ℕ) none 53 "wlan0".toList true).start 3
    [⟨some "10.0.0.1".toList, false, 30, {}⟩, ⟨none, false, 60, {}⟩, ⟨some "10.0.0.1".toList, false, 90, {}⟩,
      ⟨some "10.0.0.1".toList, false, 120, {}⟩] :=
  ⟨by decide, recoveries_counted (by decide) none 53 "wlan0".toList _⟩

end NetCheck

end AisServer.Host
