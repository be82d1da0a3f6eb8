import AisServer.Forward.Worker
import AisServer.Lib.Dict
import AisServer.Lib.Run
import AisServer.Lib.Table

/-!
# The forwarder manager

`ForwarderManager.sync` holds the lock from its first step to its last and never looks whether a thread is
alive, so its two loops are one step here, and a thread that dies while they run could have died before.
The return of `sync` is a step of its own, for the threads that die behind it.

* `sync_get` — the registry after a `sync` that was not aborted;
* `forwarders_working` — when every enabled endpoint has a working forwarder at the return of `sync`.
-/

namespace AisServer.Forward

open AisServer.Lib AisServer.Store

/-- `==` on the values of a column: numbers are compared by their value. -/
def pyEq : Value → Value → Bool
  | .int n, .real q => (n : ℚ) = q
  | .real q, .int n => q = (n : ℚ)
  | a, b => a = b

/-- A worker and its thread. -/
structure Thread where
  worker : Worker
  alive : Bool := true
  deriving DecidableEq

/-- Neither terminated nor flagged to stop. -/
def Thread.working (t : Thread) : Bool := t.alive && !t.worker.stopped

def Thread.stop (t : Thread) : Thread := { t with worker := t.worker.stop }

structure ForwarderManager where
  queueSize : ℕ
  /-- The dictionary `_workers`. -/
  workers : Table ℕ Thread := .empty

/-- `{ep.id: ep for ep in endpoints if ep.enabled}` -/
def wanted (endpoints : List Endpoint) : Dict ℕ Endpoint :=
  Dict.ofItems ((endpoints.filter (·.enabled)).map fun ep => (ep.id, ep))

/-- `_endpoint_match` -/
def endpointMatch (a b : Endpoint) : Bool :=
  pyEq a.protocol b.protocol && pyEq a.host b.host && pyEq a.port b.port && pyEq a.path b.path &&
    pyEq a.name b.name && a.enabled == b.enabled && a.broadcast == b.broadcast

/-- The worker under `eid` is removed, disabled or changed. -/
def stale (wanted : Dict ℕ Endpoint) (eid : ℕ) (t : Thread) : Bool :=
  match wanted.getItem eid with
  | none => true
  | some ep => !endpointMatch ep t.worker.ep

namespace ForwarderManager

/-- The loop that stops workers; `raises` are the keys whose `join` raises.  The flag says whether the loop
came to its end. -/
def stopLoop (wanted : Dict ℕ Endpoint) (raises : List ℕ) (d : Table ℕ Thread) :
    List ℕ → Table ℕ Thread × Bool
  | [] => (d, true)
  | eid :: existing =>
    match d.get eid with
    | none => (d, false)
    | some t =>
      if stale wanted eid t then
        let d := d.update eid Thread.stop
        if eid ∈ raises then (d, false) else stopLoop wanted raises (d.erase eid) existing
      else stopLoop wanted raises d existing

/-- A worker that was just started. -/
def newThread (queueSize : ℕ) (ep : Endpoint) : Thread := { worker := { ep, maxsize := queueSize } }

/-- The loop that starts workers. -/
def startLoop (queueSize : ℕ) (d : Table ℕ Thread) : Dict ℕ Endpoint → Table ℕ Thread
  | [] => d
  | (eid, ep) :: wanted =>
    startLoop queueSize (if (d.get eid).isNone then d.add eid (newThread queueSize ep) else d) wanted

/-- `sync` with the keys of the registry in the order in which the set yields them; `false` when it was
aborted. -/
def sync (m : ForwarderManager) (endpoints : List Endpoint) (existing raises : List ℕ) :
    ForwarderManager × Bool :=
  match stopLoop (wanted endpoints) raises m.workers existing with
  | (d, false) => ({ m with workers := d }, false)
  | (d, true) => ({ m with workers := startLoop m.queueSize d (wanted endpoints) }, true)

/-- The worker under `eid`, when `sync` leaves it as it is. -/
def unchanged (m : ForwarderManager) (endpoints : List Endpoint) (eid : ℕ) : Option Thread :=
  (m.workers.get eid).filter fun t => !stale (wanted endpoints) eid t

/-- Some worker has to be stopped and its `join` raises. -/
def Aborts (m : ForwarderManager) (endpoints : List Endpoint) (raises : List ℕ) : Prop :=
  ∃ eid ∈ raises, ∃ t ∈ m.workers.get eid, stale (wanted endpoints) eid t = true

instance (m : ForwarderManager) (endpoints : List Endpoint) (raises : List ℕ) :
    Decidable (m.Aborts endpoints raises) :=
  inferInstanceAs (Decidable (∃ eid ∈ raises, ∃ t ∈ m.workers.get eid, _ = true))

/-- Every enabled endpoint of the list has a registered worker that works. -/
def Working (m : ForwarderManager) (endpoints : List Endpoint) : Prop :=
  ∀ ep ∈ endpoints, ep.enabled = true →
    ∃ t, m.workers.get ep.id = some t ∧ t.alive = true ∧ t.worker.stopped = false

end ForwarderManager

/-! ### The wanted endpoints -/

variable {endpoints : List Endpoint} {ep : Endpoint} {eid : ℕ}

theorem wanted_of_enabled (hep : ep ∈ endpoints) (he : ep.enabled = true) :
    ∃ ep', (wanted endpoints).getItem ep.id = some ep' := by
  refine Option.ne_none_iff_exists'.1 ?_
  unfold wanted
  rw [Dict.getItem_ofItems]
  refine Dict.getItem_ne_none (a := ep) (List.mem_reverse.2 (List.mem_map.2 ⟨ep, ?_, rfl⟩))
  exact List.mem_filter.2 ⟨hep, he⟩

/-! ### What `sync` does to the registry -/

namespace ForwarderManager

variable {m : ForwarderManager} {d : Table ℕ Thread} {existing raises : List ℕ} {w : Dict ℕ Endpoint}
  {queueSize : ℕ}

/-- One turn of the loop that stops workers, for a key that is registered. -/
theorem stopLoop_cons {k : ℕ} (hreg : ∀ e ∈ k :: existing, d.get e ≠ none) (hnd : (k :: existing).Nodup) :
    ∃ t, d.get k = some t ∧ k ∉ existing ∧ existing.Nodup ∧ (∀ e ∈ existing, e ≠ k) ∧
      stopLoop w raises d (k :: existing) =
        if stale w k t then
          if k ∈ raises then (d.update k Thread.stop, false)
          else stopLoop w raises ((d.update k Thread.stop).erase k) existing
        else stopLoop w raises d existing := by
  obtain ⟨t, ht⟩ := Option.ne_none_iff_exists'.1 (hreg k (List.mem_cons_self ..))
  obtain ⟨hk, hnd⟩ := List.nodup_cons.1 hnd
  refine ⟨t, ht, hk, hnd, ?_, ?_⟩
  · rintro e he rfl
    exact hk he
  · rw [stopLoop, ht]

theorem stopLoop_snd (hreg : ∀ e ∈ existing, d.get e ≠ none) (hnd : existing.Nodup) :
    (stopLoop w raises d existing).2 = true ↔
      ∀ e ∈ existing, e ∈ raises → ∀ t ∈ d.get e, stale w e t = false := by
  induction existing generalizing d with
  | nil => simp [stopLoop]
  | cons k existing ih =>
    obtain ⟨t, ht, -, hnd, hne, hturn⟩ := stopLoop_cons hreg hnd
    rw [hturn]
    by_cases hs : stale w k t = true
    · rw [if_pos hs]
      by_cases hr : k ∈ raises
      · rw [if_pos hr]
        simp [hr, ht, hs]
      · have hget : ∀ e ∈ existing, ((d.update k Thread.stop).erase k).get e = d.get e := by
          intro e he
          rw [Table.get_erase, if_neg (hne e he), Table.get_update, if_neg (hne e he)]
        rw [if_neg hr, ih (fun e he => (hget e he).symm ▸ hreg e (List.mem_cons_of_mem _ he)) hnd]
        simp only [List.forall_mem_cons, hr, false_imp_iff, true_and]
        exact forall₂_congr fun e he => by rw [hget e he]
    · rw [if_neg hs, ih (fun e he => hreg e (List.mem_cons_of_mem _ he)) hnd]
      simp [ht, hs]

theorem stopLoop_get (hnd : existing.Nodup) (h : (stopLoop w raises d existing).2 = true) :
    (stopLoop w raises d existing).1.get eid =
      if eid ∈ existing then (d.get eid).filter fun t => !stale w eid t else d.get eid := by
  induction existing generalizing d with
  | nil => rfl
  | cons k existing ih =>
    obtain ⟨hk, hnd⟩ := List.nodup_cons.1 hnd
    rw [stopLoop] at h ⊢
    rcases ht : d.get k with _ | t
    · rw [ht] at h
      cases h
    · rw [ht] at h
      dsimp only at h ⊢
      by_cases hs : stale w k t = true
      · rw [if_pos hs] at h ⊢
        by_cases hr : k ∈ raises
        · rw [if_pos hr] at h
          cases h
        · rw [if_neg hr] at h ⊢
          rw [ih hnd h, Table.get_erase]
          by_cases he : eid = k
          · subst he
            simp [hk, ht, hs, Option.filter_some]
          · rw [if_neg he, Table.get_update, if_neg he]
            simp [he]
      · rw [if_neg hs] at h ⊢
        rw [ih hnd h]
        by_cases he : eid = k
        · subst he
          simp [hk, ht, hs, Option.filter_some]
        · simp [he]

theorem startLoop_get : (startLoop queueSize d w).get eid =
    (d.get eid).or ((w.getItem eid).map (newThread queueSize)) := by
  induction w generalizing d with
  | nil => simp [startLoop, Dict.getItem]
  | cons i w ih =>
    obtain ⟨k, ep⟩ := i
    rw [startLoop, ih, Dict.getItem]
    by_cases hk : k = eid
    · subst hk
      rcases hd : d.get k with _ | t <;> simp [Table.get_add, hd]
    · rcases hd : d.get k with _ | t <;> simp [Table.get_add, hk, Ne.symm hk]

theorem registered_of_perm (hp : existing.Perm m.workers.refs.keys) (eid : ℕ) :
    eid ∈ existing ↔ m.workers.get eid ≠ none := by
  rw [hp.mem_iff, Ne, Table.get_eq_none, AList.lookup_eq_none, not_not]
  rfl

theorem sync_snd (hp : existing.Perm m.workers.refs.keys) :
    (m.sync endpoints existing raises).2 = true ↔ ¬ m.Aborts endpoints raises := by
  have hnd : existing.Nodup := hp.nodup_iff.2 m.workers.refs.keys_nodup
  have hsync : (m.sync endpoints existing raises).2 =
      (stopLoop (wanted endpoints) raises m.workers existing).2 := by
    unfold sync
    rcases stopLoop (wanted endpoints) raises m.workers existing with ⟨d, _ | _⟩ <;> rfl
  rw [hsync, stopLoop_snd (fun e he => (registered_of_perm hp e).1 he) hnd]
  unfold Aborts
  push Not
  constructor
  · intro h e he t ht
    have hreg : e ∈ existing := (registered_of_perm hp e).2 (by simp [Option.mem_def.1 ht])
    simp [h e hreg he t ht]
  · intro h e _ he t ht
    simpa using h e he t ht

/-- **The registry after `sync`.**  A wanted endpoint keeps a worker that has its configuration, whatever
the state of the thread, and gets a new one otherwise; nothing else is registered. -/
theorem sync_get (hp : existing.Perm m.workers.refs.keys) (h : ¬ m.Aborts endpoints raises) :
    (m.sync endpoints existing raises).1.workers.get eid = (m.unchanged endpoints eid).or
      (((wanted endpoints).getItem eid).map (newThread m.queueSize)) := by
  have hnd : existing.Nodup := hp.nodup_iff.2 m.workers.refs.keys_nodup
  have hdone := (sync_snd hp).2 h
  have hget := @stopLoop_get eid m.workers existing raises (wanted endpoints) hnd
  unfold sync at hdone ⊢
  rcases hl : stopLoop (wanted endpoints) raises m.workers existing with ⟨d, _ | _⟩
  · rw [hl] at hdone
    cases hdone
  · rw [hl] at hget
    simp only [startLoop_get, hget]
    congr 1
    unfold unchanged
    by_cases he : eid ∈ existing
    · rw [if_pos he]
    · rw [if_neg he, not_not.1 (mt (registered_of_perm hp eid).2 he)]
      rfl

end ForwarderManager

/-! ### Runs -/

/-- Where the thread of the sync loop stands. -/
inductive SyncPc
  | idle
  /-- The loops of `sync` are done. -/
  | returning (endpoints : List Endpoint)
  /-- `sync` has just returned. -/
  | returned (endpoints : List Endpoint)
  deriving DecidableEq

structure Forwarders where
  manager : ForwarderManager
  pc : SyncPc := .idle

inductive ForwardersEvent
  /-- `sync` on the rows that the table has then, up to its return or to a `join` that raises. -/
  | sync (endpoints : List Endpoint) (existing raises : List ℕ)
  | ret
  /-- A thread terminates. -/
  | die (r : Ref)

namespace Forwarders

/-- No worker is registered. -/
def start (queueSize : ℕ) : Forwarders := { manager := { queueSize } }

def step (s : Forwarders) : ForwardersEvent → Option Forwarders
  | .sync endpoints existing raises =>
    match s.pc with
    | .returning _ => none
    | _ =>
      if existing.Perm s.manager.workers.refs.keys then
        match s.manager.sync endpoints existing raises with
        | (m, true) => some ⟨m, .returning endpoints⟩
        | (m, false) => some ⟨m, .idle⟩
      else none
  | .ret =>
    match s.pc with
    | .returning endpoints => some { s with pc := .returned endpoints }
    | _ => none
  | .die r =>
    if s.manager.workers.objs[r]?.any (·.alive) then
      some {
        manager := { s.manager with
          workers := s.manager.workers.modify r fun t => { t with alive := false } }
        pc := match s.pc with
          | .returned _ => .idle
          | pc => pc }
    else none

/-- At the return of `sync` every enabled endpoint has a working forwarder. -/
def Served (s : Forwarders) : Prop :=
  ∀ endpoints, s.pc = .returned endpoints → s.manager.Working endpoints

/-- A `sync` that is not aborted finds every worker that it leaves as it is working, and no worker of an
enabled endpoint dies before it returns. -/
def Sound (s : Forwarders) : ForwardersEvent → Prop
  | .sync endpoints _ raises => ¬ s.manager.Aborts endpoints raises → ∀ ep ∈ endpoints,
      ep.enabled = true → ∀ t ∈ s.manager.unchanged endpoints ep.id, t.working = true
  | .ret => True
  | .die r => ∀ endpoints, s.pc = .returning endpoints → ∀ ep ∈ endpoints, ep.enabled = true →
      s.manager.workers.refs.lookup ep.id ≠ some r

instance (s : Forwarders) : (e : ForwardersEvent) → Decidable (Sound s e)
  | .sync endpoints _ raises => inferInstanceAs (Decidable (¬ s.manager.Aborts endpoints raises → _))
  | .ret => isTrue trivial
  | .die r =>
    match h : s.pc with
    | .returning endpoints => decidable_of_iff (∀ ep ∈ endpoints, ep.enabled = true →
        s.manager.workers.refs.lookup ep.id ≠ some r) (by simp [Sound, h])
    | .idle => isTrue (by simp [Sound, h])
    | .returned _ => isTrue (by simp [Sound, h])

variable {s t : Forwarders} {existing raises : List ℕ} {r : Ref}

theorem step_sync (h : s.step (.sync endpoints existing raises) = some t) :
    (∀ l, s.pc ≠ .returning l) ∧ existing.Perm s.manager.workers.refs.keys ∧
      t.manager = (s.manager.sync endpoints existing raises).1 ∧
      (s.manager.Aborts endpoints raises ∧ t.pc = .idle ∨
        ¬ s.manager.Aborts endpoints raises ∧ t.pc = .returning endpoints) := by
  rw [step] at h
  split at h
  · cases h
  · rename_i hpc
    by_cases hp : existing.Perm s.manager.workers.refs.keys
    · rw [if_pos hp] at h
      have hsnd := @ForwarderManager.sync_snd endpoints s.manager existing raises hp
      refine ⟨fun l hl => hpc l hl, hp, ?_⟩
      rcases hm : s.manager.sync endpoints existing raises with ⟨m, _ | _⟩
      · rw [hm] at h hsnd
        obtain rfl := Option.some.inj h
        exact ⟨rfl, Or.inl ⟨by simpa using hsnd, rfl⟩⟩
      · rw [hm] at h hsnd
        obtain rfl := Option.some.inj h
        exact ⟨rfl, Or.inr ⟨by simpa using hsnd, rfl⟩⟩
    · rw [if_neg hp] at h
      cases h

theorem step_ret (h : s.step .ret = some t) :
    ∃ endpoints, s.pc = .returning endpoints ∧ t = { s with pc := .returned endpoints } := by
  rw [step] at h
  split at h
  · rename_i endpoints hpc
    exact ⟨endpoints, hpc, (Option.some.inj h).symm⟩
  · cases h

theorem step_die (h : s.step (.die r) = some t) :
    t.manager = { s.manager with
      workers := s.manager.workers.modify r fun t => { t with alive := false } } ∧
    ((∃ endpoints, s.pc = .returned endpoints) ∧ t.pc = .idle ∨
      (∀ endpoints, s.pc ≠ .returned endpoints) ∧ t.pc = s.pc) := by
  rw [step] at h
  split at h
  · obtain rfl := Option.some.inj h
    refine ⟨rfl, ?_⟩
    rcases s.pc with _ | endpoints | endpoints <;> simp
  · cases h

/-- The enabled endpoints of the `sync` that returns, or has just returned, are served. -/
def Inv (s : Forwarders) : Prop :=
  ∀ endpoints, s.pc = .returning endpoints ∨ s.pc = .returned endpoints → s.manager.Working endpoints

/-- After a `sync` that was not aborted the enabled endpoints are served if and only if the workers that it
left as they were are working. -/
theorem working_sync_iff {m : ForwarderManager} (hp : existing.Perm m.workers.refs.keys)
    (ha : ¬ m.Aborts endpoints raises) :
    (m.sync endpoints existing raises).1.Working endpoints ↔ ∀ ep ∈ endpoints,
      ep.enabled = true → ∀ t ∈ m.unchanged endpoints ep.id, t.working = true := by
  unfold ForwarderManager.Working
  refine forall₃_congr fun ep hep he => ?_
  obtain ⟨w, hw⟩ := wanted_of_enabled hep he
  rw [ForwarderManager.sync_get hp ha, hw]
  rcases hu : m.unchanged endpoints ep.id with _ | t
  · simp [ForwarderManager.newThread]
  · simp [Thread.working]

theorem Inv.step {e : ForwardersEvent} (hs : Inv s) (hc : Sound s e) (h : s.step e = some t) :
    Inv t := by
  cases e with
  | sync endpoints existing raises =>
    obtain ⟨-, hp, hm, ⟨-, hpc⟩ | ⟨ha, hpc⟩⟩ := step_sync h
    · intro l hl
      rw [hpc] at hl
      rcases hl with hl | hl <;> cases hl
    · intro l hl
      rw [hpc] at hl
      obtain rfl : endpoints = l := by simpa using hl
      rw [hm]
      exact (working_sync_iff hp ha).2 (hc ha)
  | ret =>
    obtain ⟨endpoints, hpc, rfl⟩ := step_ret h
    intro l hl
    obtain rfl : endpoints = l := by simpa using hl
    exact hs endpoints (Or.inl hpc)
  | die r =>
    obtain ⟨hm, ⟨-, hpc⟩ | ⟨hnot, hpc⟩⟩ := step_die h
    · intro l hl
      rw [hpc] at hl
      rcases hl with hl | hl <;> cases hl
    · intro l hl ep hep he
      rw [hpc] at hl
      obtain ⟨u, hu, hwork⟩ := hs l hl ep hep he
      have hr : s.manager.workers.refs.lookup ep.id ≠ some r := by
        rcases hl with hl | hl
        · exact hc l hl ep hep he
        · exact absurd hl (hnot l)
      refine ⟨u, ?_, hwork⟩
      rw [hm]
      exact (Table.get_modify.trans (if_neg hr)).trans hu

/-- Outside the condition the next return leaves an enabled endpoint without a working forwarder. -/
theorem not_served_of_not_sound {e : ForwardersEvent} (hc : ¬ Sound s e) (h : s.step e = some t) :
    ∃ u, t.step .ret = some u ∧ ¬ Served u := by
  cases e with
  | sync endpoints existing raises =>
    obtain ⟨ha, hnot⟩ := Classical.not_imp.1 hc
    obtain ⟨-, hp, hm, ⟨ha', -⟩ | ⟨-, hpc⟩⟩ := step_sync h
    · exact absurd ha' ha
    · refine ⟨{ t with pc := .returned endpoints }, by rw [step, hpc], fun hserved => ?_⟩
      have hwork := hserved endpoints rfl
      rw [hm] at hwork
      exact hnot ((working_sync_iff hp ha).1 hwork)
  | ret => exact absurd trivial hc
  | die r =>
    unfold Sound at hc
    push Not at hc
    obtain ⟨endpoints, hpc, ep, hep, he, hr⟩ := hc
    obtain ⟨hm, ⟨⟨l, hl⟩, -⟩ | ⟨-, hpc'⟩⟩ := step_die h
    · rw [hpc] at hl
      cases hl
    · refine ⟨{ t with pc := .returned endpoints }, by rw [step, hpc', hpc], fun hserved => ?_⟩
      obtain ⟨u, hu, halive, -⟩ := hserved endpoints rfl ep hep he
      rw [hm] at hu
      have hget := (Table.get_modify.trans (if_pos hr)).symm.trans hu
      obtain ⟨v, -, rfl⟩ := Option.map_eq_some_iff.1 hget
      cases halive

end Forwarders

/-- **Every enabled endpoint has a working forwarder** at each return of `sync`, however a run goes on
after each of its events with the return of the `sync` that is under way, exactly when every `sync` of the
run that is not aborted finds the workers that it keeps working, and none of an enabled endpoint dies
between its loops and its return. -/
theorem forwarders_working {queueSize : ℕ} {es : List ForwardersEvent} {s : Forwarders}
    (h : run Forwarders.step (.start queueSize) es = some s) :
    Guarded Forwarders.step Forwarders.Sound (.start queueSize) es ↔
      Throughout Forwarders.step (fun _ _ => True) (· = .ret) Forwarders.Served (.start queueSize) es := by
  refine guarded_iff_throughout (I := Forwarders.Inv) (fun s e t hs _ hc hst => hs.step hc hst)
    (fun s hs l hl => hs l (Or.inr hl)) ?_ ?_ ?_ h (guarded_true _ _)
  · rintro s e rfl
    trivial
  · intro s e t _ hst hc
    obtain ⟨u, hu, hbad⟩ := Forwarders.not_served_of_not_sound hc hst
    exact ⟨[.ret], u, by simp, guarded_true _ _, by simp [hu], hbad⟩
  · rintro l (hl | hl) <;> cases hl

/-- A UDP endpoint; `sendto` raises an `OverflowError` for a port above 65535. -/
def plotter (port : ℤ) : Endpoint where
  id := 1
  name := .text "plotter".toList
  protocol := .text "udp".toList
  host := .text "192.168.1.20".toList
  port := .int port
  path := .null
  enabled := true
  createdAt := 0
  updatedAt := 0

/-- A `sync` that returns. -/
def synced (endpoints : List Endpoint) (existing : List ℕ) : List ForwardersEvent :=
  [.sync endpoints existing [], .ret]

/-- The port is put right before the next `sync`, and the old worker dies afterwards. -/
theorem forwarders_working_edited :
    ∃ s, run Forwarders.step (.start 100) (synced [plotter 70000] [] ++ synced [plotter 7000] [1] ++
      [.die 0]) = some s ∧
      Throughout Forwarders.step (fun _ _ => True) (· = .ret) Forwarders.Served (.start 100)
        (synced [plotter 70000] [] ++ synced [plotter 7000] [1] ++ [.die 0]) := by
  have hrun : (run Forwarders.step (.start 100) (synced [plotter 70000] [] ++
      synced [plotter 7000] [1] ++ [.die 0])).isSome = true := by decide +kernel
  obtain ⟨s, hs⟩ := Option.isSome_iff_exists.1 hrun
  exact ⟨s, hs, (forwarders_working hs).1 (by decide +kernel)⟩

/-- The thread dies at its first sentence; the next `sync` finds the configuration unchanged, keeps the
dead worker and returns. -/
theorem forwarders_working_fails :
    ∃ s, run Forwarders.step (.start 100) (synced [plotter 70000] [] ++ .die 0 ::
      synced [plotter 70000] [1]) = some s ∧ ¬ Forwarders.Served s := by
  have hrun : (run Forwarders.step (.start 100) (synced [plotter 70000] [] ++ .die 0 ::
      synced [plotter 70000] [1])).map (fun s => (s.pc, (s.manager.workers.get 1).map (·.alive))) =
      some (.returned [plotter 70000], some false) := by decide +kernel
  obtain ⟨s, hs, hfacts⟩ := Option.map_eq_some_iff.1 hrun
  obtain ⟨hpc, hget⟩ := Prod.mk.inj hfacts
  refine ⟨s, hs, fun hserved => ?_⟩
  obtain ⟨t, ht, halive, -⟩ := hserved _ hpc (plotter 70000) (by simp) rfl
  rw [show (plotter 70000).id = 1 from rfl] at ht
  rw [ht, Option.map_some, halive] at hget
  cases hget

end AisServer.Forward
