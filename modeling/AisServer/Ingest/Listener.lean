import AisServer.Ingest.Sessions
import AisServer.Lib.Decimal

/-!
# The listener

`serve_forever`, `_configure_client_socket`, `_reap` and `_count_active` of `TcpIngest`, over the session threads.  An
iteration of the loop is one step; the threads may run on while it lasts.

* `step_ingest` — the sessions see nothing of the listener but that one is started;
* `Tracks.step` — the live handlers are in `_active`, and not too many;
* `listener_contained` — when the loop keeps listening.
-/

namespace AisServer.Ingest

open AisServer.Lib

/-- What `setsockopt` does on a client socket. -/
structure SocketOptions where
  raises : Str → Bool
  /-- `getattr(socket, name, None) is not None` -/
  known : Str → Bool

/-- `_KEEPIDLE`, `_KEEPINTVL` and `_KEEPCNT` under the names of their options. -/
def keepAliveOptions : List (Str × ℕ) :=
  [("TCP_KEEPIDLE".toList, 60), ("TCP_KEEPINTVL".toList, 20), ("TCP_KEEPCNT".toList, 5)]

def noDelay : Str := "TCP_NODELAY".toList

def keepAlive : Str := "SO_KEEPALIVE".toList

/-- `_configure_client_socket`: the options that are set, `none` for an `OSError`. -/
def configureClientSocket (o : SocketOptions) : Option (List (Str × ℕ)) :=
  if o.raises noDelay then none
  else if o.raises keepAlive then none
  else some ((noDelay, 1) :: (keepAlive, 1) ::
    keepAliveOptions.filter fun option => o.known option.1 && !o.raises option.1)

/-- A client that is accepted, and what the threads do before the iteration is over. -/
structure Client where
  host : Str
  port : ℕ
  options : SocketOptions
  now : Time
  meanwhile : List IngestEvent

/-- `f"{peer[0]}:{peer[1]}"` -/
def Client.peer (c : Client) : Str := c.host ++ ':' :: decimal c.port

/-- How `accept` ends. -/
inductive Accepted
  | timeout
  | error
  | client (c : Client)

structure Listener where
  ingest : TcpIngest := {}
  maxClients : ℤ
  /-- The loop runs. -/
  listening : Bool := false
  stopped : Bool := false
  /-- `_active` -/
  active : List ℕ := []

inductive ListenerEvent
  | accept (a : Accepted)
  /-- A step of a session thread or a sweep. -/
  | session (e : IngestEvent)
  | stop

/-- A session is started by the listener only. -/
def IngestEvent.isStart : IngestEvent → Bool
  | .start .. => true
  | _ => false

/-- `handler.is_alive()` -/
def TcpIngest.isAlive (s : TcpIngest) (i : ℕ) : Bool := s.sessions[i]?.any Session.isOpen

namespace Listener

variable (s : Listener)

/-- `_reap` -/
def reap : Listener := { s with active := s.active.filter s.ingest.isAlive }

/-- `_count_active` -/
def countActive : ℕ × Listener := (s.reap.active.length, s.reap)

/-- The error leaves the loop. -/
def escape : Listener := { s with listening := false }

/-- One iteration of the loop. -/
def serve : Accepted → Option Listener
  | .timeout => some s.reap
  | .error => some s.escape
  | .client c =>
    let (count, s) := s.countActive
    if s.maxClients ≤ count then some s
    else
      match configureClientSocket c.options with
      | none => some s.escape
      | some _ =>
        (s.ingest.step (.start c.peer c.host c.now)).bind fun ingest =>
          if c.meanwhile.any IngestEvent.isStart then none
          else (run TcpIngest.step ingest c.meanwhile).map fun ingest' =>
            ({ s with ingest := ingest', active := s.active ++ [s.ingest.sessions.length] } : Listener).reap

/-- `while not self._stop.is_set()` -/
def loop : Listener := if s.stopped then s.escape else s

def step (s : Listener) : ListenerEvent → Option Listener
  | .accept a => if s.listening then (s.serve a).map loop else none
  | .session e =>
    if e.isStart then none else (s.ingest.step e).map fun ingest => { s with ingest }
  | .stop => some { s with stopped := true }

/-- The handlers whose thread is alive. -/
def live : List ℕ := (List.range s.ingest.sessions.length).filter s.ingest.isAlive

/-- The client is let in and its socket takes the options. -/
def admits (c : Client) : Bool := s.countActive.1 < s.maxClients && (configureClientSocket c.options).isSome

/-- What the sessions see of an event. -/
def seen : ListenerEvent → List IngestEvent
  | .accept (.client c) => if s.admits c then .start c.peer c.host c.now :: c.meanwhile else []
  | .session e => [e]
  | _ => []

/-- The live handlers are in `_active`, and not too many. -/
structure Tracks : Prop where
  nodup : s.active.Nodup
  covers : ∀ i, s.ingest.isAlive i = true → i ∈ s.active
  bound : s.live.length ≤ s.maxClients.toNat

/-- The loop is listening or was told to stop, with all live handlers in `_active`, and not too many. -/
structure Contained : Prop where
  up : s.listening = true ∨ s.stopped = true
  covers : ∀ i, s.ingest.isAlive i = true → i ∈ s.active
  bound : s.live.length ≤ s.maxClients.toNat

/-- The event raises no error that leaves the loop before it is told to stop. -/
def Harmless (s : Listener) : ListenerEvent → Prop
  | .accept .error => s.stopped = true
  | .accept (.client c) => s.stopped = true ∨ s.maxClients ≤ s.countActive.1 ∨
    c.options.raises noDelay = false ∧ c.options.raises keepAlive = false
  | _ => True

end Listener

instance Listener.decidableHarmless (s : Listener) : ∀ e, Decidable (s.Harmless e)
  | .accept .error => inferInstanceAs (Decidable (s.stopped = true))
  | .accept (.client _) => inferInstanceAs (Decidable (_ ∨ _ ∨ _ ∧ _))
  | .accept .timeout | .session _ | .stop => inferInstanceAs (Decidable True)

/-! ### The sessions -/

section Sessions

variable {s t : TcpIngest} {e : IngestEvent} {i : ℕ}

/-- A step of a session replaces an open one, and a sweep none. -/
theorem step_sessions (h : s.step e = some t) (he : e.isStart = false) : t.sessions = s.sessions ∨
    ∃ i x x', s.sessions[i]? = some x ∧ x.isOpen = true ∧ t.sessions = s.sessions.set i x' := by
  have hopen : ∀ {x : Session}, x.pc ≠ .closed → x.isOpen = true := fun h => decide_eq_true h
  cases e with
  | start => cases he
  | recv i data now =>
    obtain ⟨x, hx, hpc, -, rfl⟩ := TcpIngest.step_recv h
    exact Or.inr ⟨i, x, _, hx, hopen (by simp [hpc]), rfl⟩
  | hangup i =>
    obtain ⟨x, hx, hpc, rfl⟩ := TcpIngest.step_hangup h
    exact Or.inr ⟨i, x, _, hx, hopen (by simp [hpc]), rfl⟩
  | line i =>
    obtain ⟨x, hx, hpc, rfl⟩ := TcpIngest.step_line h
    exact Or.inr ⟨i, x, _, hx, hopen (by simp [hpc]), rfl⟩
  | upgrade i now =>
    obtain ⟨x, sid, sentence, hx, hpc, ⟨-, rfl⟩ | ⟨r, registry, -, rfl⟩⟩ := TcpIngest.step_upgrade h
    · exact Or.inr ⟨i, x, _, hx, hopen (by simp [hpc]), rfl⟩
    · exact Or.inr ⟨i, x, _, hx, hopen (by simp [hpc]), rfl⟩
  | judge i now =>
    obtain ⟨x, sentence, hx, hpc, rfl⟩ := TcpIngest.step_judge h
    exact Or.inr ⟨i, x, _, hx, hopen (by simp [hpc]), rfl⟩
  | finish i =>
    obtain ⟨x, hx, hpc, rfl⟩ := TcpIngest.step_finish h
    exact Or.inr ⟨i, x, _, hx, hopen (by simp [hpc]), rfl⟩
  | prune maxAge now =>
    obtain rfl := Option.some.inj h
    exact Or.inl rfl

theorem isAlive_iff : s.isAlive i = true ↔ ∃ x, s.sessions[i]? = some x ∧ x.isOpen = true := by
  rw [TcpIngest.isAlive, Option.any_eq_true]

theorem lt_of_isAlive (h : s.isAlive i = true) : i < s.sessions.length := by
  obtain ⟨x, hx, -⟩ := isAlive_iff.1 h
  exact (List.getElem?_eq_some_iff.1 hx).1

/-- The sessions that are left after the first ones ran on: no other is open. -/
structure Remain (s t : TcpIngest) : Prop where
  length : t.sessions.length = s.sessions.length
  alive : ∀ i, t.isAlive i = true → s.isAlive i = true

theorem Remain.refl (s : TcpIngest) : Remain s s := ⟨rfl, fun _ h => h⟩

theorem Remain.step (h : s.step e = some t) (he : e.isStart = false) : Remain s t := by
  rcases step_sessions h he with hsame | ⟨j, x, x', hx, hopen, hset⟩
  · refine ⟨congrArg List.length hsame, fun i hi => ?_⟩
    rwa [TcpIngest.isAlive, hsame] at hi
  · refine ⟨by rw [hset, List.length_set], fun i hi => ?_⟩
    by_cases hij : j = i
    · subst hij
      exact isAlive_iff.2 ⟨x, hx, hopen⟩
    · rwa [TcpIngest.isAlive, hset, List.getElem?_set_ne hij] at hi

theorem Remain.run {es : List IngestEvent} (h : run TcpIngest.step s es = some t)
    (hes : es.any IngestEvent.isStart = false) : Remain s t := by
  refine run_inv (I := Remain s) (C := fun _ e => e.isStart = false) (fun u e v hu he hv => ?_) (.refl s)
    (guarded_of_forall_mem fun e he _ => ?_) h
  · have hstep := Remain.step hv he
    exact ⟨hstep.length.trans hu.length, fun i hi => hu.alive i (hstep.alive i hi)⟩
  · exact Bool.eq_false_iff.2 (List.any_eq_false.1 hes e he)

theorem isAlive_start {peer host : Str} {now : Time} (h : s.step (.start peer host now) = some t) :
    t.isAlive i = true → s.isAlive i = true ∨ i = s.sessions.length := by
  obtain rfl := Option.some.inj h
  intro hi
  obtain ⟨x, hx, hopen⟩ := isAlive_iff.1 hi
  rcases TcpIngest.getElem?_concat_cases hx with hx | ⟨hi, -⟩
  · exact Or.inl (isAlive_iff.2 ⟨x, hx, hopen⟩)
  · exact Or.inr hi

end Sessions

/-! ### The loop -/

namespace Listener

variable {s t : Listener} {e : ListenerEvent} {a : Accepted} {c : Client} {i : ℕ}

theorem mem_live : i ∈ s.live ↔ s.ingest.isAlive i = true := by
  rw [live, List.mem_filter, List.mem_range]
  exact and_iff_right_of_imp lt_of_isAlive

theorem nodup_live (s : Listener) : s.live.Nodup := List.nodup_range.filter _

theorem Tracks.live_le_count (h : s.Tracks) : s.live.length ≤ s.countActive.1 := by
  refine (List.subperm_of_subset s.nodup_live fun i hi => ?_).length_le
  have halive := mem_live.1 hi
  exact List.mem_filter.2 ⟨h.covers i halive, halive⟩

theorem Tracks.reap (h : s.Tracks) : s.reap.Tracks where
  nodup := h.nodup.filter _
  covers i hi := List.mem_filter.2 ⟨h.covers i hi, hi⟩
  bound := h.bound

theorem Tracks.escape (h : s.Tracks) : s.escape.Tracks := ⟨h.nodup, h.covers, h.bound⟩

theorem Tracks.loop (h : s.Tracks) : s.loop.Tracks := by
  unfold Listener.loop
  split
  · exact h.escape
  · exact h

theorem Tracks.remain (h : s.Tracks) {ingest : TcpIngest} (hr : Remain s.ingest ingest) :
    Tracks { s with ingest } where
  nodup := h.nodup
  covers i hi := h.covers i (hr.alive i hi)
  bound := le_trans (List.subperm_of_subset (nodup_live _) fun _ hi =>
    mem_live.2 (hr.alive _ (mem_live.1 hi))).length_le h.bound

/-- An iteration that lets a client in. -/
theorem serve_client (h : s.serve (.client c) = some t) :
    (s.admits c = false ∧ (t = s.reap ∧ s.maxClients ≤ s.countActive.1 ∨
      t = s.reap.escape ∧ s.countActive.1 < s.maxClients ∧ configureClientSocket c.options = none)) ∨
    s.admits c = true ∧ ∃ ingest ingest', s.ingest.step (.start c.peer c.host c.now) = some ingest ∧
      c.meanwhile.any IngestEvent.isStart = false ∧ run TcpIngest.step ingest c.meanwhile = some ingest' ∧
      t = ({ s.reap with ingest := ingest', active := s.reap.active ++ [s.ingest.sessions.length] } : Listener).reap := by
  have hserve : s.serve (.client c) =
      if s.maxClients ≤ s.countActive.1 then some s.reap
      else
        match configureClientSocket c.options with
        | none => some s.reap.escape
        | some _ =>
          (s.ingest.step (.start c.peer c.host c.now)).bind fun ingest =>
            if c.meanwhile.any IngestEvent.isStart then none
            else (run TcpIngest.step ingest c.meanwhile).map fun ingest' =>
              ({ s.reap with ingest := ingest', active := s.reap.active ++ [s.ingest.sessions.length] } : Listener).reap :=
    rfl
  rw [hserve] at h
  unfold admits
  split at h
  · rename_i hfull
    obtain rfl := Option.some.inj h
    exact Or.inl ⟨by simp [Int.not_lt.2 hfull], Or.inl ⟨rfl, hfull⟩⟩
  · rename_i hroom
    have hlt := Int.not_le.1 hroom
    split at h
    · rename_i hnone
      obtain rfl := Option.some.inj h
      exact Or.inl ⟨by simp [hnone], Or.inr ⟨rfl, hlt, hnone⟩⟩
    · rename_i options hsome
      obtain ⟨ingest, hstart, h⟩ := Option.bind_eq_some_iff.1 h
      split at h
      · cases h
      · rename_i hmeanwhile
        obtain ⟨ingest', hrun, rfl⟩ := Option.map_eq_some_iff.1 h
        exact Or.inr ⟨by simp [hlt, hsome], ingest, ingest', hstart, Bool.eq_false_iff.2 hmeanwhile, hrun, rfl⟩

theorem Tracks.serve (hs : s.Tracks) (h : s.serve a = some t) : t.Tracks := by
  cases a with
  | timeout =>
    obtain rfl := Option.some.inj h
    exact hs.reap
  | error =>
    obtain rfl := Option.some.inj h
    exact hs.escape
  | client c =>
    rcases serve_client h with ⟨-, ⟨rfl, -⟩ | ⟨rfl, -⟩⟩ | ⟨hadmits, ingest, ingest', hstart, hmeanwhile, hrun, rfl⟩
    · exact hs.reap
    · exact hs.reap.escape
    · have hremain := Remain.run hrun hmeanwhile
      have halive : ∀ i, ingest'.isAlive i = true → s.ingest.isAlive i = true ∨ i = s.ingest.sessions.length :=
        fun i hi => isAlive_start hstart (hremain.alive i hi)
      have hnew : s.ingest.sessions.length ∉ s.reap.active := fun hmem =>
        lt_irrefl _ (lt_of_isAlive (List.mem_filter.1 hmem).2)
      refine Tracks.reap ⟨?_, fun i hi => ?_, ?_⟩
      · exact List.nodup_append.2 ⟨hs.reap.nodup, List.nodup_singleton _, fun j hj k hk hjk =>
          hnew (List.mem_singleton.1 hk ▸ hjk ▸ hj)⟩
      · rcases halive i hi with hi | rfl
        · exact List.mem_append_left _ (hs.reap.covers i hi)
        · exact List.mem_append_right _ (List.mem_singleton.2 rfl)
      · -- one more than were counted, and these were fewer than `max_clients`
        have hsub : live { s.reap with ingest := ingest', active := s.reap.active ++ [s.ingest.sessions.length] } ⊆
            s.live ++ [s.ingest.sessions.length] := by
          intro i hi
          rcases halive i (mem_live.1 hi) with hi | rfl
          · exact List.mem_append_left _ (mem_live.2 hi)
          · exact List.mem_append_right _ (List.mem_singleton.2 rfl)
        have hlen := (List.subperm_of_subset (nodup_live _) hsub).length_le
        rw [List.length_append, List.length_singleton] at hlen
        have hcount := hs.live_le_count
        have hlt : (s.countActive.1 : ℤ) < s.maxClients := by
          rw [admits, Bool.and_eq_true, decide_eq_true_eq] at hadmits
          exact hadmits.1
        show _ ≤ s.maxClients.toNat
        omega

/-- **What a step keeps**: the live handlers are in `_active`, and not too many. -/
theorem Tracks.step (hs : s.Tracks) (h : s.step e = some t) : t.Tracks := by
  cases e with
  | accept a =>
    rw [Listener.step] at h
    split at h
    · obtain ⟨u, hu, rfl⟩ := Option.map_eq_some_iff.1 h
      exact (hs.serve hu).loop
    · cases h
  | session e =>
    rw [Listener.step] at h
    split at h
    · cases h
    · rename_i he
      obtain ⟨ingest, hstep, rfl⟩ := Option.map_eq_some_iff.1 h
      exact hs.remain (Remain.step hstep (Bool.eq_false_iff.2 he))
  | stop =>
    obtain rfl := Option.some.inj h
    exact ⟨hs.nodup, hs.covers, hs.bound⟩

/-- **The sessions are unaffected**: a step of the listener does to them what a new session and their own steps do. -/
theorem step_ingest (h : s.step e = some t) : run TcpIngest.step s.ingest (s.seen e) = some t.ingest := by
  have hloop : ∀ u : Listener, u.loop.ingest = u.ingest := by
    intro u
    unfold Listener.loop
    split <;> rfl
  cases e with
  | accept a =>
    rw [Listener.step] at h
    split at h
    · obtain ⟨u, hu, rfl⟩ := Option.map_eq_some_iff.1 h
      rw [hloop]
      cases a with
      | timeout =>
        obtain rfl := Option.some.inj hu
        rfl
      | error =>
        obtain rfl := Option.some.inj hu
        rfl
      | client c =>
        rcases serve_client hu with ⟨hadmits, ⟨rfl, -⟩ | ⟨rfl, -⟩⟩ | ⟨hadmits, ingest, ingest', hstart, -, hrun, rfl⟩
        · rw [seen, hadmits]
          rfl
        · rw [seen, hadmits]
          rfl
        · rw [seen, if_pos hadmits, run_cons, hstart, Option.bind_some, hrun]
          rfl
    · cases h
  | session e =>
    rw [Listener.step] at h
    split at h
    · cases h
    · obtain ⟨ingest, hstep, rfl⟩ := Option.map_eq_some_iff.1 h
      rw [seen, run_cons, hstep]
      rfl
  | stop =>
    obtain rfl := Option.some.inj h
    rfl

theorem configureClientSocket_isSome {o : SocketOptions} :
    configureClientSocket o ≠ none ↔ o.raises noDelay = false ∧ o.raises keepAlive = false := by
  unfold configureClientSocket
  split
  · rename_i h
    simp [h]
  · rename_i h
    split
    · rename_i h'
      simp [h']
    · rename_i h'
      simp [h, h']

/-- Whether the loop goes on after an iteration. -/
theorem serve_listening (h : s.serve a = some t) (hl : s.listening = true) :
    t.stopped = s.stopped ∧ (s.stopped = true ∨ t.listening = true ↔ s.Harmless (.accept a)) := by
  cases a with
  | timeout =>
    obtain rfl := Option.some.inj h
    exact ⟨rfl, by simp [Harmless, Listener.reap, hl]⟩
  | error =>
    obtain rfl := Option.some.inj h
    exact ⟨rfl, by simp [Harmless, Listener.escape]⟩
  | client c =>
    rw [Harmless, ← configureClientSocket_isSome]
    rcases serve_client h with ⟨-, ⟨rfl, hfull⟩ | ⟨rfl, hroom, hnone⟩⟩ | ⟨hadmits, ingest, ingest', -, -, -, rfl⟩
    · exact ⟨rfl, by simp [Listener.reap, hl, hfull]⟩
    · exact ⟨rfl, by simp [Listener.escape, Listener.reap, Int.not_le.2 hroom, hnone]⟩
    · rw [admits, Bool.and_eq_true, Option.isSome_iff_ne_none] at hadmits
      exact ⟨rfl, by simp [Listener.reap, hl, hadmits.2]⟩

/-- The loop is up after a step exactly when it is harmless. -/
theorem step_up (hup : s.listening = true ∨ s.stopped = true) (h : s.step e = some t) :
    (t.listening = true ∨ t.stopped = true) ↔ s.Harmless e := by
  cases e with
  | accept a =>
    rw [Listener.step] at h
    split at h
    · rename_i hl
      obtain ⟨u, hu, rfl⟩ := Option.map_eq_some_iff.1 h
      obtain ⟨hstopped, hlistening⟩ := serve_listening hu hl
      rw [← hlistening, ← hstopped]
      unfold Listener.loop
      split
      · rename_i hstop
        simp [Listener.escape, hstop]
      · exact or_comm
    · cases h
  | session e =>
    rw [Listener.step] at h
    split at h
    · cases h
    · obtain ⟨ingest, -, rfl⟩ := Option.map_eq_some_iff.1 h
      exact iff_of_true hup trivial
  | stop =>
    obtain rfl := Option.some.inj h
    exact iff_of_true (Or.inr rfl) trivial

/-- The loop at its start: the handlers of an earlier one may still be there. -/
structure Serving (s : Listener) : Prop where
  listening : s.listening = true
  tracks : s.Tracks

/-- **One client and the listener.**  The loop keeps listening until it is told to stop, with the live handlers in
`_active` and not too many, exactly when before that `accept` raises nothing but time-outs and the first two options of
a client that is let in can be set.  In any case the handlers are tracked, and no step touches another session. -/
theorem listener_contained (s u : Listener) (es : List ListenerEvent) (hs : s.Serving)
    (hr : run step s es = some u) :
    (Guarded step Harmless s es ↔ ∀ fs, fs <+: es → ∀ t, run step s fs = some t → t.Contained) ∧
      (∀ fs, fs <+: es → ∀ t, run step s fs = some t → t.Tracks) ∧
      ∀ t e t', step t e = some t' → run TcpIngest.step t.ingest (t.seen e) = some t'.ingest := by
  refine ⟨?_, fun fs _ t ht => ?_, fun t e t' h => step_ingest h⟩
  · refine guarded_iff (I := fun s => s.Tracks ∧ (s.listening = true ∨ s.stopped = true))
      (fun s e t hs hc h => ⟨hs.1.step h, (step_up hs.2 h).2 hc⟩) (fun s hs => ⟨hs.2, hs.1.covers, hs.1.bound⟩)
      (fun s e t hs hc h hP => hc ((step_up hs.2 h).1 hP.up)) ⟨hs.tracks, Or.inl hs.listening⟩ hr
  · exact run_inv_of_step (fun _ _ _ hs h => hs.step h) hs.tracks ht

/-- A listener for one client. -/
def single : Listener := { maxClients := 1, listening := true }

theorem serving_single : single.Serving where
  listening := rfl
  tracks := ⟨List.nodup_nil, by simp [isAlive_iff, single], Nat.zero_le _⟩

/-- A client from this port, on whose socket these options cannot be set. -/
def clientFrom (port : ℕ) (raising : List Str) : Client where
  host := "10.0.0.7".toList
  port
  options := ⟨raising.contains, fun _ => true⟩
  now := 1700000000
  meanwhile := []

/-- A second client while the first is there, and a third when it has gone. -/
def callers : List ListenerEvent := [
  .accept (.client (clientFrom 40001 [])), .accept (.client (clientFrom 40002 [])), .accept .timeout,
  .session (.hangup 0), .session (.finish 0), .accept (.client (clientFrom 40003 ["TCP_KEEPIDLE".toList])), .stop,
  .accept .error]

theorem listener_contained_callers : ∃ u, run step single callers = some u ∧ u.Contained := by
  obtain ⟨u, hu⟩ : ∃ u, run step single callers = some u := ⟨_, rfl⟩
  have hguard : Guarded step Harmless single callers := by decide +kernel
  exact ⟨u, hu, (listener_contained single u callers serving_single hu).1.1 hguard callers List.prefix_rfl u hu⟩

/-- An error of `accept`, or a client whose socket does not take `SO_KEEPALIVE`, ends the loop. -/
theorem listener_fails :
    (∃ t, run step single [.accept .error] = some t ∧ ¬ t.Contained) ∧
      ∃ t, run step single [.accept (.client (clientFrom 40001 [keepAlive]))] = some t ∧ ¬ t.Contained :=
  ⟨⟨_, rfl, fun h => absurd h.up (by decide)⟩, ⟨_, rfl, fun h => absurd h.up (by decide)⟩⟩

end Listener

end AisServer.Ingest
