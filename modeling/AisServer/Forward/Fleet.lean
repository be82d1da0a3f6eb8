import AisServer.Forward.Delivery
import AisServer.Forward.Replaced

/-!
# What a step of the fleet can do

A step of `Fleet` is taken apart from two sides: what it does to the registry, and what it does to one worker.  The
steps of `put` are told from the others, since only the output loop takes them.

* `Loop.put_possible`, `Loop.resume_possible` — a `put` finds its worker ready, whatever the loop does, and is over
  after at most two more operations of the queue;
* `Fleet.step_transition` — the six things that a step can be;
* `Fleet.step_registry` — a step leaves the registry alone, takes one worker out, or starts one;
* `Fleet.step_worker` — a step leaves a worker alone, is a step of its loop, or starts it.
-/

namespace AisServer.Forward

open AisServer.Lib AisServer.Store

/-! ### The producer of a worker -/

/-- A step of `put`. -/
def FeedEvent.feeds : FeedEvent → Bool
  | .put _ | .evict | .retry => true
  | .stop | .wake => false

/-- A step of `put`, which only the output loop takes. -/
def LoopEvent.feeds : LoopEvent → Bool
  | .tcp (.put _) | .tcp .evict | .tcp .retry => true
  | .udp (.feed e) | .http (.feed e) => e.feeds
  | _ => false

namespace Loop

variable {l m : Loop} {e : LoopEvent}

/-- Where the output loop stands in `put`. -/
def producer : Loop → PutPc
  | .tcp s => s.producer
  | .udp s => s.producer
  | .http s => s.producer

/-- The call of `put`. -/
def putEvent (l : Loop) (sentence : Str) : LoopEvent :=
  match l with
  | .tcp _ => .tcp (.put sentence)
  | .udp _ => .udp (.feed (.put sentence))
  | .http _ => .http (.feed (.put sentence))

/-- The next step of the `put` that is under way. -/
def resumeEvent (l : Loop) : Option LoopEvent :=
  match l.producer, l with
  | .idle, _ => none
  | .evict _, .tcp _ => some (.tcp .evict)
  | .evict _, .udp _ => some (.udp (.feed .evict))
  | .evict _, .http _ => some (.http (.feed .evict))
  | .retry _, .tcp _ => some (.tcp .retry)
  | .retry _, .udp _ => some (.udp (.feed .retry))
  | .retry _, .http _ => some (.http (.feed .retry))

theorem step_quiet (h : l.step e = some m) (he : e.feeds = false) : m.producer = l.producer ∧ e.given = [] := by
  have hfeed : ∀ {f g : Feed} {e : FeedEvent}, f.step e = some g → e.feeds = false →
      g.producer = f.producer ∧ e.given = [] := by
    intro f g e h he
    cases e with
    | put sentence => cases he
    | evict => cases he
    | retry => cases he
    | stop => exact ⟨by rw [← Option.some.inj h], rfl⟩
    | wake => exact ⟨by rw [(Feed.step_wake h).2], rfl⟩
  cases l with
  | tcp s => cases e with
    | tcp e =>
      obtain ⟨t, ht, rfl⟩ := Option.map_eq_some_iff.1 h
      cases e with
      | put sentence => cases he
      | evict => cases he
      | retry => cases he
      | stop => exact ⟨(hfeed (TcpForwarder.step_feed rfl ht).1 rfl).1, rfl⟩
      | wake => exact ⟨(hfeed (TcpForwarder.step_feed rfl ht).1 rfl).1, rfl⟩
      | check => obtain ⟨-, ⟨-, rfl⟩ | ⟨-, rfl⟩⟩ := TcpForwarder.step_check ht <;> exact ⟨rfl, rfl⟩
      | connect result =>
        obtain ⟨-, rfl⟩ := TcpForwarder.step_connect ht
        obtain ⟨worker, backoff, pc, hs, -, -⟩ := s.tryConnect_frame result
        exact ⟨by rw [hs]; rfl, rfl⟩
      | get => obtain ⟨-, ⟨-, rfl⟩ | ⟨q, queue, -, rfl⟩⟩ := TcpForwarder.step_get ht <;> exact ⟨rfl, rfl⟩
      | send err now =>
        obtain ⟨q, -, rfl⟩ := TcpForwarder.step_send ht
        cases err <;> exact ⟨rfl, rfl⟩
      | requeue => obtain ⟨q, -, rfl⟩ := TcpForwarder.step_requeue ht; exact ⟨rfl, rfl⟩
    | udp e => cases h
    | http e => cases h
  | udp s => cases e with
    | tcp e => cases h
    | udp e =>
      obtain ⟨t, ht, rfl⟩ := Option.map_eq_some_iff.1 h
      cases e with
      | feed e =>
        obtain ⟨f, hf, rfl⟩ := Option.map_eq_some_iff.1 ht
        exact hfeed hf he
      | start created => obtain ⟨-, ⟨-, rfl⟩ | ⟨-, rfl⟩⟩ := UdpForwarder.step_start ht <;> exact ⟨rfl, rfl⟩
      | check => obtain ⟨-, ⟨-, rfl⟩ | ⟨-, rfl⟩⟩ := UdpForwarder.step_check ht <;> exact ⟨rfl, rfl⟩
      | get => obtain ⟨-, ⟨-, rfl⟩ | ⟨q, queue, -, rfl⟩⟩ := UdpForwarder.step_get ht <;> exact ⟨rfl, rfl⟩
      | send result now =>
        obtain ⟨q, -, rfl⟩ := UdpForwarder.step_send ht
        cases result <;> exact ⟨rfl, rfl⟩
    | http e => cases h
  | http s => cases e with
    | tcp e => cases h
    | udp e => cases h
    | http e =>
      obtain ⟨t, ht, rfl⟩ := Option.map_eq_some_iff.1 h
      cases e with
      | feed e =>
        obtain ⟨f, hf, rfl⟩ := Option.map_eq_some_iff.1 ht
        exact hfeed hf he
      | start now => obtain ⟨-, rfl⟩ := HttpForwarder.step_start ht; exact ⟨rfl, rfl⟩
      | check => obtain ⟨-, ⟨-, rfl⟩ | ⟨-, rfl⟩⟩ := HttpForwarder.step_check ht <;> exact ⟨rfl, rfl⟩
      | get => obtain ⟨-, ⟨-, rfl⟩ | ⟨q, queue, -, rfl⟩⟩ := HttpForwarder.step_get ht <;> exact ⟨rfl, rfl⟩
      | flush now => obtain ⟨-, rfl⟩ := HttpForwarder.step_flush ht; exact ⟨rfl, rfl⟩
      | post err =>
        obtain ⟨now, -, rfl⟩ := HttpForwarder.step_post ht
        cases err <;> exact ⟨rfl, rfl⟩

/-- The two halves of `stop` are steps of the loop. -/
theorem setStop_step (h : l.setStop = some m) : ∃ e : LoopEvent, e.feeds = false ∧ l.step e = some m := by
  cases l with
  | tcp s => exact ⟨.tcp .stop, rfl, h⟩
  | udp s => exact ⟨.udp (.feed .stop), rfl, h⟩
  | http s => exact ⟨.http (.feed .stop), rfl, h⟩

theorem wake_step (h : l.wake = some m) : ∃ e : LoopEvent, e.feeds = false ∧ l.step e = some m := by
  cases l with
  | tcp s => exact ⟨.tcp .wake, rfl, h⟩
  | udp s => exact ⟨.udp (.feed .wake), rfl, h⟩
  | http s => exact ⟨.http (.feed .wake), rfl, h⟩

@[simp] theorem given_putEvent (l : Loop) (sentence : Str) : (l.putEvent sentence).given = [sentence] := by
  cases l <;> rfl

@[simp] theorem own_putEvent (l : Loop) (sentence : Str) : (l.putEvent sentence).own = true := by
  cases l <;> rfl

theorem resumeEvent_spec (h : l.resumeEvent = some e) : e.given = [] ∧ e.own = true := by
  unfold resumeEvent at h
  split at h
  · cases h
  all_goals
    obtain rfl := Option.some.inj h
    exact ⟨rfl, rfl⟩

end Loop

/-! ### What a step can be -/

/-- Outside of `stop`. -/
def FleetPc.OutsideStop : FleetPc → Prop
  | .waking _ _ _ _ | .joining _ _ _ _ => False
  | .idle | .stopping _ _ | .starting _ => True

namespace Fleet

variable {s t : Fleet} {e : FleetEvent} {r : Ref} {eid : ℕ} {l l' : Loop}

/-- What a step of the fleet can be: `sync` goes on or is over, one of the three steps of `stop`, the start of a worker,
or a step of a worker's loop. -/
inductive Transition (s : Fleet) : FleetEvent → Fleet → Prop
  | moves (e : FleetEvent) (pc : FleetPc) (hpc : pc.OutsideStop) : Transition s e { s with pc }
  | flags (endpoints : List Endpoint) (existing : List ℕ) (eid : ℕ) (r : Ref) (l l' : Loop)
      (hreg : s.workers.lookup eid = some r) (hr : s.threads[r]? = some l) (hstop : l.setStop = some l') :
      Transition s .next { s with threads := s.threads.set r l', pc := .waking endpoints existing eid r }
  | wakes (endpoints : List Endpoint) (existing : List ℕ) (eid : ℕ) (r : Ref) (l l' : Loop)
      (hpc : s.pc = .waking endpoints existing eid r) (hr : s.threads[r]? = some l) (hwake : l.wake = some l') :
      Transition s .wake { s with threads := s.threads.set r l', pc := .joining endpoints existing eid r }
  | joins (endpoints : List Endpoint) (existing : List ℕ) (eid : ℕ) (r : Ref)
      (hpc : s.pc = .joining endpoints existing eid r) :
      Transition s .join { s with
        workers := s.workers.erase eid, pc := .stopping endpoints existing
        removed := s.removed ++ [(r, s.log.length)] }
  | starts (eid : ℕ) (ep : Endpoint) (rest : Dict ℕ Endpoint) (hnew : s.workers.lookup eid = none) :
      Transition s .start { s with
        threads := s.threads ++ [Loop.new s.queueSize ep]
        workers := s.workers.insert eid s.threads.length
        pc := .starting rest }
  | loops (r : Ref) (le : LoopEvent) (l l' : Loop) (hr : s.threads[r]? = some l) (hstep : l.step le = some l') :
      Transition s (.loop r le) { s with
        threads := s.threads.set r l', log := s.log ++ List.replicate (l'.sent - l.sent) r }

theorem step_transition (h : s.step e = some t) : s.Transition e t := by
  cases e with
  | sync endpoints existing =>
    simp only [Fleet.step] at h
    split at h
    · split at h
      · obtain rfl := Option.some.inj h
        exact .moves _ _ trivial
      · cases h
    · cases h
  | next =>
    simp only [Fleet.step] at h
    split at h
    · obtain rfl := Option.some.inj h
      exact .moves _ _ trivial
    · unfold stopNext at h
      split at h
      · cases h
      · rename_i r hreg
        split at h
        · cases h
        · rename_i l hr
          split at h
          · obtain ⟨l', hstop, rfl⟩ := Option.map_eq_some_iff.1 h
            exact .flags _ _ _ r l l' hreg hr hstop
          · obtain rfl := Option.some.inj h
            exact .moves _ _ trivial
    · cases h
  | wake =>
    simp only [Fleet.step] at h
    split at h
    · rename_i hpc
      obtain ⟨l, hr, h⟩ := Option.bind_eq_some_iff.1 h
      obtain ⟨l', hwake, rfl⟩ := Option.map_eq_some_iff.1 h
      exact .wakes _ _ _ _ l l' hpc hr hwake
    · cases h
  | join =>
    simp only [Fleet.step] at h
    split at h
    · rename_i hpc
      obtain rfl := Option.some.inj h
      exact .joins _ _ _ _ hpc
    · cases h
  | joinRaises =>
    simp only [Fleet.step] at h
    split at h
    · obtain rfl := Option.some.inj h
      exact .moves _ _ trivial
    · cases h
  | start =>
    simp only [Fleet.step] at h
    split at h
    · obtain rfl := Option.some.inj h
      exact .moves _ _ trivial
    · obtain rfl := Option.some.inj h
      unfold startNext
      split
      · rename_i hnew
        exact .starts _ _ _ hnew
      · exact .moves _ _ trivial
    · cases h
  | loop r le =>
    simp only [Fleet.step] at h
    split at h
    · obtain ⟨l, hr, h⟩ := Option.bind_eq_some_iff.1 h
      obtain ⟨l', hstep, rfl⟩ := Option.map_eq_some_iff.1 h
      exact .loops r le l l' hr hstep
    · cases h

theorem step_queueSize (h : s.step e = some t) : t.queueSize = s.queueSize := by
  cases step_transition h <;> rfl

/-! ### The registry of a fleet -/

/-- `list(self._workers.values())`, in the order of insertion. -/
def registered (s : Fleet) : List Ref := (s.workers.entries.map (·.2)).reverse

theorem mem_registered : r ∈ s.registered ↔ ∃ eid, s.workers.lookup eid = some r := by
  unfold registered
  rw [List.mem_reverse, List.mem_map]
  constructor
  · rintro ⟨⟨eid, r⟩, hmem, rfl⟩
    exact ⟨eid, AList.mem_lookup_iff.2 hmem⟩
  · rintro ⟨eid, h⟩
    exact ⟨⟨eid, r⟩, AList.mem_lookup_iff.1 h, rfl⟩

/-- The worker of a step of `sync` is the one that is registered. -/
def Stopping (s : Fleet) (eid : ℕ) (r : Ref) : Prop :=
  ∃ endpoints existing, s.pc = .waking endpoints existing eid r ∨ s.pc = .joining endpoints existing eid r

/-- What a step does to the registry: nothing, or `join` takes a worker out, or one is started. -/
inductive Registry (s t : Fleet) : Prop
  | same (hworkers : t.workers = s.workers) (hremoved : t.removed = s.removed)
      (hlen : t.threads.length = s.threads.length)
      (hstopping : ∀ eid r, t.Stopping eid r → s.workers.lookup eid = some r ∨ s.Stopping eid r)
  | out (eid : ℕ) (r : Ref) (hstopping : s.Stopping eid r) (hworkers : t.workers = s.workers.erase eid)
      (hremoved : t.removed = s.removed ++ [(r, s.log.length)]) (hthreads : t.threads = s.threads)
      (hpc : ∀ eid r, ¬ t.Stopping eid r)
  | started (eid : ℕ) (ep : Endpoint) (hnew : s.workers.lookup eid = none)
      (hworkers : t.workers = s.workers.insert eid s.threads.length) (hremoved : t.removed = s.removed)
      (hthreads : t.threads = s.threads ++ [Loop.new s.queueSize ep]) (hpc : ∀ eid r, ¬ t.Stopping eid r)

theorem not_stopping_of (hpc : t.pc.OutsideStop) (eid : ℕ) (r : Ref) : ¬ t.Stopping eid r := by
  rintro ⟨endpoints, existing, h | h⟩ <;>
  · rw [h] at hpc
    exact hpc

theorem step_registry (h : s.step e = some t) : s.Registry t := by
  cases step_transition h with
  | moves e pc hpc => exact .same rfl rfl rfl fun eid r hst => absurd hst (not_stopping_of hpc eid r)
  | flags endpoints existing eid r l l' hreg hr hstop =>
    refine .same rfl rfl (by simp) ?_
    rintro eid' r' ⟨endpoints', existing', hst | hst⟩
    · injection hst with _ _ heid hr
      exact Or.inl (heid ▸ hr ▸ hreg)
    · cases hst
  | wakes endpoints existing eid r l l' hpc hr hwake =>
    refine .same rfl rfl (by simp) ?_
    rintro eid' r' ⟨endpoints', existing', hst | hst⟩
    · cases hst
    · injection hst with _ _ heid hr
      exact Or.inr ⟨endpoints, existing, Or.inl (heid ▸ hr ▸ hpc)⟩
  | joins endpoints existing eid r hpc =>
    exact .out eid r ⟨endpoints, existing, Or.inr hpc⟩ rfl rfl rfl (not_stopping_of trivial)
  | starts eid ep rest hnew => exact .started eid ep hnew rfl rfl rfl (not_stopping_of trivial)
  | loops r le l l' hr hstep => exact .same rfl rfl (by simp) fun eid r hst => Or.inr hst

/-- What is registered is a worker, under one key, and was not taken out; every worker is or was registered. -/
structure WellRegistered (s : Fleet) : Prop where
  lt : ∀ eid r, s.workers.lookup eid = some r → r < s.threads.length
  inj : ∀ eid eid' r, s.workers.lookup eid = some r → s.workers.lookup eid' = some r → eid = eid'
  stopping : ∀ eid r, s.Stopping eid r → s.workers.lookup eid = some r
  removed : ∀ r ∈ s.removed.map Prod.fst, r < s.threads.length ∧ ∀ eid, s.workers.lookup eid ≠ some r
  once : (s.removed.map Prod.fst).Nodup
  accounted : ∀ r < s.threads.length, (∃ eid, s.workers.lookup eid = some r) ∨ r ∈ s.removed.map Prod.fst

theorem wellRegistered_new (queueSize : ℕ) : WellRegistered (new queueSize) where
  lt _ _ h := by simp [new] at h
  inj _ _ _ h := by simp [new] at h
  stopping eid r h := absurd h (not_stopping_of (t := new queueSize) trivial eid r)
  removed _ h := by simp [new] at h
  once := List.nodup_nil
  accounted _ h := absurd h (Nat.not_lt_zero _)

theorem WellRegistered.step (hs : WellRegistered s) (h : s.step e = some t) : WellRegistered t := by
  cases step_registry h with
  | same hworkers hremoved hlen hstopping =>
    refine ⟨?_, ?_, ?_, ?_, ?_, ?_⟩
    · rw [hworkers, hlen]
      exact hs.lt
    · rw [hworkers]
      exact hs.inj
    · intro eid r hst
      rw [hworkers]
      exact (hstopping eid r hst).elim id (hs.stopping eid r)
    · rw [hworkers, hremoved, hlen]
      exact hs.removed
    · rw [hremoved]
      exact hs.once
    · rw [hworkers, hremoved, hlen]
      exact hs.accounted
  | out eid r hstopping hworkers hremoved hthreads hpc =>
    have hreg := hs.stopping eid r hstopping
    refine ⟨?_, ?_, ?_, ?_, ?_, ?_⟩
    · intro eid' r' h'
      rw [hworkers] at h'
      rw [hthreads]
      exact hs.lt eid' r' (Table.lookup_erase_cases h').2
    · intro eid' eid'' r' h' h''
      rw [hworkers] at h' h''
      exact hs.inj eid' eid'' r' (Table.lookup_erase_cases h').2 (Table.lookup_erase_cases h'').2
    · exact fun eid r hst => absurd hst (hpc eid r)
    · intro r' hr'
      rw [hremoved, List.map_append] at hr'
      rw [hthreads, hworkers]
      rcases List.mem_append.1 hr' with hr' | hr'
      · exact ⟨(hs.removed r' hr').1, fun eid' h' => (hs.removed r' hr').2 eid' (Table.lookup_erase_cases h').2⟩
      · obtain rfl : r' = r := by simpa using hr'
        refine ⟨hs.lt eid r' hreg, fun eid' h' => ?_⟩
        obtain ⟨hne, h'⟩ := Table.lookup_erase_cases h'
        exact hne (hs.inj _ _ _ h' hreg)
    · rw [hremoved, List.map_append, List.nodup_append]
      refine ⟨hs.once, List.nodup_singleton _, ?_⟩
      rintro a ha b hb rfl
      obtain rfl : a = r := by simpa using hb
      exact (hs.removed a ha).2 eid hreg
    · intro r' hr'
      rw [hthreads] at hr'
      rw [hremoved, List.map_append, hworkers]
      rcases hs.accounted r' hr' with ⟨eid', h'⟩ | h'
      · by_cases he : eid' = eid
        · subst he
          obtain rfl := Option.some.inj (hreg.symm.trans h')
          exact Or.inr (by simp)
        · exact Or.inl ⟨eid', (AList.lookup_erase_ne he).trans h'⟩
      · exact Or.inr (List.mem_append_left _ h')
  | started eid ep hnew hworkers hremoved hthreads hpc =>
    have hlen : t.threads.length = s.threads.length + 1 := by simp [hthreads]
    refine ⟨?_, ?_, ?_, ?_, ?_, ?_⟩
    · intro eid' r' h'
      rw [hworkers] at h'
      rw [hlen]
      rcases Table.lookup_insert_cases h' with ⟨-, rfl⟩ | ⟨-, h'⟩
      · exact Nat.lt_succ_self _
      · exact (hs.lt eid' r' h').trans (Nat.lt_succ_self _)
    · intro eid' eid'' r' h' h''
      rw [hworkers] at h' h''
      rcases Table.lookup_insert_cases h' with ⟨rfl, rfl⟩ | ⟨hne, h'⟩
      · rcases Table.lookup_insert_cases h'' with ⟨rfl, -⟩ | ⟨-, h''⟩
        · rfl
        · exact absurd (hs.lt _ _ h'') (lt_irrefl _)
      · rcases Table.lookup_insert_cases h'' with ⟨-, rfl⟩ | ⟨-, h''⟩
        · exact absurd (hs.lt _ _ h') (lt_irrefl _)
        · exact hs.inj _ _ _ h' h''
    · exact fun eid r hst => absurd hst (hpc eid r)
    · intro r' hr'
      rw [hremoved] at hr'
      obtain ⟨hlt, hout⟩ := hs.removed r' hr'
      refine ⟨hlen ▸ hlt.trans (Nat.lt_succ_self _), fun eid' h' => ?_⟩
      rw [hworkers] at h'
      rcases Table.lookup_insert_cases h' with ⟨-, rfl⟩ | ⟨-, h'⟩
      · exact lt_irrefl _ hlt
      · exact hout eid' h'
    · rw [hremoved]
      exact hs.once
    · intro r' hr'
      rw [hlen] at hr'
      rw [hworkers, hremoved]
      rcases Nat.lt_succ_iff_lt_or_eq.1 hr' with hr' | rfl
      · rcases hs.accounted r' hr' with ⟨eid', h'⟩ | h'
        · refine Or.inl ⟨eid', ?_⟩
          have hne : eid' ≠ eid := by
            rintro rfl
            cases hnew.symm.trans h'
          exact (AList.lookup_insert_ne hne).trans h'
        · exact Or.inr h'
      · exact Or.inl ⟨eid, AList.lookup_insert _⟩

/-! ### The workers of a fleet -/

/-- What a step does to a worker: nothing, a step of its loop, or its start. -/
inductive WorkerStep (s : Fleet) (e : FleetEvent) (r : Ref) (m : Loop) : Prop
  | same (h : s.threads[r]? = some m)
  | stepped (l : Loop) (le : LoopEvent) (h : s.threads[r]? = some l) (hstep : l.step le = some m)
      (hevent : le.feeds = false ∨ e = .loop r le)
  | started (ep : Endpoint) (hr : r = s.threads.length) (h : m = Loop.new s.queueSize ep)

theorem workerStep_set {r' : Ref} {le : LoopEvent} {m : Loop} (hr : s.threads[r]? = some l)
    (hstep : l.step le = some l') (hevent : le.feeds = false ∨ e = .loop r le)
    (h : (s.threads.set r l')[r']? = some m) : s.WorkerStep e r' m := by
  by_cases hrr : r' = r
  · subst hrr
    rw [List.getElem?_set_self (List.getElem?_eq_some_iff.1 hr).1] at h
    obtain rfl := Option.some.inj h
    exact .stepped l le hr hstep hevent
  · rw [List.getElem?_set_ne (Ne.symm hrr)] at h
    exact .same h

theorem step_worker {m : Loop} (h : s.step e = some t) (hm : t.threads[r]? = some m) : s.WorkerStep e r m := by
  cases step_transition h with
  | moves e pc hpc => exact .same hm
  | flags endpoints existing eid r' l l' hreg hr hstop =>
    obtain ⟨le, hfeeds, hstep⟩ := Loop.setStop_step hstop
    exact workerStep_set hr hstep (Or.inl hfeeds) hm
  | wakes endpoints existing eid r' l l' hpc hr hwake =>
    obtain ⟨le, hfeeds, hstep⟩ := Loop.wake_step hwake
    exact workerStep_set hr hstep (Or.inl hfeeds) hm
  | joins endpoints existing eid r' hpc => exact .same hm
  | starts eid ep rest hnew =>
    have hm : (s.threads ++ [Loop.new s.queueSize ep])[r]? = some m := hm
    rcases Nat.lt_trichotomy r s.threads.length with hr | hr | hr
    · rw [List.getElem?_append_left hr] at hm
      exact .same hm
    · rw [hr, List.getElem?_concat_length] at hm
      exact .started ep hr (Option.some.inj hm).symm
    · rw [List.getElem?_eq_none (by simpa using Nat.succ_le_of_lt hr)] at hm
      cases hm
  | loops r' le l l' hr hstep =>
    by_cases hrr : r = r'
    · subst hrr
      exact workerStep_set hr hstep (Or.inr rfl) hm
    · refine .same ?_
      rwa [List.getElem?_set_ne (Ne.symm hrr)] at hm

theorem step_loop {le : LoopEvent} (hown : le.own = true) (hr : s.threads[r]? = some l) (hstep : l.step le = some l') :
    s.step (.loop r le) = some { s with
      threads := s.threads.set r l', log := s.log ++ List.replicate (l'.sent - l.sent) r } := by
  simp only [Fleet.step, hown, if_true, hr, Option.bind_some, hstep, Option.map_some]

end Fleet

end AisServer.Forward
