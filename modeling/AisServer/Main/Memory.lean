import AisServer.Forward.Capacity
import AisServer.Ingest.Framing
import AisServer.Ingest.Listener
import AisServer.Lib.Turns
import AisServer.Main.EndToEnd
import AisServer.Stream.Capacity

/-!
# What the server holds

Every store of the pipeline and of the workers has a limit, and a session thread is inside one call at a time.  The
buffer of a session has none: a node that sends no line feed fills it.

* `Server.Engaged.step` — each call between two of its steps belongs to a session of its own;
* `memory_bounded` — so what the server holds over any run;
* `Server.calls_le_maxClients` — and with the listener there are no more calls than `max_clients`.
-/

namespace AisServer.Main

open AisServer.Lib AisServer.Store AisServer.Nmea AisServer.Ingest AisServer.Stream AisServer.Forward

variable {C : CacheOps Str Time} {digest : Str → Str} {cfg : Config} {ringSize queueSize : ℕ} {startedAt : Time}

/-! ### The sessions -/

/-- The sessions in the loop over the lines of their buffer. -/
def inLines (l : List Session) : List ℕ := l.findIdxs fun x => x.pc = .lines

theorem mem_inLines {l : List Session} {i : ℕ} : i ∈ inLines l ↔ ∃ x, l[i]? = some x ∧ x.pc = .lines := by
  rw [inLines, List.mem_findIdxs_iff_exists_getElem_pos]
  simp [List.getElem?_eq_some_iff]

theorem length_inLines_le (l : List Session) : (inLines l).length ≤ l.countP Session.isOpen := by
  rw [inLines, List.length_findIdxs]
  refine List.countP_mono_left fun x _ hx => ?_
  rw [Session.isOpen, of_decide_eq_true hx]
  rfl

/-- A step of the sessions leaves the others where they are, and hands on at most one sentence, that of the thread which
makes it. -/
theorem handed_step {s t : TcpIngest} {e : IngestEvent} (h : s.step e = some t) :
    (∀ j ∈ inLines s.sessions, threadOf e ≠ some j → j ∈ inLines t.sessions) ∧ (t.handed = s.handed ∨
      ∃ i c, threadOf e = some i ∧ i ∈ inLines t.sessions ∧ t.handed = s.handed ++ [c]) := by
  have hset : ∀ {i : ℕ} {x : Session}, ∀ j ∈ inLines s.sessions, some i ≠ some j →
      j ∈ inLines (s.sessions.set i x) := by
    intro i x j hj hne
    rw [mem_inLines] at hj ⊢
    rwa [List.getElem?_set_ne fun heq => hne (congrArg some heq)]
  cases e with
  | start peer host now =>
    obtain rfl := Option.some.inj h
    refine ⟨fun j hj _ => ?_, Or.inl rfl⟩
    obtain ⟨x, hx, hpc⟩ := mem_inLines.1 hj
    exact mem_inLines.2 ⟨x, by rw [List.getElem?_append_left (List.getElem?_eq_some_iff.1 hx).1, hx], hpc⟩
  | recv i data now =>
    obtain ⟨x, -, -, -, rfl⟩ := TcpIngest.step_recv h
    exact ⟨hset, Or.inl rfl⟩
  | hangup i =>
    obtain ⟨x, -, -, rfl⟩ := TcpIngest.step_hangup h
    exact ⟨hset, Or.inl rfl⟩
  | line i =>
    obtain ⟨x, -, -, rfl⟩ := TcpIngest.step_line h
    exact ⟨hset, Or.inl rfl⟩
  | upgrade i now =>
    obtain ⟨x, sid, sentence, -, -, ⟨-, rfl⟩ | ⟨r, registry, -, rfl⟩⟩ := TcpIngest.step_upgrade h
    · exact ⟨hset, Or.inl rfl⟩
    · exact ⟨hset, Or.inl rfl⟩
  | judge i now =>
    obtain ⟨x, sentence, hx, -, rfl⟩ := TcpIngest.step_judge h
    refine ⟨hset, ?_⟩
    by_cases hw : wellFormed sentence = true
    · have hmem : i ∈ inLines (s.sessions.set i { x with pc := .lines }) :=
        mem_inLines.2 ⟨_, List.getElem?_set_self (List.getElem?_eq_some_iff.1 hx).1, rfl⟩
      exact Or.inr ⟨i, _, rfl, hmem, if_pos hw⟩
    · exact Or.inl (if_neg hw)
  | finish i =>
    obtain ⟨x, -, -, rfl⟩ := TcpIngest.step_finish h
    exact ⟨hset, Or.inl rfl⟩
  | prune maxAge now =>
    obtain rfl := Option.some.inj h
    exact ⟨fun j hj _ => hj, Or.inl rfl⟩

namespace Server

variable {s t : Server C} {e : ServerEvent} {i : ℕ}

/-- The calls between their check and their end. -/
def flights (p : Pipeline C) : List ℕ := p.checked.map (·.1.id) ++ p.recording.map (·.id)

/-- Every call between two of its steps belongs to a session of its own. -/
def Engaged (s : Server C) : Prop :=
  Turns (inLines s.ingest.sessions) (s.called.map Prod.fst) s.inside (flights s.pipeline)

theorem calling_iff : s.calling i = true ↔ i ∈ s.called.map Prod.fst ++ s.inside.map Prod.fst := by
  simp [calling]

theorem engaged_new : Engaged (new C cfg ringSize startedAt queueSize) where
  nodup := List.nodup_nil
  mem := by simp [new]
  flights := List.Perm.refl _

theorem Engaged.ingest (hs : Engaged s) {e : IngestEvent} (h : s.step digest (.ingest e) = some t) : Engaged t := by
  cases step_transition h with
  | ingest _ b hfree hb =>
    obtain ⟨hkeep, hhanded⟩ := handed_step hb
    -- the thread that makes the step is in no call
    have hmono : Turns (inLines b.sessions) (s.called.map Prod.fst) s.inside (flights s.pipeline) := by
      refine hs.mono fun j hj hmem => hkeep j hmem fun hthread => ?_
      rw [hthread] at hfree
      exact Bool.false_ne_true (hfree.symm.trans (calling_iff.2 hj))
    rcases hhanded with hhanded | ⟨i, c, hthread, hi, hhanded⟩
    · simp only [hhanded, List.drop_length, List.map_nil, List.append_nil]
      exact hmono
    · have hnot : i ∉ s.called.map Prod.fst ++ s.inside.map Prod.fst := by
        rw [← calling_iff]
        simpa [hthread] using hfree
      simp only [hhanded, List.drop_left, hthread, Option.getD_some, List.map_singleton]
      rw [Engaged, List.map_append, List.map_singleton]
      exact hmono.enter hi hnot

theorem called_check {calls : List (ℕ × Str × Str × Time)} {c : Str × Str × Time}
    (hfind : calls.find? (fun c => c.1 = i) = some (i, c)) :
    (calls.map Prod.fst).Perm (i :: (calls.eraseP fun c => c.1 = i).map Prod.fst) := by
  obtain ⟨-, l, r, rfl, hl⟩ := List.find?_eq_some_iff_append.1 hfind
  have hnot : ∀ x ∈ l, ¬ (decide (x.1 = i)) = true := fun x hx => by simpa using hl x hx
  have hcons : ((i, c) :: r).eraseP (fun c => c.1 = i) = r := List.eraseP_cons_of_pos (by simp)
  rw [List.eraseP_append_right _ hnot, hcons, List.map_append, List.map_append, List.map_cons]
  exact List.perm_middle

theorem Engaged.check (hs : Engaged s) {now : Time} (h : s.step digest (.check i now) = some t) : Engaged t := by
  cases step_transition h with
  | check _ sentence key ts _ p hfind hst =>
    have hperm := called_check hfind
    obtain ⟨-, ⟨d, -, rfl⟩ | ⟨d, -, rfl⟩⟩ := Pipeline.step_check hst
    · -- the call goes on to its push
      rw [if_neg (by simp)]
      refine hs.advance hperm ?_
      simp only [flights, List.map_append, List.map_singleton, List.append_assoc]
      exact List.perm_middle
    · rw [if_pos rfl]
      exact hs.leave hperm

theorem Engaged.push (hs : Engaged s) {now : Time} (h : s.step digest (.push i now) = some t) : Engaged t := by
  cases step_transition h with
  | push _ n k _ p hfind hk hst =>
    obtain ⟨c, ts, b, hi, -, rfl⟩ := Pipeline.step_push hst
    obtain ⟨-, hperm⟩ := perm_of_findIdx? hk hi
    refine hs.perm ?_
    simp only [flights, List.map_append, List.map_singleton]
    rw [← List.append_assoc]
    exact List.perm_append_comm.trans ((hperm.map fun x => x.1.id).symm.append_right _)

theorem Engaged.record (hs : Engaged s) (h : s.step digest (.record i) = some t) : Engaged t := by
  cases step_transition h with
  | record _ n k p hfind hk hst =>
    obtain ⟨c, hc, rfl⟩ := Pipeline.step_record_at hst
    obtain ⟨hid, hperm⟩ := perm_of_findIdx? hk hc
    obtain rfl : c.id = n := by simpa using hid
    obtain ⟨rateBucket, mmsiLast, events, hframe⟩ := s.pipeline.recordCall_frame c
    rw [hframe]
    refine hs.finish (List.mem_of_find?_eq_some hfind) ?_
    exact ((hperm.map (·.id)).append_left _).trans List.perm_middle

theorem Engaged.step (hs : Engaged s) (h : s.step digest e = some t) : Engaged t := by
  cases e with
  | ingest e => exact hs.ingest h
  | check i now => exact hs.check h
  | push i now => exact hs.push h
  | record i => exact hs.record h
  | popReady now =>
    cases step_transition h with
    | popReady _ p hst =>
      obtain ⟨-, rfl⟩ := Pipeline.step_popReady hst
      exact hs
  | dispatch =>
    cases step_transition h with
    | dispatch c p hub hc hst hhub =>
      obtain ⟨c', rest, -, rfl⟩ := Pipeline.step_dispatch hst
      exact hs
  | hub e =>
    cases step_transition h with
    | hub _ hub he hst => exact hs

/-! ### The buffer of a session -/

theorem step_ingest {b : TcpIngest} {e : IngestEvent} (hfree : (threadOf e).any s.calling = false)
    (h : s.ingest.step e = some b) (hhanded : b.handed = s.ingest.handed) :
    s.step digest (.ingest e) = some { s with ingest := b } := by
  rw [step, if_neg (by simp [hfree]), h, Option.map_some, hhanded, List.drop_length, List.map_nil, List.append_nil]

/-- A node sends one more byte, which is no line feed. -/
def oneByte (i : ℕ) : List ServerEvent := [.ingest (.recv i [33] 0), .ingest (.line i)]

theorem run_oneByte (digest : Str → Str) {x : Session} (hfree : s.calling i = false)
    (hx : s.ingest.sessions[i]? = some x) (hpc : x.pc = .recv) (hbuf : 10 ∉ x.buf) : ∃ b : TcpIngest,
      run (step digest) s (oneByte i) = some { s with ingest := b } ∧
        b.sessions[i]? = some { x with buf := x.buf ++ [33] } := by
  have hlt := (List.getElem?_eq_some_iff.1 hx).1
  set b : TcpIngest := { s.ingest with
    registry := s.ingest.registry.touch x.key 1 false false 0
    sessions := s.ingest.sessions.set i { x with buf := x.buf ++ [33], pc := .lines } } with hb
  have hrecv : s.ingest.step (.recv i [33] 0) = some b := by
    rw [TcpIngest.step]
    simp [hx, hpc, hb]
  have hnone : split1 10 (x.buf ++ [33]) = none := by
    rw [split1_eq_none]
    simpa using hbuf
  have hline : b.step (.line i) = some { b with sessions := b.sessions.set i { x with buf := x.buf ++ [33] } } := by
    rw [TcpIngest.step]
    simp [hb, List.getElem?_set_self hlt, TcpIngest.takeLine, hnone, ← hpc]
  refine ⟨{ b with sessions := b.sessions.set i { x with buf := x.buf ++ [33] } }, ?_,
    List.getElem?_set_self (by simpa [hb] using hlt)⟩
  have hfirst : s.step digest (.ingest (.recv i [33] 0)) = some { s with ingest := b } := step_ingest hfree hrecv rfl
  rw [oneByte, run_cons, hfirst, Option.bind_some, run_cons]
  have hsecond : step digest { s with ingest := b } (.ingest (.line i)) = some _ := step_ingest hfree hline rfl
  rw [hsecond]
  rfl

/-- A session without a line feed in its buffer, filled by its node. -/
theorem run_bytes (digest : Str → Str) (n : ℕ) {x : Session} (hfree : s.calling i = false)
    (hx : s.ingest.sessions[i]? = some x) (hpc : x.pc = .recv) (hbuf : 10 ∉ x.buf) : ∃ es, ∃ b : TcpIngest,
      run (step digest) s es = some { s with ingest := b } ∧
      ∃ y, b.sessions[i]? = some y ∧ y.buf.length = x.buf.length + n := by
  induction n generalizing s x with
  | zero => exact ⟨[], s.ingest, rfl, x, hx, rfl⟩
  | succ n ih =>
    obtain ⟨b, hrun, hb⟩ := run_oneByte digest hfree hx hpc hbuf
    obtain ⟨es, c, hes, y, hy, hlen⟩ := ih (s := { s with ingest := b }) hfree hb hpc (by simpa using hbuf)
    refine ⟨oneByte i ++ es, c, (run_append_of hrun).trans hes, y, hy, ?_⟩
    rw [hlen, List.length_append, List.length_singleton]
    omega

/-- A session that waits for data goes on to hold more than `n` bytes, whatever the other threads are at. -/
theorem Engaged.unbounded (hs : Engaged s) {x : Session} (hx : s.ingest.sessions[i]? = some x) (hpc : x.pc = .recv)
    (hbuf : 10 ∉ x.buf) (n : ℕ) : ∃ es, ∃ b : TcpIngest,
    run (Server.step digest) s es = some { s with ingest := b } ∧
      ∃ y : Session, b.sessions[i]? = some y ∧ n < y.buf.length := by
  -- it is in no call
  have hfree : s.calling i = false := by
    rw [← Bool.not_eq_true, calling_iff]
    intro hmem
    obtain ⟨y, hy, hlines⟩ := mem_inLines.1 (hs.mem i hmem)
    rw [← Option.some.inj (hx.symm.trans hy), hpc] at hlines
    cases hlines
  obtain ⟨es, b, hes, y, hy, hlen⟩ := run_bytes digest (n + 1) hfree hx hpc hbuf
  refine ⟨es, b, hes, y, hy, ?_⟩
  rw [hlen]
  omega

/-! ### Behind the listener -/

theorem countP_isOpen_le (l : Listener) : l.ingest.sessions.countP Session.isOpen ≤ l.live.length := by
  rw [← List.length_findIdxs (s := 0)]
  refine (List.subperm_of_subset List.nodup_findIdxs fun i hi => ?_).length_le
  rw [List.mem_findIdxs_iff_exists_getElem_pos] at hi
  obtain ⟨hlt, hopen⟩ := hi
  exact Listener.mem_live.2 (isAlive_iff.2 ⟨_, List.getElem?_eq_getElem hlt, hopen⟩)

/-- **No more calls than clients.**  When the sessions are those that the listener has started, the calls between two of
their steps are at most `max_clients`. -/
theorem calls_le_maxClients {es : List ServerEvent} {l l' : Listener} {fs : List ListenerEvent}
    (h : run (step digest) (new C cfg ringSize startedAt queueSize) es = some s) (hl : l.Tracks)
    (hlisten : run Listener.step l fs = some l') (hsessions : l'.ingest = s.ingest) :
    s.called.length + (s.pipeline.checked.length + s.pipeline.recording.length) ≤ l'.maxClients.toNat := by
  have hengaged : Engaged s := run_inv_of_step (fun _ _ _ hs hst => hs.step hst) engaged_new h
  have htracks : l'.Tracks := run_inv_of_step (fun _ _ _ hs hst => hs.step hst) hl hlisten
  have hlen := hengaged.length_le.trans (length_inLines_le _)
  rw [← hsessions] at hlen
  simpa [flights] using hlen.trans ((countP_isOpen_le l').trans htracks.bound)

end Server

/-- **What the server holds.**  In every run of the whole server: the heap, the popped items, the cache, the figures and
the ring of each topic keep to their limits; the calls between two of their steps are no more than the open sessions; a
worker keeps to its queue and an HTTP worker to a hundred sentences beside it.  The buffer of a session keeps to
nothing: as long as a session waits for data, the run goes on to a state in which it holds more than any number of
bytes, with everything behind the sessions as it was. -/
theorem memory_bounded (D : Documented C cfg.maxEntries cfg.ttlSeconds) {es : List ServerEvent} {s : Server C}
    (h : run (Server.step digest) (Server.new C cfg ringSize startedAt queueSize) es = some s) :
    (s.pipeline.reorder.heap.size ≤ cfg.maxQueue ∧ s.pipeline.awaiting.length ≤ cfg.maxQueue ∧
      (D.entries s.pipeline.dedup.cache).length ≤ cfg.maxEntries ∧
      s.pipeline.rateBucket.length ≤ Pipeline.rateMaxlen ∧ s.pipeline.mmsiLast.keys.length ≤ 2 ^ 30 ∧
      ∀ topic, (s.pipeline.events.rings topic).length ≤ ringSize) ∧
    s.called.length + (s.pipeline.checked.length + s.pipeline.recording.length) ≤
      s.ingest.sessions.countP Session.isOpen ∧
    (∀ l ∈ s.hub.fleet.threads, (0 < queueSize → l.worker.queue.length ≤ queueSize) ∧ l.collected ≤ 100) ∧
    ∀ (i : ℕ) (x : Session), s.ingest.sessions[i]? = some x → x.pc = .recv →
      ∀ n, ∃ es, ∃ b : TcpIngest, run (Server.step digest) s es = some { s with ingest := b } ∧
        ∃ y : Session, b.sessions[i]? = some y ∧ n < y.buf.length := by
  obtain ⟨pipelineEvents, hpipeline⟩ := Server.pipeline_of_run h
  have hlimited : Pipeline.Limited D ringSize s.pipeline :=
    run_inv_of_step (fun _ _ _ hs hst => hs.step hst) Pipeline.limited_new hpipeline
  have hengaged : Server.Engaged s := run_inv_of_step (fun _ _ _ hs hst => hs.step hst) Server.engaged_new h
  refine ⟨⟨hlimited.conserved.bounded, hlimited.awaiting, hlimited.entries, hlimited.rate, hlimited.vessels_length,
    hlimited.rings⟩, ?_, fun l hl => ?_, fun i x hx hpc => ?_⟩
  · have hlen := hengaged.length_le.trans (length_inLines_le _)
    simpa [Server.flights] using hlen
  · obtain ⟨r, hr⟩ := List.mem_iff_getElem?.1 hl
    obtain ⟨hubEvents, hhub⟩ := Server.hub_of_run h
    obtain ⟨loopEvents, hloop, -⟩ := Hub.worker_of_run hhub hr
    exact Loop.holds_of_run hloop
  · obtain ⟨ingestEvents, hingest⟩ := Server.ingest_of_run h
    exact hengaged.unbounded hx hpc (Ledger.waits_of_run hingest hx hpc)

/-- The second node has its report on the way, the first goes back to wait and then sends a megabyte. -/
theorem memory_bounded_twoNodes :
    ∃ s, run (Server.step id) (Server.new (refCache Str Time 10 30) ⟨30, 10, 2000, 3⟩ 500 100 9)
        (twoNodes ++ [.ingest (.line 0)]) = some s ∧
      s.pipeline.accepted.length = 2 ∧ s.pipeline.reorder.heap.size ≤ 3 ∧
      ∃ es, ∃ b : TcpIngest, run (Server.step id) s es = some { s with ingest := b } ∧
        ∃ y : Session, b.sessions[0]? = some y ∧ 1048576 < y.buf.length := by
  have hrun : (run (Server.step id) (Server.new (refCache Str Time 10 30) ⟨30, 10, 2000, 3⟩ 500 100 9)
      (twoNodes ++ [.ingest (.line 0)])).map (fun s =>
        (s.pipeline.accepted.length, (s.ingest.sessions[0]?).map (·.pc))) = some (2, some .recv) := by decide +kernel
  obtain ⟨s, hs, hfacts⟩ := Option.map_eq_some_iff.1 hrun
  obtain ⟨haccepted, hwaits⟩ := Prod.mk.inj hfacts
  obtain ⟨x, hx, hpc⟩ := Option.map_eq_some_iff.1 hwaits
  obtain ⟨⟨hheap, -⟩, -, -, hbuf⟩ := memory_bounded (refCache_documented Str Time 10 (30 : ℕ)) hs
  exact ⟨s, hs, haccepted, hheap, hbuf 0 x hx hpc 1048576⟩

end AisServer.Main
