import AisServer.Forward.Dispatch
import AisServer.Forward.Wire
import AisServer.Lib.Throttle
import AisServer.Stream.Conservation

/-!
# From a node to an endpoint

`Server` wires the parts as `main` does: the session threads call `on_sentence` of the pipeline, and the output loop
calls `dispatch` for every item that it pops.  A session thread is inside its call until the call is over, and the
output loop is inside `dispatch` until every worker was given the sentence; between their steps all the other threads
go on.  A session may start at any time, as if no client were ever turned away: what `serve_forever` does with
`max_clients` is in `Ingest.Listener`, and `Server.calls_le_maxClients` puts the two together.

* `Server.step_transition` — what a step of the server is for its parts;
* `Server.pipeline_of_run`, `Server.hub_of_run` — the parts run as they do on their own;
* `Server.Linked.step` — what was accepted was handed on by a session, each call for one sentence of a session, and
  what was dispatched was popped, in that order;
* `endpoint_stream` — what an endpoint is sent, traced back to the lines that the nodes sent;
* `endpoint_repeats` — how often an endpoint is sent copies of one sentence.
-/

namespace AisServer.Main

open AisServer.Lib AisServer.Store AisServer.Nmea AisServer.Ingest AisServer.Stream AisServer.Forward

structure Server (C : CacheOps Str Time) where
  ingest : TcpIngest := {}
  pipeline : Pipeline C
  hub : Hub
  /-- The sessions that have called `on_sentence`, with its arguments, before `check`. -/
  called : List (ℕ × Str × Str × Time) := []
  /-- The sessions that are inside `on_sentence` behind `check`, with the number of the call. -/
  inside : List (ℕ × ℕ) := []

inductive ServerEvent
  | ingest (e : IngestEvent)
  /-- The call of the session `i` makes its `check`. -/
  | check (i : ℕ) (now : Time)
  | push (i : ℕ) (now : Time)
  | record (i : ℕ)
  | popReady (now : Time)
  /-- The output loop takes the next item of `ready` and copies the workers. -/
  | dispatch
  /-- A step of `sync`, of a worker, or of the output loop inside `dispatch`. -/
  | hub (e : HubEvent)

/-- The session thread that makes the step. -/
def threadOf : IngestEvent → Option ℕ
  | .start _ _ _ | .prune _ _ => none
  | .recv i _ _ | .hangup i | .line i | .upgrade i _ | .judge i _ | .finish i => some i

/-- A step of the output loop, which the pipeline starts. -/
def isDispatch : HubEvent → Bool
  | .dispatch _ => true
  | _ => false

namespace Server

variable {C : CacheOps Str Time}

def new (C : CacheOps Str Time) (cfg : Config) (ringSize : ℕ) (startedAt : Time) (queueSize : ℕ) : Server C :=
  { pipeline := Pipeline.new C cfg ringSize startedAt, hub := Hub.new queueSize }

/-- The session is inside a call of `on_sentence`. -/
def calling (s : Server C) (i : ℕ) : Bool := (s.called.any fun c => c.1 = i) || s.inside.any fun c => c.1 = i

def step (digest : Str → Str) (s : Server C) : ServerEvent → Option (Server C)
  | .ingest e =>
    if (threadOf e).any s.calling then none
    else (s.ingest.step e).map fun ingest =>
      { s with
        ingest
        called := s.called ++
          (ingest.handed.drop s.ingest.handed.length).map fun c => ((threadOf e).getD 0, c) }
  | .check i now =>
    match s.called.find? fun c => c.1 = i with
    | none => none
    | some (_, sentence, key, ts) =>
      (s.pipeline.step digest (.check sentence key ts now)).map fun pipeline =>
        { s with
          pipeline, called := s.called.eraseP fun c => c.1 = i
          -- a duplicate, or a cache that is full, ends the call
          inside := if pipeline.accepted.length = s.pipeline.accepted.length then s.inside
            else s.inside ++ [(i, s.pipeline.calls)] }
  | .push i now =>
    match s.inside.find? fun c => c.1 = i with
    | none => none
    | some (_, n) =>
      (s.pipeline.checked.findIdx? fun x => x.1.id = n).bind fun k =>
        (s.pipeline.step digest (.push k now)).map fun pipeline => { s with pipeline }
  | .record i =>
    match s.inside.find? fun c => c.1 = i with
    | none => none
    | some (_, n) =>
      (s.pipeline.recording.findIdx? fun c => c.id = n).bind fun k =>
        (s.pipeline.step digest (.record k)).map fun pipeline =>
          { s with pipeline, inside := s.inside.filter fun c => c.1 ≠ i }
  | .popReady now =>
    match s.hub.pc with
    | .idle => (s.pipeline.step digest (.popReady now)).map fun pipeline => { s with pipeline }
    | _ => none
  | .dispatch =>
    (s.pipeline.awaiting.head?).bind fun c =>
      (s.pipeline.step digest .dispatch).bind fun pipeline =>
        (s.hub.step (.dispatch c.sentence)).map fun hub => { s with pipeline, hub }
  | .hub e => if isDispatch e then none else (s.hub.step e).map fun hub => { s with hub }

variable {digest : Str → Str} {cfg : Config} {ringSize queueSize : ℕ} {startedAt : Time} {s t : Server C}

/-! ### What a step does to the parts -/

/-- What a step of the server can be. -/
inductive Transition (digest : Str → Str) (s : Server C) : ServerEvent → Server C → Prop
  | ingest (e : IngestEvent) (b : TcpIngest) (hfree : (threadOf e).any s.calling = false)
      (h : s.ingest.step e = some b) :
      Transition digest s (.ingest e) { s with
        ingest := b
        called := s.called ++ (b.handed.drop s.ingest.handed.length).map fun c => ((threadOf e).getD 0, c) }
  | check (i : ℕ) (sentence key : Str) (ts now : Time) (p : Pipeline C)
      (hfind : s.called.find? (fun c => c.1 = i) = some (i, sentence, key, ts))
      (h : s.pipeline.step digest (.check sentence key ts now) = some p) :
      Transition digest s (.check i now) { s with
        pipeline := p, called := s.called.eraseP fun c => c.1 = i
        inside := if p.accepted.length = s.pipeline.accepted.length then s.inside
          else s.inside ++ [(i, s.pipeline.calls)] }
  | push (i n k : ℕ) (now : Time) (p : Pipeline C) (hfind : s.inside.find? (fun c => c.1 = i) = some (i, n))
      (hk : s.pipeline.checked.findIdx? (fun x => x.1.id = n) = some k)
      (h : s.pipeline.step digest (.push k now) = some p) : Transition digest s (.push i now) { s with pipeline := p }
  | record (i n k : ℕ) (p : Pipeline C) (hfind : s.inside.find? (fun c => c.1 = i) = some (i, n))
      (hk : s.pipeline.recording.findIdx? (fun c => c.id = n) = some k)
      (h : s.pipeline.step digest (.record k) = some p) :
      Transition digest s (.record i) { s with pipeline := p, inside := s.inside.filter fun c => c.1 ≠ i }
  | popReady (now : Time) (p : Pipeline C) (h : s.pipeline.step digest (.popReady now) = some p) :
      Transition digest s (.popReady now) { s with pipeline := p }
  | dispatch (c : Call) (p : Pipeline C) (hub : Hub) (hc : s.pipeline.awaiting.head? = some c)
      (h : s.pipeline.step digest .dispatch = some p) (hhub : s.hub.step (.dispatch c.sentence) = some hub) :
      Transition digest s .dispatch { s with pipeline := p, hub }
  | hub (e : HubEvent) (hub : Hub) (he : isDispatch e = false) (h : s.hub.step e = some hub) :
      Transition digest s (.hub e) { s with hub }

theorem step_transition {e : ServerEvent} (h : s.step digest e = some t) : s.Transition digest e t := by
  cases e with
  | ingest e =>
    simp only [step] at h
    split at h
    · cases h
    · rename_i hfree
      obtain ⟨b, hst, rfl⟩ := Option.map_eq_some_iff.1 h
      exact .ingest e b (by simpa using hfree) hst
  | check i now =>
    simp only [step] at h
    split at h
    · cases h
    · rename_i j sentence key ts hfind
      obtain ⟨p, hst, rfl⟩ := Option.map_eq_some_iff.1 h
      obtain rfl : j = i := by simpa using List.find?_some hfind
      exact .check j sentence key ts now p hfind hst
  | push i now =>
    simp only [step] at h
    split at h
    · cases h
    · rename_i j n hfind
      obtain ⟨k, hk, h⟩ := Option.bind_eq_some_iff.1 h
      obtain ⟨p, hst, rfl⟩ := Option.map_eq_some_iff.1 h
      obtain rfl : j = i := by simpa using List.find?_some hfind
      exact .push j n k now p hfind hk hst
  | record i =>
    simp only [step] at h
    split at h
    · cases h
    · rename_i j n hfind
      obtain ⟨k, hk, h⟩ := Option.bind_eq_some_iff.1 h
      obtain ⟨p, hst, rfl⟩ := Option.map_eq_some_iff.1 h
      obtain rfl : j = i := by simpa using List.find?_some hfind
      exact .record j n k p hfind hk hst
  | popReady now =>
    simp only [step] at h
    split at h
    · obtain ⟨p, hst, rfl⟩ := Option.map_eq_some_iff.1 h
      exact .popReady now p hst
    · cases h
  | dispatch =>
    simp only [step] at h
    obtain ⟨c, hc, h⟩ := Option.bind_eq_some_iff.1 h
    obtain ⟨p, hst, h⟩ := Option.bind_eq_some_iff.1 h
    obtain ⟨hub, hhub, rfl⟩ := Option.map_eq_some_iff.1 h
    exact .dispatch c p hub hc hst hhub
  | hub e =>
    simp only [step] at h
    split at h
    · cases h
    · rename_i he
      obtain ⟨hub, hst, rfl⟩ := Option.map_eq_some_iff.1 h
      exact .hub e hub (by simpa using he) hst

/-- A step of the whole, seen from its parts: a session's step may add to the calls, a check takes a call over, and a
dispatch is one of the pipeline and of the hub. -/
inductive Wired (digest : Str → Str) (s t : Server C) : Prop
  | ingest (e : IngestEvent) (i : ℕ) (h : s.ingest.step e = some t.ingest) (hpipeline : t.pipeline = s.pipeline)
      (hhub : t.hub = s.hub)
      (hcalled : t.called = s.called ++ (t.ingest.handed.drop s.ingest.handed.length).map fun c => (i, c))
  | check (i : ℕ) (sentence key : Str) (ts now : Time)
      (hfind : s.called.find? (fun c => c.1 = i) = some (i, sentence, key, ts))
      (h : s.pipeline.step digest (.check sentence key ts now) = some t.pipeline) (hingest : t.ingest = s.ingest)
      (hhub : t.hub = s.hub) (hcalled : t.called = s.called.eraseP fun c => c.1 = i)
  | pipeline (e : PipelineEvent) (h : s.pipeline.step digest e = some t.pipeline)
      (haccepted : t.pipeline.accepted = s.pipeline.accepted)
      (hdispatched : t.pipeline.dispatched = s.pipeline.dispatched) (hcalls : t.pipeline.calls = s.pipeline.calls)
      (hingest : t.ingest = s.ingest) (hhub : t.hub = s.hub) (hcalled : t.called = s.called)
  | dispatch (c : Call) (h : s.pipeline.step digest .dispatch = some t.pipeline)
      (hdispatched : t.pipeline.dispatched = s.pipeline.dispatched ++ [c])
      (haccepted : t.pipeline.accepted = s.pipeline.accepted) (hcalls : t.pipeline.calls = s.pipeline.calls)
      (hhub : s.hub.step (.dispatch c.sentence) = some t.hub) (hingest : t.ingest = s.ingest)
      (hcalled : t.called = s.called)
  | hub (e : HubEvent) (he : isDispatch e = false) (h : s.hub.step e = some t.hub)
      (hpipeline : t.pipeline = s.pipeline) (hingest : t.ingest = s.ingest) (hcalled : t.called = s.called)

theorem step_wired {e : ServerEvent} (h : s.step digest e = some t) : s.Wired digest t := by
  cases step_transition h with
  | ingest e b hfree hst => exact .ingest e _ hst rfl rfl rfl
  | check i sentence key ts now p hfind hst => exact .check i sentence key ts now hfind hst rfl rfl rfl
  | push i n k now p hfind hk hst =>
    obtain ⟨c, ts, b, -, -, hp⟩ := Pipeline.step_push hst
    exact .pipeline _ hst (by rw [hp]) (by rw [hp]) (by rw [hp]) rfl rfl rfl
  | record i n k p hfind hk hst =>
    obtain ⟨rate, mmsi, events, recording, hp⟩ := Pipeline.step_record hst
    exact .pipeline _ hst (by rw [hp]) (by rw [hp]) (by rw [hp]) rfl rfl rfl
  | popReady now p hst =>
    obtain ⟨-, hp⟩ := Pipeline.step_popReady hst
    exact .pipeline _ hst (by rw [hp]) (by rw [hp]) (by rw [hp]) rfl rfl rfl
  | dispatch c p hub hc hst hhub =>
    obtain ⟨c', rest, ha, hp⟩ := Pipeline.step_dispatch hst
    obtain rfl : c' = c := by simpa [ha] using hc
    exact .dispatch c' hst (by rw [hp]) (by rw [hp]) (by rw [hp]) hhub rfl rfl
  | hub e hub he hst => exact .hub e he hst rfl rfl rfl

/-! ### The parts on their own -/

theorem pipeline_of_run {es : List ServerEvent}
    (h : run (step digest) (new C cfg ringSize startedAt queueSize) es = some s) :
    ∃ es, run (Pipeline.step digest) (Pipeline.new C cfg ringSize startedAt) es = some s.pipeline := by
  refine run_project (f := Server.pipeline) ?_ h
  intro s e t hst
  cases step_wired hst with
  | ingest e i h hpipeline hhub hcalled => exact ⟨[], by rw [hpipeline, run_nil]⟩
  | check i sentence key ts now hfind h hingest hhub hcalled => exact ⟨[_], by rw [run_cons, h]; rfl⟩
  | pipeline e h haccepted hdispatched hcalls hingest hhub hcalled => exact ⟨[e], by rw [run_cons, h]; rfl⟩
  | dispatch c h hdispatched haccepted hcalls hhub hingest hcalled => exact ⟨[_], by rw [run_cons, h]; rfl⟩
  | hub e he h hpipeline hingest hcalled => exact ⟨[], by rw [hpipeline, run_nil]⟩

theorem hub_of_run {es : List ServerEvent}
    (h : run (step digest) (new C cfg ringSize startedAt queueSize) es = some s) :
    ∃ es, run Hub.step (Hub.new queueSize) es = some s.hub := by
  refine run_project (f := Server.hub) ?_ h
  intro s e t hst
  cases step_wired hst with
  | ingest e i h hpipeline hhub hcalled => exact ⟨[], by rw [hhub, run_nil]⟩
  | check i sentence key ts now hfind h hingest hhub hcalled => exact ⟨[], by rw [hhub, run_nil]⟩
  | pipeline e h haccepted hdispatched hcalls hingest hhub hcalled => exact ⟨[], by rw [hhub, run_nil]⟩
  | dispatch c h hdispatched haccepted hcalls hhub hingest hcalled => exact ⟨[_], by rw [run_cons, hhub]; rfl⟩
  | hub e he h hpipeline hingest hcalled => exact ⟨[e], by rw [run_cons, h]; rfl⟩

theorem ingest_of_run {es : List ServerEvent}
    (h : run (step digest) (new C cfg ringSize startedAt queueSize) es = some s) :
    ∃ es, run TcpIngest.step {} es = some s.ingest := by
  refine run_project (f := Server.ingest) ?_ h
  intro s e t hst
  cases step_wired hst with
  | ingest e i h hpipeline hhub hcalled => exact ⟨[e], by rw [run_cons, h]; rfl⟩
  | check i sentence key ts now hfind h hingest hhub hcalled => exact ⟨[], by rw [hingest, run_nil]⟩
  | pipeline e h haccepted hdispatched hcalls hingest hhub hcalled => exact ⟨[], by rw [hingest, run_nil]⟩
  | dispatch c h hdispatched haccepted hcalls hhub hingest hcalled => exact ⟨[], by rw [hingest, run_nil]⟩
  | hub e he h hpipeline hingest hcalled => exact ⟨[], by rw [hingest, run_nil]⟩

/-! ### The seams -/

/-- What a call was made with. -/
def argsOf (c : Call) : Str × Str × Time := (c.sentence, c.peer, c.arrivalTs)

/-- Each accepted call took over one sentence that a session handed on, and the hub dispatched what the output loop
popped. -/
structure Linked (s : Server C) : Prop where
  called : (s.called.map Prod.snd ++ s.pipeline.accepted.map argsOf).Subperm s.ingest.handed
  dispatched : s.hub.dispatched = s.pipeline.dispatched.map (·.sentence)

theorem linked_new : Linked (new C cfg ringSize startedAt queueSize) where
  called := List.Subperm.refl _
  dispatched := rfl

theorem called_perm {calls : List (ℕ × Str × Str × Time)} {i : ℕ} {c : Str × Str × Time}
    (h : calls.find? (fun c => c.1 = i) = some (i, c)) :
    (calls.map Prod.snd).Perm (c :: (calls.eraseP fun c => c.1 = i).map Prod.snd) := by
  obtain ⟨hi, l, r, rfl, hl⟩ := List.find?_eq_some_iff_append.1 h
  have hnot : ∀ x ∈ l, ¬ (decide (x.1 = i)) = true := fun x hx => by simpa using hl x hx
  have hcons : ((i, c) :: r).eraseP (fun c => c.1 = i) = r := List.eraseP_cons_of_pos (by simp)
  rw [List.eraseP_append_right _ hnot, hcons, List.map_append, List.map_append, List.map_cons]
  exact List.perm_middle

theorem Linked.step (hs : Linked s) {e : ServerEvent} (h : s.step digest e = some t) : Linked t := by
  cases step_wired h with
  | ingest e i h hpipeline hhub hcalled =>
    refine ⟨?_, by rw [hhub, hpipeline, hs.dispatched]⟩
    obtain ⟨more, hmore⟩ := TcpIngest.handed_grows h
    rw [hcalled, hpipeline, ← hmore, List.drop_left, List.map_append, List.map_map]
    have hnew : (more.map fun c => (i, c)).map Prod.snd = more := by simp
    have hperm : (s.called.map Prod.snd ++ more ++ s.pipeline.accepted.map argsOf).Perm
        (s.called.map Prod.snd ++ s.pipeline.accepted.map argsOf ++ more) := by
      rw [List.append_assoc, List.append_assoc]
      exact List.Perm.append_left _ List.perm_append_comm
    rw [← List.map_map, hnew]
    exact hperm.subperm.trans ((List.subperm_append_right more).2 hs.called)
  | check i sentence key ts now hfind h hingest hhub hcalled =>
    have hperm := called_perm hfind
    have hlinked := hs.called
    obtain ⟨-, ⟨d, -, hp⟩ | ⟨d, -, hp⟩⟩ := Pipeline.step_check h
    · refine ⟨hingest ▸ List.Subperm.trans (List.Perm.subperm ?_) hlinked, by rw [hhub, hp, hs.dispatched]⟩
      rw [hcalled, hp, List.map_append, List.map_singleton, ← List.append_assoc]
      refine List.perm_append_comm.trans ?_
      exact hperm.symm.append_right _
    · refine ⟨hingest ▸ List.Subperm.trans ?_ hlinked, by rw [hhub, hp, hs.dispatched]⟩
      rw [hcalled, hp]
      exact (List.subperm_append_right _).2 ((List.sublist_cons_self _ _).subperm.trans hperm.symm.subperm)
  | pipeline e h haccepted hdispatched hcalls hingest hhub hcalled =>
    exact ⟨by rw [hcalled, haccepted, hingest]; exact hs.called, by rw [hhub, hdispatched]; exact hs.dispatched⟩
  | dispatch c h hdispatched haccepted hcalls hhub hingest hcalled =>
    refine ⟨by rw [hcalled, haccepted, hingest]; exact hs.called, ?_⟩
    obtain ⟨-, -, hu⟩ := Hub.step_dispatch hhub
    rw [hu, hdispatched, List.map_append, List.map_singleton, ← hs.dispatched]
  | hub e he h hpipeline hingest hcalled =>
    refine ⟨by rw [hcalled, hpipeline, hingest]; exact hs.called, ?_⟩
    rw [Hub.dispatched_step (by rintro _ rfl; cases he) h, hpipeline, hs.dispatched]

theorem linked_of_run {es : List ServerEvent}
    (h : run (step digest) (new C cfg ringSize startedAt queueSize) es = some s) : Linked s :=
  run_inv_of_step (fun _ _ _ hs hst => hs.step hst) linked_new h

/-- The calls that were dispatched while the worker was registered. -/
def window (s : Server C) (r : Ref) : List Call := (s.pipeline.dispatched.take (s.hub.leftAt r)).drop (s.hub.joinedAt r)

theorem Linked.window (hs : Linked s) (r : Ref) : s.hub.window r = (s.window r).map (·.sentence) := by
  rw [Hub.window, Server.window, hs.dispatched, List.map_drop, List.map_take]

theorem window_sublist (s : Server C) (r : Ref) : (s.window r).Sublist s.pipeline.dispatched :=
  (List.drop_sublist _ _).trans (List.take_sublist _ _)

theorem dispatched_subperm {es : List PipelineEvent}
    (h : run (Pipeline.step digest) (Pipeline.new C cfg ringSize startedAt) es = some s.pipeline) :
    s.pipeline.dispatched.Subperm s.pipeline.accepted := by
  have hs : Pipeline.Conserved cfg s.pipeline :=
    run_inv_of_step (fun _ _ _ hs hst => hs.step hst) (Pipeline.conserved_new cfg ringSize startedAt) h
  exact (List.sublist_append_right _ _).subperm.trans hs.placed.symm.subperm

theorem delivered_of_run {es : List ServerEvent}
    (h : run (step digest) (new C cfg ringSize startedAt queueSize) es = some s) {r : Ref} {l : Loop}
    (hr : s.hub.fleet.threads[r]? = some l) :
    ∃ sentences, l.Delivered sentences ∧ sentences.Subperm ((s.window r).map (·.sentence)) ∧
      ((∀ w, l ≠ .tcp w) → sentences.Sublist ((s.window r).map (·.sentence))) := by
  obtain ⟨hubEvents, hhub⟩ := hub_of_run h
  obtain ⟨loopEvents, hloop, hgiven⟩ := Hub.worker_of_run hhub hr
  obtain ⟨sentences, hdelivered, hsub, horder⟩ := (Loop.sound_of_run hloop).delivered
  -- what it was given is the beginning of its window
  have hwindow := (Hub.inv_of_run hhub).window r (List.getElem?_eq_some_iff.1 hr).1
  have hpre : (Loop.given loopEvents).Sublist ((s.window r).map (·.sentence)) := by
    rw [hgiven, ← (linked_of_run h).window r, ← hwindow]
    exact List.sublist_append_left _ _
  exact ⟨sentences, hdelivered, hsub.trans hpre.subperm, fun hw => (horder hw).trans hpre⟩

theorem subperm_map {α β : Type} (f : α → β) {l m : List α} (h : l.Subperm m) : (l.map f).Subperm (m.map f) := by
  obtain ⟨n, hperm, hsub⟩ := h
  exact ⟨n.map f, hperm.map f, hsub.map f⟩

theorem exists_of_subperm_map {α β : Type} {f : α → β} {l : List β} {m : List α} (h : l.Subperm (m.map f)) :
    ∃ l' : List α, l'.Subperm m ∧ l = l'.map f := by
  obtain ⟨n, hperm, hsub⟩ := h
  obtain ⟨n', hsub', rfl⟩ := List.sublist_map_iff.1 hsub
  have hmap : List.Forall₂ (fun a c => a = f c) (n'.map f) n' :=
    List.forall₂_map_left_iff.2 (List.forall₂_same.2 fun _ _ => rfl)
  obtain ⟨l', hl, hperm'⟩ := List.perm_comp_forall₂ hperm.symm hmap
  refine ⟨l', hperm'.subperm.trans hsub'.subperm, ?_⟩
  exact List.forall₂_eq_eq_eq ▸ List.forall₂_map_right_iff.2 hl

/-- What was dispatched was handed on by a session. -/
theorem dispatched_handed {es : List ServerEvent}
    (h : run (step digest) (new C cfg ringSize startedAt queueSize) es = some s) :
    (s.pipeline.dispatched.map argsOf).Subperm s.ingest.handed := by
  obtain ⟨pipelineEvents, hpipeline⟩ := pipeline_of_run h
  refine (subperm_map _ (dispatched_subperm hpipeline)).trans ?_
  exact (List.sublist_append_right _ _).subperm.trans (linked_of_run h).called

theorem handed_of_delivered {es : List ServerEvent}
    (h : run (step digest) (new C cfg ringSize startedAt queueSize) es = some s) {r : Ref} {sentences : List Str}
    (hsub : sentences.Subperm ((s.window r).map (·.sentence))) {sentence : Str} (hmem : sentence ∈ sentences) :
    ∃ call ∈ s.ingest.handed, call.1 = sentence := by
  obtain ⟨c, hc, rfl⟩ := List.mem_map.1 (hsub.subset hmem)
  exact ⟨argsOf c, (dispatched_handed h).subset (List.mem_map_of_mem ((s.window_sublist r).subset hc)), rfl⟩

end Server

/-- **From a node to an endpoint.**  In every run of the whole server, what a worker has sent are sentences of calls
that were dispatched while it was registered, each no more often than it was dispatched and but for TCP in the order of
the dispatches; each dispatched call is one sentence that a session handed on; and what is sent is what the server reads
from a line of a node, and is written as one line. -/
theorem endpoint_stream {es : List ServerEvent} {s : Server C}
    (h : run (Server.step digest) (Server.new C cfg ringSize startedAt queueSize) es = some s) {r : Ref} {l : Loop}
    (hr : s.hub.fleet.threads[r]? = some l) :
    (s.pipeline.dispatched.map Server.argsOf).Subperm s.ingest.handed ∧
    ∃ sentences, l.Delivered sentences ∧ sentences.Subperm ((s.window r).map (·.sentence)) ∧
      ((∀ w, l ≠ .tcp w) → sentences.Sublist ((s.window r).map (·.sentence))) ∧
      ∀ sentence ∈ sentences, (∃ raw, 10 ∉ raw ∧ accepted raw = some sentence) ∧
        ∃ line, 10 ∉ line ∧ wire sentence = line ++ [13, 10] := by
  obtain ⟨sentences, hdelivered, hsub, horder⟩ := Server.delivered_of_run h hr
  obtain ⟨ingestEvents, hingest⟩ := Server.ingest_of_run h
  refine ⟨Server.dispatched_handed h, sentences, hdelivered, hsub, horder, fun sentence hmem => ?_⟩
  obtain ⟨call, hcall, rfl⟩ := Server.handed_of_delivered h hsub hmem
  exact ⟨TcpIngest.handed_of_run hingest call hcall, wire_of_handed hingest call hcall⟩

/-- Two nodes report the same position, the second half a minute after the first. -/
def twoNodes : List ServerEvent :=
  [.hub (.fleet (.sync [stationOn 4001] [])), .hub (.fleet .next), .hub (.fleet .start), .hub (.fleet .start)] ++
    reports 0 "10.0.0.1".toList 100 ++ forwards 102 ++
    [.hub (.fleet (.loop 0 (.tcp .check))), .hub (.fleet (.loop 0 (.tcp (.connect .ok))))] ++ sends ++
    reports 1 "10.0.0.2".toList 131 ++ forwards 133 ++
    [.hub (.fleet (.loop 0 (.tcp .check)))] ++ sends
where
  reports (i : ℕ) (host : Str) (now : Time) : List ServerEvent :=
    [.ingest (.start host host now), .ingest (.recv i (reportLine ++ [10]) now), .ingest (.line i),
      .ingest (.upgrade i now), .ingest (.judge i now), .check i now, .push i now, .record i]
  forwards (now : Time) : List ServerEvent := [.popReady now, .dispatch, .hub .put, .hub .ret]
  sends : List ServerEvent := [.hub (.fleet (.loop 0 (.tcp .get))), .hub (.fleet (.loop 0 (.tcp (.send none 140))))]

theorem endpoint_stream_twoNodes :
    ∃ s l, run (Server.step id) (Server.new (refCache Str Time 10 30) ⟨30, 10, 2000, 3⟩ 500 100 9) twoNodes = some s ∧
      s.hub.fleet.threads[0]? = some l ∧
      ∃ sentences, l.Delivered sentences ∧ ∀ sentence ∈ sentences,
        (∃ raw, 10 ∉ raw ∧ accepted raw = some sentence) ∧ ∃ line, 10 ∉ line ∧ wire sentence = line ++ [13, 10] := by
  have hrun : ((run (Server.step id) (Server.new (refCache Str Time 10 30) ⟨30, 10, 2000, 3⟩ 500 100 9)
      twoNodes).bind fun s => s.hub.fleet.threads[0]?).isSome = true := by decide +kernel
  obtain ⟨l, hl⟩ := Option.isSome_iff_exists.1 hrun
  obtain ⟨s, hs, hl⟩ := Option.bind_eq_some_iff.1 hl
  obtain ⟨-, sentences, hdelivered, -, -, hlines⟩ := endpoint_stream hs hl
  exact ⟨s, l, hs, hl, sentences, hdelivered, hlines⟩

/-- **Repeats at an endpoint.**  While the window of the cache holds the accepted keys, the checks behind the copies of a
sentence that a worker has sent lie `ttlSeconds` apart, however they are spread over the nodes: between the first and
the last check of `n + 1` copies lie at least `n` times `ttlSeconds`. -/
theorem endpoint_repeats (D : Documented C cfg.maxEntries cfg.ttlSeconds) {es : List ServerEvent} {s : Server C}
    (h : run (Server.step digest) (Server.new C cfg ringSize startedAt queueSize) es = some s)
    (hw : Pipeline.Window digest cfg s.pipeline) {r : Ref} {l : Loop} (hr : s.hub.fleet.threads[r]? = some l) :
    ∃ calls : List Call, calls.Subperm (s.window r) ∧ l.Delivered (calls.map (·.sentence)) ∧
      ∀ canonical n, n < calls.countP (fun c => canonicalise c.sentence = canonical) →
        ∃ a ∈ calls, ∃ b ∈ calls, canonicalise a.sentence = canonical ∧ canonicalise b.sentence = canonical ∧
          a.checkedAt + n * cfg.ttlSeconds ≤ b.checkedAt := by
  obtain ⟨sentences, hdelivered, hsub, -⟩ := Server.delivered_of_run h hr
  obtain ⟨pipelineEvents, hpipeline⟩ := Server.pipeline_of_run h
  -- the calls behind what was sent, in the order of their checks
  obtain ⟨calls, hcalls, rfl⟩ := Server.exists_of_subperm_map hsub
  have haccepted : calls.Subperm s.pipeline.accepted :=
    hcalls.trans ((s.window_sublist r).subperm.trans (Server.dispatched_subperm hpipeline))
  obtain ⟨checked, hperm, hchecked⟩ := haccepted
  refine ⟨calls, hcalls, hdelivered, fun canonical n hn => ?_⟩
  set copies := checked.filter fun c => canonicalise c.sentence = canonical with hcopies
  have hspaced : Spaced (cfg.ttlSeconds : Time) (copies.map (·.checkedAt)) := by
    rw [Spaced, List.pairwise_map]
    refine List.Pairwise.imp_of_mem ?_ ((Pipeline.spaced_of_run (D := D) hpipeline hw).spaced.sublist
      (List.filter_sublist.trans hchecked))
    intro a b ha hb hab
    have hcanon : canonicalise a.sentence = canonicalise b.sentence := by
      rw [of_decide_eq_true (List.mem_filter.1 ha).2, of_decide_eq_true (List.mem_filter.1 hb).2]
    exact hab (by rw [dedupKey, dedupKey, hcanon])
  have hcount : n < (copies.map (·.checkedAt)).length := by
    rwa [List.length_map, hcopies, ← List.countP_eq_length_filter, hperm.countP_eq]
  obtain ⟨_, hfirst, _, hlast, hle⟩ := hspaced.exists_span hcount
  obtain ⟨a, ha, rfl⟩ := List.mem_map.1 hfirst
  obtain ⟨b, hb, rfl⟩ := List.mem_map.1 hlast
  obtain ⟨ha, hacanon⟩ := List.mem_filter.1 ha
  obtain ⟨hb, hbcanon⟩ := List.mem_filter.1 hb
  exact ⟨a, hperm.subset ha, b, hperm.subset hb, of_decide_eq_true hacanon, of_decide_eq_true hbcanon,
    nsmul_eq_mul n (cfg.ttlSeconds : Time) ▸ hle⟩

/-- What a TCP worker has sent. -/
def sentOverTcp : Loop → List Str
  | .tcp w => w.sent.map (·.sentence)
  | .udp _ | .http _ => []

theorem endpoint_repeats_twoNodes :
    ∃ s, run (Server.step id) (Server.new (refCache Str Time 10 30) ⟨30, 10, 2000, 3⟩ 500 100 9) twoNodes = some s ∧
      ∃ a ∈ s.window 0, ∃ b ∈ s.window 0, canonicalise a.sentence = canonicalise b.sentence ∧
        a.checkedAt + (1 : ℕ) * (30 : ℕ) ≤ b.checkedAt := by
  have hrun : (run (Server.step id) (Server.new (refCache Str Time 10 30) ⟨30, 10, 2000, 3⟩ 500 100 9)
      twoNodes).bind (fun s => (s.hub.fleet.threads[0]?).map fun l =>
        (sentOverTcp l, s.pipeline.accepted.length)) =
      some (List.replicate 2 "!AIVDM,1,1,,A,13aEOK?P00PD2wVMdLDRhgvL289?,0*26".toList, 2) := by decide +kernel
  obtain ⟨s, hs, hfacts⟩ := Option.bind_eq_some_iff.1 hrun
  obtain ⟨l, hl, hfacts⟩ := Option.map_eq_some_iff.1 hfacts
  obtain ⟨hsent, hlen⟩ := Prod.mk.inj hfacts
  have hw : Pipeline.Window id ⟨30, 10, 2000, 3⟩ s.pipeline := Pipeline.window_of_length (by rw [hlen]; decide)
  obtain ⟨calls, hcalls, hdelivered, hrepeats⟩ :=
    endpoint_repeats (refCache_documented Str Time 10 (30 : ℕ)) hs hw hl
  have hsentences : calls.map (·.sentence) = sentOverTcp l := by
    cases l with
    | tcp w => exact hdelivered
    | udp w => cases hsent
    | http w => cases hsent
  have hcopies : 1 < calls.countP fun c =>
      canonicalise c.sentence = canonicalise "!AIVDM,1,1,,A,13aEOK?P00PD2wVMdLDRhgvL289?,0*26".toList := by
    have hcount := congrArg (List.countP fun sentence =>
      canonicalise sentence = canonicalise "!AIVDM,1,1,,A,13aEOK?P00PD2wVMdLDRhgvL289?,0*26".toList) hsentences
    rw [List.countP_map, hsent] at hcount
    refine lt_of_lt_of_eq ?_ hcount.symm
    decide +kernel
  obtain ⟨a, ha, b, hb, hacanon, hbcanon, hle⟩ := hrepeats _ 1 hcopies
  exact ⟨s, hs, a, hcalls.subset ha, b, hcalls.subset hb, hacanon.trans hbcanon.symm, hle⟩

end AisServer.Main
