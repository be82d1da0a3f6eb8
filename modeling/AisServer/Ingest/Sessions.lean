import AisServer.Ingest.Lines
import AisServer.Ingest.Registry
import AisServer.Lib.Run

/-!
# The session threads

`TcpIngest.step` interleaves any number of `_ConnectionHandler` threads with each other and with the sweeps of
the maintenance loop.  A thread is cut where it calls a method of the registry, and before it reads
`info.source_id`, which it does without the lock.

A session keeps a key and a reference of its own: `key` is the variable of `run`, and `info` is the object
that `on_session_start` returned, which `run` passes to every line.

* `handed_of_run` — what any run hands on to the pipeline is the sentence of a line without a line feed.
-/

namespace AisServer.Ingest

open AisServer.Lib AisServer.Nmea

/-- Where a session thread stands. -/
inductive Pc
  | recv
  /-- In the loop over the lines of the buffer. -/
  | lines
  /-- The source id is not that of `info`: before `set_source_id`. -/
  | upgrade (sourceId sentence : Str)
  | judge (sentence : Str)
  | closing
  | closed
  deriving DecidableEq

/-- The sentence that a thread has in hand. -/
def Pc.sentence : Pc → Option Str
  | .upgrade _ sentence | .judge sentence => some sentence
  | .recv | .lines | .closing | .closed => none

structure Session where
  peer : Str
  host : Str
  info : Ref
  key : Str
  buf : List UInt8 := []
  pc : Pc := .recv

/-- Between `on_session_start` and `on_session_end`. -/
def Session.isOpen (x : Session) : Bool := x.pc ≠ .closed

/-- What the session has in hand was read from a line without a line feed. -/
def Session.HasRead (x : Session) : Prop :=
  ∀ q ∈ x.pc.sentence, ∃ raw sid, 10 ∉ raw ∧ readLine raw = some (q, sid)

structure TcpIngest where
  registry : NodeRegistry := Table.empty
  sessions : List Session := []
  /-- The calls of `on_sentence`: sentence, key and time. -/
  handed : List (Str × Str × Time) := []

/-- One step of the session `i`, a new session, or a sweep. -/
inductive IngestEvent
  | start (peer host : Str) (now : Time)
  | recv (i : ℕ) (data : List UInt8) (now : Time)
  /-- No data, a time-out or an error of the socket. -/
  | hangup (i : ℕ)
  | line (i : ℕ)
  | upgrade (i : ℕ) (now : Time)
  | judge (i : ℕ) (now : Time)
  | finish (i : ℕ)
  | prune (maxAge now : Time)

namespace TcpIngest

/-- `info.source_id` -/
def infoSourceId (s : TcpIngest) (x : Session) : Option Str :=
  (s.registry.objs[x.info]?).bind (·.sourceId)

/-- Where a line takes its thread: `if source_id and source_id != info.source_id`. -/
def afterRead (s : TcpIngest) (x : Session) (sentence : Str) : Option Str → Pc
  | none => .judge sentence
  | some id => if s.infoSourceId x = some id then .judge sentence else .upgrade id sentence

/-- A session after the next line of its buffer. -/
def takeLine (s : TcpIngest) (x : Session) : Session :=
  match split1 10 x.buf with
  | none => { x with pc := .recv }
  | some (raw, rest) =>
    match readLine raw with
    | none => { x with buf := rest }
    | some (sentence, sid) => { x with buf := rest, pc := s.afterRead x sentence sid }

/-- A step, `none` when the thread does not stand where the step starts. -/
def step (s : TcpIngest) : IngestEvent → Option TcpIngest
  | .start peer host now =>
    let r := s.registry.onSessionStart peer host none now
    some { s with
      registry := r.2, sessions := s.sessions ++ [{ peer, host, info := r.1, key := host }] }
  | .recv i data now =>
    match s.sessions[i]? with
    | none => none
    | some x =>
      if x.pc = .recv ∧ data ≠ [] then
        some { s with
          registry := s.registry.touch x.key data.length false false now
          sessions := s.sessions.set i { x with buf := x.buf ++ data, pc := .lines } }
      else none
  | .hangup i =>
    match s.sessions[i]? with
    | none => none
    | some x =>
      if x.pc = .recv then some { s with sessions := s.sessions.set i { x with pc := .closing } }
      else none
  | .line i =>
    match s.sessions[i]? with
    | none => none
    | some x =>
      if x.pc = .lines then some { s with sessions := s.sessions.set i (s.takeLine x) } else none
  | .upgrade i now =>
    match s.sessions[i]? with
    | none => none
    | some x =>
      match x.pc with
      | .upgrade sid sentence =>
        match s.registry.setSourceId x.key sid now with
        -- the `KeyError` ends the session, under the key it had
        | none => some { s with sessions := s.sessions.set i { x with pc := .closing } }
        | some (_, registry) =>
          some { s with
            registry, sessions := s.sessions.set i { x with key := sid, pc := .judge sentence } }
      | _ => none
  | .judge i now =>
    match s.sessions[i]? with
    | none => none
    | some x =>
      match x.pc with
      | .judge sentence =>
        let valid := wellFormed sentence
        some { s with
          registry := s.registry.touch x.key 0 valid (!valid) now
          sessions := s.sessions.set i { x with pc := .lines }
          handed := if valid then s.handed ++ [(sentence, x.key, now)] else s.handed }
      | _ => none
  | .finish i =>
    match s.sessions[i]? with
    | none => none
    | some x =>
      if x.pc = .closing then
        some { s with
          registry := s.registry.onSessionEnd x.key
          sessions := s.sessions.set i { x with pc := .closed } }
      else none
  | .prune maxAge now => some { s with registry := (s.registry.pruneInactive maxAge now).2 }

/-! ### What a step can do -/

theorem getElem?_concat_cases {α : Type} {l : List α} {a b : α} {j : ℕ} (h : (l ++ [a])[j]? = some b) :
    l[j]? = some b ∨ j = l.length ∧ b = a := by
  have hlt := (List.getElem?_eq_some_iff.1 h).1
  rw [List.length_append, List.length_singleton] at hlt
  rcases Nat.lt_succ_iff_lt_or_eq.1 hlt with hj | rfl
  · rw [List.getElem?_append_left hj] at h
    exact Or.inl h
  · rw [List.getElem?_concat_length] at h
    exact Or.inr ⟨rfl, (Option.some.inj h).symm⟩

variable {s t : TcpIngest} {i : ℕ} {now : Time} {data : List UInt8}

theorem step_recv (h : s.step (.recv i data now) = some t) :
    ∃ x, s.sessions[i]? = some x ∧ x.pc = .recv ∧ data ≠ [] ∧ t = { s with
      registry := s.registry.touch x.key data.length false false now
      sessions := s.sessions.set i { x with buf := x.buf ++ data, pc := .lines } } := by
  rw [step] at h
  rcases hx : s.sessions[i]? with _ | x
  · simp [hx] at h
  · by_cases hc : x.pc = .recv ∧ data ≠ []
    · simp only [hx, if_pos hc, Option.some.injEq] at h
      exact ⟨x, rfl, hc.1, hc.2, h.symm⟩
    · simp [hx, if_neg hc] at h

theorem step_hangup (h : s.step (.hangup i) = some t) :
    ∃ x, s.sessions[i]? = some x ∧ x.pc = .recv ∧
      t = { s with sessions := s.sessions.set i { x with pc := .closing } } := by
  rw [step] at h
  rcases hx : s.sessions[i]? with _ | x
  · simp [hx] at h
  · by_cases hc : x.pc = .recv
    · simp only [hx, if_pos hc, Option.some.injEq] at h
      exact ⟨x, rfl, hc, h.symm⟩
    · simp [hx, if_neg hc] at h

theorem step_line (h : s.step (.line i) = some t) :
    ∃ x, s.sessions[i]? = some x ∧ x.pc = .lines ∧
      t = { s with sessions := s.sessions.set i (s.takeLine x) } := by
  rw [step] at h
  rcases hx : s.sessions[i]? with _ | x
  · simp [hx] at h
  · by_cases hc : x.pc = .lines
    · simp only [hx, if_pos hc, Option.some.injEq] at h
      exact ⟨x, rfl, hc, h.symm⟩
    · simp [hx, if_neg hc] at h

theorem step_upgrade (h : s.step (.upgrade i now) = some t) :
    ∃ x sid sentence, s.sessions[i]? = some x ∧ x.pc = .upgrade sid sentence ∧
      ((s.registry.setSourceId x.key sid now = none ∧
        t = { s with sessions := s.sessions.set i { x with pc := .closing } }) ∨
      ∃ r registry, s.registry.setSourceId x.key sid now = some (r, registry) ∧
        t = { s with
          registry, sessions := s.sessions.set i { x with key := sid, pc := .judge sentence } }) := by
  rw [step] at h
  rcases hx : s.sessions[i]? with _ | x
  · simp [hx] at h
  · simp only [hx] at h
    split at h
    · rename_i sid sentence hpc
      refine ⟨x, sid, sentence, rfl, hpc, ?_⟩
      split at h
      · rename_i hset
        exact Or.inl ⟨hset, (Option.some.inj h).symm⟩
      · rename_i r registry hset
        exact Or.inr ⟨r, registry, hset, (Option.some.inj h).symm⟩
    · cases h

theorem step_judge (h : s.step (.judge i now) = some t) :
    ∃ x sentence, s.sessions[i]? = some x ∧ x.pc = .judge sentence ∧ t = { s with
      registry := s.registry.touch x.key 0 (wellFormed sentence) (!wellFormed sentence) now
      sessions := s.sessions.set i { x with pc := .lines }
      handed := if wellFormed sentence then s.handed ++ [(sentence, x.key, now)] else s.handed } := by
  rw [step] at h
  rcases hx : s.sessions[i]? with _ | x
  · simp [hx] at h
  · simp only [hx] at h
    split at h
    · rename_i sentence hpc
      exact ⟨x, sentence, rfl, hpc, (Option.some.inj h).symm⟩
    · cases h

theorem step_finish (h : s.step (.finish i) = some t) :
    ∃ x, s.sessions[i]? = some x ∧ x.pc = .closing ∧ t = { s with
      registry := s.registry.onSessionEnd x.key
      sessions := s.sessions.set i { x with pc := .closed } } := by
  rw [step] at h
  rcases hx : s.sessions[i]? with _ | x
  · simp [hx] at h
  · by_cases hc : x.pc = .closing
    · simp only [hx, if_pos hc, Option.some.injEq] at h
      exact ⟨x, rfl, hc, h.symm⟩
    · simp [hx, if_neg hc] at h

theorem takeLine_key (s : TcpIngest) (x : Session) : (s.takeLine x).key = x.key := by
  unfold takeLine
  split
  · rfl
  · split <;> rfl

theorem takeLine_pc {x : Session} (hx : x.pc = .lines) : (s.takeLine x).pc ≠ .closed := by
  unfold takeLine
  split
  · exact Pc.noConfusion
  · split
    · exact fun hc => Pc.noConfusion (hx.symm.trans hc)
    · rename_i sentence sid _
      show s.afterRead x sentence sid ≠ .closed
      unfold afterRead
      split
      · exact Pc.noConfusion
      · split <;> exact Pc.noConfusion

theorem afterRead_ne_recv {x : Session} {sentence : Str} {sid : Option Str} :
    s.afterRead x sentence sid ≠ .recv := by
  unfold afterRead
  split
  · exact Pc.noConfusion
  · split <;> exact Pc.noConfusion

/-! ### Where the sentences come from -/

theorem afterRead_sentence (s : TcpIngest) (x : Session) (sentence : Str) (sid : Option Str) :
    (s.afterRead x sentence sid).sentence = some sentence := by
  unfold afterRead
  split
  · rfl
  · split <;> rfl

theorem takeLine_hasRead {x : Session} (hx : x.HasRead) : (s.takeLine x).HasRead := by
  unfold takeLine
  split
  · rintro q ⟨⟩
  · rename_i raw rest hsplit
    split
    · exact hx
    · rename_i sentence sid hread
      intro q hq
      have hq : some sentence = some q := (s.afterRead_sentence x sentence sid).symm.trans hq
      obtain rfl := Option.some.inj hq
      exact ⟨raw, sid, (split1_eq_some.1 hsplit).2, hread⟩

theorem handed_grows {e : IngestEvent} (h : s.step e = some t) : s.handed <+: t.handed := by
  cases e with
  | start peer host now => obtain rfl := Option.some.inj h; exact List.prefix_rfl
  | recv i data now => obtain ⟨x, -, -, -, rfl⟩ := step_recv h; exact List.prefix_rfl
  | hangup i => obtain ⟨x, -, -, rfl⟩ := step_hangup h; exact List.prefix_rfl
  | line i => obtain ⟨x, -, -, rfl⟩ := step_line h; exact List.prefix_rfl
  | upgrade i now =>
    obtain ⟨x, sid, sentence, -, -, ⟨-, rfl⟩ | ⟨r, registry, -, rfl⟩⟩ := step_upgrade h <;> exact List.prefix_rfl
  | judge i now =>
    obtain ⟨x, sentence, -, -, rfl⟩ := step_judge h
    by_cases hw : wellFormed sentence = true
    · simp only [if_pos hw]
      exact List.prefix_append _ _
    · simp only [if_neg hw]
      exact List.prefix_rfl
  | finish i => obtain ⟨x, -, -, rfl⟩ := step_finish h; exact List.prefix_rfl
  | prune maxAge now => obtain rfl := Option.some.inj h; exact List.prefix_rfl

/-- What the sessions have in hand and what they handed on comes from lines. -/
structure FromLines (s : TcpIngest) : Prop where
  hasRead : ∀ x ∈ s.sessions, x.HasRead
  handed : ∀ p ∈ s.handed, ∃ raw, 10 ∉ raw ∧ accepted raw = some p.1

theorem fromLines_start : FromLines {} where
  hasRead := by simp
  handed := by simp

theorem FromLines.set (hs : FromLines s) {x' : Session} (hx' : x'.HasRead) (g : NodeRegistry) :
    FromLines { s with registry := g, sessions := s.sessions.set i x' } := by
  refine ⟨fun x hx => ?_, hs.handed⟩
  rcases List.mem_or_eq_of_mem_set hx with hx | rfl
  · exact hs.hasRead x hx
  · exact hx'

theorem FromLines.step {e : IngestEvent} (hs : FromLines s) (h : s.step e = some t) : FromLines t := by
  have hnone : ∀ {x : Session}, x.pc.sentence = none → x.HasRead := by
    intro x hx q hq
    rw [hx] at hq
    cases hq
  cases e with
  | start peer host now =>
    obtain rfl := Option.some.inj h
    refine ⟨fun x hx => ?_, hs.handed⟩
    rcases List.mem_append.1 hx with hx | hx
    · exact hs.hasRead x hx
    · obtain rfl := List.mem_singleton.1 hx
      exact hnone rfl
  | recv i data now =>
    obtain ⟨x, -, -, -, rfl⟩ := step_recv h
    exact hs.set (hnone rfl) _
  | hangup i =>
    obtain ⟨x, -, -, rfl⟩ := step_hangup h
    exact hs.set (hnone rfl) _
  | line i =>
    obtain ⟨x, hx, -, rfl⟩ := step_line h
    exact hs.set (takeLine_hasRead (hs.hasRead x (List.mem_of_getElem? hx))) _
  | upgrade i now =>
    obtain ⟨x, sid, sentence, hx, hpc, ⟨-, rfl⟩ | ⟨r, registry, -, rfl⟩⟩ := step_upgrade h
    · exact hs.set (hnone rfl) _
    · refine hs.set (fun q hq => hs.hasRead x (List.mem_of_getElem? hx) q ?_) _
      rw [hpc]
      exact hq
  | judge i now =>
    obtain ⟨x, sentence, hx, hpc, rfl⟩ := step_judge h
    refine ⟨(hs.set (i := i) (hnone (x := { x with pc := .lines }) rfl) s.registry).hasRead,
      fun p hp => ?_⟩
    by_cases hw : wellFormed sentence = true
    · simp only [if_pos hw] at hp
      rcases List.mem_append.1 hp with hp | hp
      · exact hs.handed p hp
      · obtain rfl := List.mem_singleton.1 hp
        obtain ⟨raw, sid, hraw, hread⟩ :=
          hs.hasRead x (List.mem_of_getElem? hx) sentence (by rw [hpc]; rfl)
        exact ⟨raw, hraw, accepted_eq_some.2 ⟨⟨sid, hread⟩, hw⟩⟩
    · simp only [if_neg hw] at hp
      exact hs.handed p hp
  | finish i =>
    obtain ⟨x, -, -, rfl⟩ := step_finish h
    exact hs.set (hnone rfl) _
  | prune maxAge now =>
    obtain rfl := Option.some.inj h
    exact ⟨hs.hasRead, hs.handed⟩

/-- Every sentence that was handed on is the sentence of a line. -/
theorem handed_of_run {es : List IngestEvent} (h : run TcpIngest.step {} es = some s) :
    ∀ p ∈ s.handed, ∃ raw, 10 ∉ raw ∧ accepted raw = some p.1 :=
  (run_inv_of_step (I := FromLines) (fun _ _ _ hs h => hs.step h) fromLines_start h).handed

end TcpIngest

end AisServer.Ingest
