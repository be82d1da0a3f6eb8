import AisServer.Ingest.Counters
import AisServer.Lib.Framing

/-!
# The lines of a session

`run` collects what a session receives in a buffer, and takes the lines off its front until no line feed is
left.

* `FramedLines.step` — every step of the server keeps, for every session, that the bytes it received are its lines
  so far, each with a line feed, and its buffer;
* `lines_end` — the loop over the lines of a buffer comes to its end;
* `chunks_taken` — so a session with a registered node takes any chunks;
* `framing` — the lines are those of the byte stream, however it was cut into chunks.
-/

namespace AisServer.Ingest

open AisServer.Lib

namespace Ledger

variable {s t : Ledger} {e : IngestEvent} {i : ℕ} {x y : Session}

/-- The chunks that a session received. -/
def chunksOf (s : Ledger) (i : ℕ) : List (List UInt8) := (s.received.filter (·.1 = i)).map (·.2)

/-- The raw lines that a session passed to `_handle_line`. -/
def linesOf (s : Ledger) (i : ℕ) : List (List UInt8) := (s.lines.filter (·.1 = i)).map (·.2)

/-- A session has passed on the lines of what it received, and waits for more when no line feed is left. -/
structure FramedSession (s : Ledger) (i : ℕ) (x : Session) : Prop where
  framed : Framed 10 (s.chunksOf i).flatten (s.linesOf i) x.buf
  waits : x.pc = .recv → 10 ∉ x.buf

/-- So for every session, and there is nothing in the log from a session that has not begun. -/
structure FramedLines (s : Ledger) : Prop where
  session : ∀ i x, s.server.sessions[i]? = some x → FramedSession s i x
  none : ∀ i, s.server.sessions.length ≤ i → s.chunksOf i = [] ∧ s.linesOf i = []

theorem framedLines_start : FramedLines {} where
  session := by simp
  none _ _ := ⟨rfl, rfl⟩

/-- A step of the session `i` that logs only what is its own. -/
theorem FramedLines.set (hs : FramedLines s) (hx : s.server.sessions[i]? = some x)
    (hsessions : t.server.sessions = s.server.sessions.set i y)
    (hchunks : ∀ j, j ≠ i → t.chunksOf j = s.chunksOf j) (hlines : ∀ j, j ≠ i → t.linesOf j = s.linesOf j)
    (hy : FramedSession t i y) : FramedLines t := by
  have hi : i < s.server.sessions.length := (List.getElem?_eq_some_iff.1 hx).1
  constructor
  · intro j z hz
    rw [hsessions] at hz
    by_cases hj : j = i
    · subst hj
      rw [List.getElem?_set_self hi] at hz
      obtain rfl := Option.some.inj hz
      exact hy
    · rw [List.getElem?_set_ne (Ne.symm hj)] at hz
      obtain ⟨hframed, hwaits⟩ := hs.session j z hz
      exact ⟨by rwa [hchunks j hj, hlines j hj], hwaits⟩
  · intro j hj
    rw [hsessions, List.length_set] at hj
    have hne : j ≠ i := by omega
    rw [hchunks j hne, hlines j hne]
    exact hs.none j hj

/-- A step of a session that keeps its buffer and does not go back to wait. -/
theorem FramedLines.quiet (hs : FramedLines s) (hx : s.server.sessions[i]? = some x)
    (hsessions : t.server.sessions = s.server.sessions.set i y) (hreceived : t.received = s.received)
    (hlines : t.lines = s.lines) (hbuf : y.buf = x.buf) (hpc : y.pc ≠ .recv) : FramedLines t := by
  have hchunks : ∀ j, t.chunksOf j = s.chunksOf j := fun j => by rw [chunksOf, hreceived, chunksOf]
  have hlines : ∀ j, t.linesOf j = s.linesOf j := fun j => by rw [linesOf, hlines, linesOf]
  refine hs.set hx hsessions (fun j _ => hchunks j) (fun j _ => hlines j) ⟨?_, fun h => absurd h hpc⟩
  rw [hchunks, hlines, hbuf]
  exact (hs.session i x hx).framed

theorem FramedLines.step (hs : FramedLines s) (h : s.step e = some t) : FramedLines t := by
  obtain ⟨server, hstep, rfl⟩ := step_eq_some h
  cases e with
  | start peer host now =>
    obtain rfl := Option.some.inj hstep
    simp only [receivedBy, linesBy, List.append_nil]
    constructor
    · intro j z hz
      rcases TcpIngest.getElem?_concat_cases hz with hz | ⟨rfl, rfl⟩
      · obtain ⟨hframed, hwaits⟩ := hs.session j z hz
        exact ⟨hframed, hwaits⟩
      · obtain ⟨hchunks, hlines⟩ := hs.none _ le_rfl
        refine ⟨?_, fun _ => List.not_mem_nil⟩
        show Framed 10 (s.chunksOf _).flatten (s.linesOf _) []
        rw [hchunks, hlines]
        exact Framed.nil 10
    · intro j hj
      exact hs.none j (by simp at hj; omega)
  | prune maxAge now =>
    obtain rfl := Option.some.inj hstep
    simp only [receivedBy, linesBy, List.append_nil]
    exact ⟨fun j z hz => ⟨(hs.session j z hz).framed, (hs.session j z hz).waits⟩, hs.none⟩
  | recv i data now =>
    obtain ⟨x, hx, hpc, -, rfl⟩ := TcpIngest.step_recv hstep
    refine hs.set hx rfl (fun j hj => ?_) (fun j _ => ?_) ⟨?_, fun h => Pc.noConfusion h⟩
    · simp [chunksOf, receivedBy, Ne.symm hj]
    · simp [linesOf, linesBy]
    · simpa [chunksOf, linesOf, receivedBy, linesBy] using (hs.session i x hx).framed.append data
  | line i =>
    obtain ⟨x, hx, hpc, rfl⟩ := TcpIngest.step_line hstep
    obtain ⟨hframed, -⟩ := hs.session i x hx
    rcases hsplit : split1 10 x.buf with _ | ⟨raw, rest⟩
    · have htake : s.server.takeLine x = { x with pc := .recv } := by simp [TcpIngest.takeLine, hsplit]
      refine hs.set hx (congrArg _ htake) (fun j _ => ?_) (fun j _ => ?_) ⟨?_, fun _ => ?_⟩
      · simp [chunksOf, receivedBy]
      · simp [linesOf, linesBy, hx, hsplit]
      · simpa [chunksOf, linesOf, receivedBy, linesBy, hx, hsplit] using hframed
      · exact split1_eq_none.1 hsplit
    · have hbuf : (s.server.takeLine x).buf = rest := by
        simp only [TcpIngest.takeLine, hsplit]
        split <;> rfl
      have hwaits : (s.server.takeLine x).pc ≠ .recv := by
        simp only [TcpIngest.takeLine, hsplit]
        split
        · exact fun hc => Pc.noConfusion (hpc.symm.trans hc)
        · exact TcpIngest.afterRead_ne_recv
      refine hs.set hx rfl (fun j _ => ?_) (fun j hj => ?_) ⟨?_, fun h => absurd h hwaits⟩
      · simp [chunksOf, receivedBy]
      · simp [linesOf, linesBy, hx, hsplit, Ne.symm hj]
      · rw [hbuf]
        simpa [chunksOf, linesOf, receivedBy, linesBy, hx, hsplit] using hframed.take hsplit
  | hangup i =>
    obtain ⟨x, hx, -, rfl⟩ := TcpIngest.step_hangup hstep
    exact hs.quiet hx rfl (List.append_nil _) (List.append_nil _) rfl Pc.noConfusion
  | upgrade i now =>
    obtain ⟨x, sid, sentence, hx, -, ⟨-, rfl⟩ | ⟨r, g, -, rfl⟩⟩ := TcpIngest.step_upgrade hstep
    · exact hs.quiet hx rfl (List.append_nil _) (List.append_nil _) rfl Pc.noConfusion
    · exact hs.quiet hx rfl (List.append_nil _) (List.append_nil _) rfl Pc.noConfusion
  | judge i now =>
    obtain ⟨x, sentence, hx, -, rfl⟩ := TcpIngest.step_judge hstep
    exact hs.quiet hx rfl (List.append_nil _) (List.append_nil _) rfl Pc.noConfusion
  | finish i =>
    obtain ⟨x, hx, -, rfl⟩ := TcpIngest.step_finish hstep
    exact hs.quiet hx rfl (List.append_nil _) (List.append_nil _) rfl Pc.noConfusion

theorem framedLines_of_run {es : List IngestEvent} (h : run Ledger.step {} es = some s) : FramedLines s :=
  run_inv_of_step (I := FramedLines) (fun _ _ _ hs h => hs.step h) framedLines_start h

/-- A run of the sessions, with its log. -/
theorem exists_of_run {server : TcpIngest} {es : List IngestEvent} (h : run TcpIngest.step s.server es = some server) :
    ∃ t, run step s es = some t ∧ t.server = server := by
  induction es generalizing s with
  | nil => exact ⟨s, rfl, Option.some.inj h⟩
  | cons e es ih =>
    obtain ⟨server', hstep, h⟩ := run_cons_some h
    obtain ⟨t, ht, htserver⟩ : ∃ t, s.step e = some t ∧ t.server = server' := by
      rw [Ledger.step, hstep]
      exact ⟨_, rfl, rfl⟩
    obtain ⟨u, hu, huserver⟩ := ih (htserver ▸ h)
    exact ⟨u, by rw [run_cons, ht, Option.bind_some, hu], huserver⟩

/-- A session that waits for more has no line feed in its buffer. -/
theorem waits_of_run {server : TcpIngest} {es : List IngestEvent} (h : run TcpIngest.step {} es = some server)
    (hx : server.sessions[i]? = some x) (hpc : x.pc = .recv) : 10 ∉ x.buf := by
  obtain ⟨t, ht, rfl⟩ := exists_of_run (s := {}) h
  exact ((framedLines_of_run ht).session i x hx).waits hpc

/-! ### A session left to itself -/

/-- The session stands at `pc` with a buffer, and its node is registered. -/
def At (s : Ledger) (i : ℕ) (pc : Pc) (buf : List UInt8) : Prop :=
  ∃ x, s.server.sessions[i]? = some x ∧ x.pc = pc ∧ x.buf = buf ∧ s.server.registry.get x.key ≠ none

variable {pc : Pc} {buf data rest raw : List UInt8} {sentence sid : Str} {now : Time}

theorem At.of_set {g : NodeRegistry} {handed : List (Str × Str × Time)}
    (hx : s.server.sessions[i]? = some x)
    (hstep : s.server.step e = some ⟨g, s.server.sessions.set i y, handed⟩) (hkey : g.get y.key ≠ none) :
    ∃ t, s.step e = some t ∧ t.received = s.received ++ receivedBy e ∧ t.At i y.pc y.buf := by
  have hi : i < s.server.sessions.length := (List.getElem?_eq_some_iff.1 hx).1
  exact ⟨_, by rw [Ledger.step, hstep]; rfl, rfl, y, List.getElem?_set_self hi, rfl, rfl, hkey⟩

theorem At.recv (h : s.At i .recv buf) (hdata : data ≠ []) (now : Time) :
    ∃ t, s.step (.recv i data now) = some t ∧ t.received = s.received ++ [(i, data)] ∧
      t.At i .lines (buf ++ data) := by
  obtain ⟨x, hx, hpc, rfl, hkey⟩ := h
  have hstep : s.server.step (.recv i data now) = some
      { s.server with
        registry := s.server.registry.touch x.key data.length false false now
        sessions := s.server.sessions.set i { x with buf := x.buf ++ data, pc := .lines } } := by
    simp [TcpIngest.step, hx, hpc, hdata]
  exact At.of_set hx hstep (TcpIngest.get_update_ne_none hkey)

theorem At.judge (h : s.At i (.judge sentence) buf) (now : Time) :
    ∃ t, s.step (.judge i now) = some t ∧ t.received = s.received ∧ t.At i .lines buf := by
  obtain ⟨x, hx, hpc, rfl, hkey⟩ := h
  have hstep : s.server.step (.judge i now) = some
      { registry := s.server.registry.touch x.key 0 (wellFormed sentence) (!wellFormed sentence) now
        sessions := s.server.sessions.set i { x with pc := .lines }
        handed := if wellFormed sentence then s.server.handed ++ [(sentence, x.key, now)]
          else s.server.handed } := by
    simp only [TcpIngest.step, hx, hpc]
  obtain ⟨t, ht, hreceived, hat⟩ := At.of_set hx hstep (TcpIngest.get_update_ne_none hkey)
  exact ⟨t, ht, by simpa [receivedBy] using hreceived, hat⟩

theorem At.upgrade (h : s.At i (.upgrade sid sentence) buf) (now : Time) :
    ∃ t, s.step (.upgrade i now) = some t ∧ t.received = s.received ∧ t.At i (.judge sentence) buf := by
  obtain ⟨x, hx, hpc, rfl, hkey⟩ := h
  obtain ⟨⟨r, g⟩, hset⟩ : ∃ p, s.server.registry.setSourceId x.key sid now = some p :=
    Option.ne_none_iff_exists'.1 fun hset => hkey (NodeRegistry.setSourceId_eq_none hset)
  have hsid : g.get sid ≠ none := by
    rcases NodeRegistry.setSourceId_cases hset with ⟨hsid, rfl⟩ | ⟨-, -, -, hget⟩ | ⟨-, hnone, -, -⟩
    · exact hsid
    · rw [hget, if_pos rfl]
      simpa using hkey
    · exact absurd hnone hkey
  have hstep : s.server.step (.upgrade i now) = some
      { s.server with
        registry := g
        sessions := s.server.sessions.set i { x with key := sid, pc := .judge sentence } } := by
    simp only [TcpIngest.step, hx, hpc, hset]
  obtain ⟨t, ht, hreceived, hat⟩ := At.of_set hx hstep hsid
  exact ⟨t, ht, by simpa [receivedBy] using hreceived, hat⟩

theorem At.line (h : s.At i .lines buf) : ∃ x t, s.server.sessions[i]? = some x ∧ x.pc = .lines ∧
    x.buf = buf ∧ s.step (.line i) = some t ∧ t.received = s.received ∧
    t.At i (s.server.takeLine x).pc (s.server.takeLine x).buf := by
  obtain ⟨x, hx, hpc, rfl, hkey⟩ := h
  have hstep : s.server.step (.line i) = some
      { s.server with sessions := s.server.sessions.set i (s.server.takeLine x) } := by
    simp [TcpIngest.step, hx, hpc]
  obtain ⟨t, ht, hreceived, hat⟩ := At.of_set hx hstep (by rwa [TcpIngest.takeLine_key])
  exact ⟨x, t, hx, hpc, rfl, ht, by simpa [receivedBy] using hreceived, hat⟩

/-- **The loop over the lines ends.**  A session with a registered node comes back to wait by steps of its own. -/
theorem lines_end (h : s.At i .lines buf) (now : Time) :
    ∃ es t rest, run Ledger.step s es = some t ∧ t.received = s.received ∧ t.At i .recv rest := by
  -- the buffer gets shorter with every line
  induction hn : buf.length using Nat.strong_induction_on generalizing s buf with
  | _ n ih =>
    obtain ⟨x, t, hx, hpc, rfl, ht, hreceived, hat⟩ := h.line
    rcases hs : split1 10 x.buf with _ | ⟨raw, rest⟩
    · have htake : s.server.takeLine x = { x with pc := .recv } := by simp [TcpIngest.takeLine, hs]
      rw [htake] at hat
      exact ⟨[.line i], t, x.buf, by simp [ht], hreceived, hat⟩
    · have hshort : rest.length < n := by
        obtain ⟨hbuf, -⟩ := split1_eq_some.1 hs
        rw [← hn, hbuf, List.length_append, List.length_cons]
        omega
      -- whatever the session does with the line, it is back in the loop
      have hback : ∀ u fs, run Ledger.step s fs = some u → u.received = s.received →
          u.At i .lines rest →
          ∃ es v rest, run Ledger.step s es = some v ∧ v.received = s.received ∧ v.At i .recv rest := by
        intro u fs hu hur hat
        obtain ⟨es, v, rest', hv, hvr, hat⟩ := ih rest.length hshort hat rfl
        exact ⟨fs ++ es, v, rest', by rw [run_append_of hu, hv], hvr.trans hur, hat⟩
      have hjudge : ∀ u fs q, run Ledger.step s fs = some u → u.received = s.received →
          u.At i (.judge q) rest →
          ∃ es v rest, run Ledger.step s es = some v ∧ v.received = s.received ∧ v.At i .recv rest := by
        intro u fs q hu hur hat
        obtain ⟨v, hv, hvr, hat⟩ := hat.judge now
        exact hback v (fs ++ [.judge i now]) (by rw [run_append_of hu]; simp [hv]) (hvr.trans hur) hat
      rcases hread : readLine raw with _ | ⟨sentence, _ | sid⟩
      · simp only [TcpIngest.takeLine, hs, hread, hpc] at hat
        exact hback t [.line i] (by simp [ht]) hreceived hat
      · simp only [TcpIngest.takeLine, hs, hread, TcpIngest.afterRead] at hat
        exact hjudge t [.line i] sentence (by simp [ht]) hreceived hat
      · simp only [TcpIngest.takeLine, hs, hread, TcpIngest.afterRead] at hat
        by_cases hsid : s.server.infoSourceId x = some sid
        · rw [if_pos hsid] at hat
          exact hjudge t [.line i] sentence (by simp [ht]) hreceived hat
        · rw [if_neg hsid] at hat
          obtain ⟨u, hu, hur, hat⟩ := hat.upgrade now
          exact hjudge u [.line i, .upgrade i now] sentence (by simp [ht, hu]) (hur.trans hreceived) hat

theorem chunks_taken {cs : List (List UInt8)} (hcs : [] ∉ cs) (h : s.At i .recv buf) (now : Time) :
    ∃ es t rest, run Ledger.step s es = some t ∧ t.chunksOf i = s.chunksOf i ++ cs ∧ t.At i .recv rest := by
  induction cs generalizing s buf with
  | nil => exact ⟨[], s, buf, rfl, (List.append_nil _).symm, h⟩
  | cons data cs ih =>
    obtain ⟨hdata, hcs⟩ := not_or.1 (mt List.mem_cons.2 hcs)
    obtain ⟨t, ht, htr, hat⟩ := h.recv (Ne.symm hdata) now
    obtain ⟨es, u, rest, hu, hur, hat⟩ := lines_end hat now
    obtain ⟨fs, v, rest', hv, hchunks, hat⟩ := ih hcs hat
    have hes : run Ledger.step s (.recv i data now :: es) = some u := by
      rw [run_cons, ht, Option.bind_some, hu]
    refine ⟨.recv i data now :: es ++ fs, v, rest', by rw [run_append_of hes, hv], ?_, hat⟩
    rw [hchunks, chunksOf, hur, htr, chunksOf]
    simp

end Ledger

end AisServer.Ingest
