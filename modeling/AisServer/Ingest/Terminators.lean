import AisServer.Ingest.Framing

/-!
# Line terminators

`run` cuts what a session receives at the line feeds, and `_handle_line` trims the lines.  A carriage return
before a line feed goes with the trimming; a carriage return alone is no cut.

* `Delivery` — the server with the sentences that its sessions handed on, each with the number of the session;
* `Delivered.step` — every step keeps, for every session, that what it handed on and what it rejected are the
  sentences of its lines so far;
* `terminators` — so a stream of valid sentences is handed on exactly when no carriage return stands alone.
-/

namespace AisServer.Ingest

open AisServer.Lib AisServer.Nmea

/-- The log of the sessions, with the calls of `on_sentence` by each of them. -/
structure Delivery where
  ledger : Ledger := {}
  calls : List (ℕ × Str) := []

namespace Delivery

/-- The sentence that a step hands on. -/
def callsBy (s : TcpIngest) : IngestEvent → List (ℕ × Str)
  | .judge i _ => ((s.sessions[i]?.bind fun x => x.pc.sentence).filter fun q => wellFormed q).toList.map
      fun q => (i, q)
  | _ => []

def step (s : Delivery) (e : IngestEvent) : Option Delivery :=
  (s.ledger.step e).map fun ledger => { ledger, calls := s.calls ++ callsBy s.ledger.server e }

/-- What a log says of a session. -/
def ofSession {β : Type} (log : List (ℕ × β)) (i : ℕ) : List β := (log.filter (·.1 = i)).map (·.2)

/-- The sentences that a session handed on. -/
def callsOf (s : Delivery) (i : ℕ) : List Str := ofSession s.calls i

/-- The sentences that a session counted as invalid. -/
def rejectedOf (s : Delivery) (i : ℕ) : List Str := ofSession s.ledger.rejected i

/-- The sentences of the lines that a session took. -/
def sentencesOf (s : Delivery) (i : ℕ) : List Str :=
  (s.ledger.linesOf i).filterMap fun raw => (readLine raw).map (·.1)

/-- Until its end a session has judged the sentences of its lines, but for the one in hand. -/
def Judged (s : Delivery) (i : ℕ) (x : Session) : Prop :=
  x.pc ≠ .closing → x.pc ≠ .closed →
    (s.sentencesOf i).filter wellFormed = s.callsOf i ++ x.pc.sentence.toList.filter wellFormed ∧
    (s.sentencesOf i).filter (fun q => !wellFormed q) =
      s.rejectedOf i ++ x.pc.sentence.toList.filter fun q => !wellFormed q

/-- So for every session, there is nothing from a session that has not begun, and the calls are those of the
server. -/
structure Delivered (s : Delivery) : Prop where
  session : ∀ i x, s.ledger.server.sessions[i]? = some x → s.Judged i x
  none : ∀ i, s.ledger.server.sessions.length ≤ i →
    s.sentencesOf i = [] ∧ s.callsOf i = [] ∧ s.rejectedOf i = []
  handed : s.calls.map (·.2) = s.ledger.server.handed.map (·.1)

variable {s t : Delivery} {e : IngestEvent} {i j : ℕ} {x y : Session}

theorem ofSession_append {β : Type} (log more : List (ℕ × β)) (i : ℕ) :
    ofSession (log ++ more) i = ofSession log i ++ ofSession more i := by
  simp [ofSession]

theorem ofSession_singleton {β : Type} (i j : ℕ) (b : β) :
    ofSession [(i, b)] j = if i = j then [b] else [] := by
  by_cases h : i = j <;> simp [ofSession, h]

theorem step_spec (h : s.step e = some t) : ∃ server, s.ledger.server.step e = some server ∧
    t.ledger.server = server ∧ t.calls = s.calls ++ callsBy s.ledger.server e ∧
    (∀ i, t.callsOf i = s.callsOf i ++ ofSession (callsBy s.ledger.server e) i) ∧
    (∀ i, t.rejectedOf i = s.rejectedOf i ++ ofSession (Ledger.rejectedBy s.ledger.server e) i) ∧
    ∀ i, t.sentencesOf i = s.sentencesOf i ++
      (ofSession (Ledger.linesBy s.ledger.server e) i).filterMap fun raw => (readLine raw).map (·.1) := by
  obtain ⟨ledger, hstep, rfl⟩ := Option.map_eq_some_iff.1 h
  obtain ⟨server, hserver, rfl⟩ := Ledger.step_eq_some hstep
  refine ⟨server, hserver, rfl, rfl, fun i => ofSession_append _ _ i, fun i => ofSession_append _ _ i,
    fun i => ?_⟩
  rw [sentencesOf, sentencesOf, ← List.filterMap_append]
  congr 1
  exact ofSession_append _ _ i

theorem delivered_start : Delivered {} where
  session := by simp
  none _ _ := ⟨rfl, rfl, rfl⟩
  handed := rfl

/-- A step that logs nothing and keeps the sessions, but for new ones with no sentence in hand. -/
theorem Delivered.frame (hs : Delivered s)
    (hlogs : ∀ j, t.sentencesOf j = s.sentencesOf j ∧ t.callsOf j = s.callsOf j ∧ t.rejectedOf j = s.rejectedOf j)
    (hsessions : ∀ j z, t.ledger.server.sessions[j]? = some z → s.ledger.server.sessions[j]? = some z ∨
      s.ledger.server.sessions.length ≤ j ∧ z.pc.sentence = Option.none)
    (hlen : s.ledger.server.sessions.length ≤ t.ledger.server.sessions.length)
    (hhanded : t.calls.map (·.2) = t.ledger.server.handed.map (·.1)) : Delivered t := by
  refine ⟨fun j z hz => ?_, fun j hj => ?_, hhanded⟩
  · obtain ⟨h1, h2, h3⟩ := hlogs j
    rw [Judged, h1, h2, h3]
    rcases hsessions j z hz with hz | ⟨hj, hsentence⟩
    · exact hs.session j z hz
    · obtain ⟨h1, h2, h3⟩ := hs.none j hj
      rw [h1, h2, h3, hsentence]
      exact fun _ _ => ⟨rfl, rfl⟩
  · obtain ⟨h1, h2, h3⟩ := hlogs j
    rw [h1, h2, h3]
    exact hs.none j (hlen.trans hj)

/-- A step of the session `i` that logs only what is its own. -/
theorem Delivered.set (hs : Delivered s) (hx : s.ledger.server.sessions[i]? = some x)
    (hsessions : t.ledger.server.sessions = s.ledger.server.sessions.set i y)
    (hother : ∀ j, j ≠ i → t.sentencesOf j = s.sentencesOf j ∧ t.callsOf j = s.callsOf j ∧
      t.rejectedOf j = s.rejectedOf j)
    (hhanded : t.calls.map (·.2) = t.ledger.server.handed.map (·.1)) (hy : t.Judged i y) : Delivered t := by
  have hi : i < s.ledger.server.sessions.length := (List.getElem?_eq_some_iff.1 hx).1
  refine ⟨fun j z hz => ?_, fun j hj => ?_, hhanded⟩
  · rw [hsessions] at hz
    by_cases hj : j = i
    · subst hj
      rw [List.getElem?_set_self hi] at hz
      obtain rfl := Option.some.inj hz
      exact hy
    · rw [List.getElem?_set_ne (Ne.symm hj)] at hz
      obtain ⟨h1, h2, h3⟩ := hother j hj
      rw [Judged, h1, h2, h3]
      exact hs.session j z hz
  · rw [hsessions, List.length_set] at hj
    obtain ⟨h1, h2, h3⟩ := hother j (by omega)
    rw [h1, h2, h3]
    exact hs.none j hj

/-- A step that logs nothing and leaves the session with the same sentence in hand. -/
theorem Delivered.quiet (hs : Delivered s) (hx : s.ledger.server.sessions[i]? = some x)
    (hsessions : t.ledger.server.sessions = s.ledger.server.sessions.set i y)
    (hlogs : ∀ j, t.sentencesOf j = s.sentencesOf j ∧ t.callsOf j = s.callsOf j ∧
      t.rejectedOf j = s.rejectedOf j)
    (hhanded : t.calls.map (·.2) = t.ledger.server.handed.map (·.1))
    (hpc : y.pc ≠ .closing → y.pc ≠ .closed →
      x.pc ≠ .closing ∧ x.pc ≠ .closed ∧ y.pc.sentence = x.pc.sentence) : Delivered t := by
  refine hs.set hx hsessions (fun j _ => hlogs j) hhanded fun hclosing hclosed => ?_
  obtain ⟨h1, h2, hsentence⟩ := hpc hclosing hclosed
  obtain ⟨hsent, hcalls, hrejected⟩ := hlogs i
  rw [hsent, hcalls, hrejected, hsentence]
  exact hs.session i x hx h1 h2

theorem callsBy_judge {server : TcpIngest} {sentence : Str} {now : Time}
    (hx : server.sessions[i]? = some x) (hpc : x.pc = .judge sentence) :
    callsBy server (.judge i now) = if wellFormed sentence then [(i, sentence)] else [] := by
  rcases hw : wellFormed sentence with _ | _ <;>
    simp [callsBy, hx, hpc, Pc.sentence, Option.filter_some, hw]

theorem Delivered.step (hs : Delivered s) (h : s.step e = some t) : Delivered t := by
  obtain ⟨server, hserver, hts, htc, hcalls, hrejected, hsentences⟩ := step_spec h
  -- the steps that log nothing
  have hnone : callsBy s.ledger.server e = [] → Ledger.rejectedBy s.ledger.server e = [] →
      Ledger.linesBy s.ledger.server e = [] → t.calls = s.calls ∧ ∀ j,
        t.sentencesOf j = s.sentencesOf j ∧ t.callsOf j = s.callsOf j ∧ t.rejectedOf j = s.rejectedOf j := by
    intro h1 h2 h3
    simp only [h1, h2, h3, ofSession, List.filter_nil, List.map_nil, List.filterMap_nil,
      List.append_nil] at htc hcalls hrejected hsentences
    exact ⟨htc, fun j => ⟨hsentences j, hcalls j, hrejected j⟩⟩
  cases e with
  | start peer host now =>
    obtain ⟨hc, hlogs⟩ := hnone rfl rfl rfl
    obtain rfl := Option.some.inj hserver
    refine hs.frame hlogs (fun j z hz => ?_) (by rw [hts]; simp) (by rw [hc, hts]; exact hs.handed)
    rw [hts] at hz
    rcases TcpIngest.getElem?_concat_cases hz with hz | ⟨rfl, rfl⟩
    · exact Or.inl hz
    · exact Or.inr ⟨le_rfl, rfl⟩
  | prune maxAge now =>
    obtain ⟨hc, hlogs⟩ := hnone rfl rfl rfl
    obtain rfl := Option.some.inj hserver
    refine hs.frame hlogs (fun j z hz => Or.inl ?_) (by rw [hts]) (by rw [hc, hts]; exact hs.handed)
    rwa [hts] at hz
  | recv i data now =>
    obtain ⟨x, hx, hpc, -, rfl⟩ := TcpIngest.step_recv hserver
    obtain ⟨hc, hlogs⟩ := hnone rfl rfl rfl
    refine hs.quiet hx (by rw [hts]) hlogs (by rw [hc, hts]; exact hs.handed) fun _ _ => ?_
    rw [hpc]
    exact ⟨Pc.noConfusion, Pc.noConfusion, rfl⟩
  | hangup i =>
    obtain ⟨x, hx, -, rfl⟩ := TcpIngest.step_hangup hserver
    obtain ⟨hc, hlogs⟩ := hnone rfl rfl rfl
    exact hs.quiet hx (by rw [hts]) hlogs (by rw [hc, hts]; exact hs.handed) fun hcl _ => absurd rfl hcl
  | finish i =>
    obtain ⟨x, hx, -, rfl⟩ := TcpIngest.step_finish hserver
    obtain ⟨hc, hlogs⟩ := hnone rfl rfl rfl
    exact hs.quiet hx (by rw [hts]) hlogs (by rw [hc, hts]; exact hs.handed) fun _ hcl => absurd rfl hcl
  | upgrade i now =>
    obtain ⟨hc, hlogs⟩ := hnone rfl rfl rfl
    obtain ⟨x, sid, sentence, hx, hpc, ⟨-, rfl⟩ | ⟨r, g, -, rfl⟩⟩ := TcpIngest.step_upgrade hserver
    · exact hs.quiet hx (by rw [hts]) hlogs (by rw [hc, hts]; exact hs.handed) fun hcl _ => absurd rfl hcl
    · refine hs.quiet hx (by rw [hts]) hlogs (by rw [hc, hts]; exact hs.handed) fun _ _ => ?_
      rw [hpc]
      exact ⟨Pc.noConfusion, Pc.noConfusion, rfl⟩
  | line i =>
    obtain ⟨x, hx, hpc, rfl⟩ := TcpIngest.step_line hserver
    have hold := hs.session i x hx (by rw [hpc]; exact Pc.noConfusion) (by rw [hpc]; exact Pc.noConfusion)
    have hc : t.calls = s.calls := htc.trans (List.append_nil _)
    have hcj : ∀ j, t.callsOf j = s.callsOf j := fun j => (hcalls j).trans (List.append_nil _)
    have hrj : ∀ j, t.rejectedOf j = s.rejectedOf j := fun j => (hrejected j).trans (List.append_nil _)
    rw [hpc] at hold
    rcases hsplit : split1 10 x.buf with _ | ⟨raw, rest⟩
    · have hsj : ∀ j, t.sentencesOf j = s.sentencesOf j := fun j => by
        rw [hsentences]
        simp [Ledger.linesBy, hx, hsplit, ofSession]
      have htake : s.ledger.server.takeLine x = { x with pc := .recv } := by
        simp [TcpIngest.takeLine, hsplit]
      refine hs.quiet hx (by rw [hts]) (fun j => ⟨hsj j, hcj j, hrj j⟩)
        (by rw [hc, hts]; exact hs.handed) fun _ _ => ?_
      rw [htake, hpc]
      exact ⟨Pc.noConfusion, Pc.noConfusion, rfl⟩
    · have hsj : ∀ j, t.sentencesOf j = s.sentencesOf j ++
          if i = j then ((readLine raw).map (·.1)).toList else [] := fun j => by
        have hlog : Ledger.linesBy s.ledger.server (.line i) = [(i, raw)] := by
          simp [Ledger.linesBy, hx, hsplit]
        rw [hsentences, hlog, ofSession_singleton]
        split
        · rcases hr : readLine raw with _ | q <;> simp [hr]
        · rfl
      have hinhand : (s.ledger.server.takeLine x).pc.sentence = (readLine raw).map (·.1) := by
        rcases hr : readLine raw with _ | ⟨q, sid⟩
        · simp [TcpIngest.takeLine, hsplit, hr, hpc, Pc.sentence]
        · simp [TcpIngest.takeLine, hsplit, hr, TcpIngest.afterRead_sentence]
      refine hs.set hx (by rw [hts]) (fun j hj => ⟨?_, hcj j, hrj j⟩)
        (by rw [hc, hts]; exact hs.handed) fun _ _ => ?_
      · rw [hsj, if_neg (Ne.symm hj), List.append_nil]
      · rw [hsj, if_pos rfl, hcj, hrj, hinhand, List.filter_append, List.filter_append, hold.1, hold.2]
        simp [Pc.sentence]
  | judge i now =>
    obtain ⟨x, sentence, hx, hpc, rfl⟩ := TcpIngest.step_judge hserver
    have hold := hs.session i x hx (by rw [hpc]; exact Pc.noConfusion) (by rw [hpc]; exact Pc.noConfusion)
    have hsj : ∀ j, t.sentencesOf j = s.sentencesOf j := fun j => (hsentences j).trans (List.append_nil _)
    rw [callsBy_judge hx hpc] at htc
    simp only [callsBy_judge hx hpc] at hcalls
    simp only [Ledger.rejectedBy_judge hx hpc] at hrejected
    rw [hpc] at hold
    refine hs.set hx (by rw [hts]) (fun j hj => ⟨hsj j, ?_, ?_⟩) ?_ fun _ _ => ?_
    · rw [hcalls]
      split <;> simp [ofSession, Ne.symm hj]
    · rw [hrejected]
      split <;> simp [ofSession, Ne.symm hj]
    · rw [htc, hts, List.map_append, hs.handed]
      rcases hw : wellFormed sentence with _ | _ <;> simp
    · rw [hsj, hcalls, hrejected, hold.1, hold.2]
      rcases hw : wellFormed sentence with _ | _ <;> simp [ofSession, Pc.sentence, hw]

theorem delivered_of_run {es : List IngestEvent} (h : run Delivery.step {} es = some s) : Delivered s :=
  run_inv_of_step (I := Delivered) (fun _ _ _ hs h => hs.step h) delivered_start h

theorem ledger_of_run {es : List IngestEvent} (h : run Delivery.step s es = some t) :
    run Ledger.step s.ledger es = some t.ledger := by
  induction es generalizing s with
  | nil =>
    obtain rfl : s = t := by simpa using h
    rfl
  | cons e es ih =>
    obtain ⟨u, hu, hr⟩ := run_cons_some h
    obtain ⟨ledger, hl, rfl⟩ := Option.map_eq_some_iff.1 hu
    rw [run_cons, hl, Option.bind_some]
    exact ih hr

theorem run_of_ledger {es : List IngestEvent} {ledger : Ledger} (h : run Ledger.step s.ledger es = some ledger) :
    ∃ t, run Delivery.step s es = some t ∧ t.ledger = ledger := by
  induction es generalizing s with
  | nil => exact ⟨s, rfl, by simpa using h⟩
  | cons e es ih =>
    obtain ⟨l, hl, hr⟩ := run_cons_some h
    obtain ⟨t, ht, hledger⟩ := @ih ⟨l, s.calls ++ callsBy s.ledger.server e⟩ hr
    refine ⟨t, ?_, hledger⟩
    rw [run_cons, Delivery.step, hl, Option.map_some, Option.bind_some]
    exact ht

/-- **A session that waits** has handed on the well-formed sentences of its lines and rejected the others. -/
theorem judged_of_run {es : List IngestEvent} (h : run Delivery.step {} es = some s)
    (hx : s.ledger.server.sessions[i]? = some x) (hpc : x.pc = .recv) :
    s.callsOf i = (s.sentencesOf i).filter wellFormed ∧
    s.rejectedOf i = (s.sentencesOf i).filter fun q => !wellFormed q := by
  obtain ⟨h1, h2⟩ := (delivered_of_run h).session i x hx (by rw [hpc]; exact Pc.noConfusion)
    (by rw [hpc]; exact Pc.noConfusion)
  rw [hpc] at h1 h2
  exact ⟨by rw [h1]; simp [Pc.sentence], by rw [h2]; simp [Pc.sentence]⟩

end Delivery

/-! ### A stream of sentences -/

inductive Terminator
  | lf
  | crlf
  | cr
  deriving DecidableEq

def Terminator.bytes : Terminator → List UInt8
  | .lf => [10]
  | .crlf => [13, 10]
  | .cr => [13]

/-- The sentences, each with its terminator. -/
def stream (xs : List (Str × Terminator)) : List UInt8 := xs.flatMap fun x => encodeAscii x.1 ++ x.2.bytes

/-- A sentence that is accepted, and that the trimming of a line leaves as it is. -/
structure ValidSentence (s : Str) : Prop where
  wellFormed : Ingest.wellFormed s = true
  ascii : ∀ c ∈ s, c.toNat < 128
  oneLine : '\n' ∉ s
  trimmed : strip ['\r', '\n', '\t', ' '] s = s

/-- The line that a sentence is sent in, for the terminators with a line feed. -/
def lineOf (x : Str × Terminator) : List UInt8 := encodeAscii x.1 ++ if x.2 = .crlf then [13] else []

variable {s : Str} {xs : List (Str × Terminator)}

theorem ValidSentence.readLine (h : ValidSentence s) {raw : List UInt8} (hraw : raw = [] ∨ raw = [13]) :
    readLine (encodeAscii s ++ raw) = some (s, none) := by
  obtain ⟨p, hp, -⟩ := wellFormed_iff.1 h.wellFormed
  obtain ⟨t, -, rest, rfl⟩ := aisRe_iff.1 (parse_spec hp).1
  have hline : decodeLine (encodeAscii ('!' :: t ++ ',' :: rest) ++ raw) = '!' :: t ++ ',' :: rest := by
    rw [decodeLine, decodeAscii_append, decodeAscii_encodeAscii h.ascii]
    rcases hraw with rfl | rfl
    · rw [show decodeAscii [] = [] from rfl, List.append_nil]
      exact h.trimmed
    · have hl : ∀ w, lstrip ['\r', '\n', '\t', ' '] ('!' :: t ++ ',' :: rest ++ w) =
          '!' :: t ++ ',' :: rest ++ w := fun w => lstrip_eq_self.2 (by simp)
      have htrimmed := h.trimmed
      rw [strip_eq, lstrip_eq_self.2 (by simp)] at htrimmed
      rw [strip_eq, hl, rstrip_append_of_forall_mem _ (by simp [decodeAscii])]
      exact htrimmed
  rw [Ingest.readLine, hline, if_neg (by simp)]
  rfl

/-- Without a lone carriage return the lines are those of the sentences. -/
theorem framed_stream (hv : ∀ x ∈ xs, ValidSentence x.1) (hcr : ∀ x ∈ xs, x.2 ≠ .cr) :
    Framed 10 (stream xs) (xs.map lineOf) [] := by
  constructor
  · rw [stream, List.append_nil, ← List.flatMap_def, List.flatMap_map]
    refine List.flatMap_congr fun x hx => ?_
    rcases hterm : x.2 with _ | _ | _
    · simp [lineOf, hterm, Terminator.bytes]
    · simp [lineOf, hterm, Terminator.bytes]
    · exact absurd hterm (hcr x hx)
  · intro r hr
    obtain ⟨x, hx, rfl⟩ := List.mem_map.1 hr
    have hn := lineFeed_notMem_encodeAscii (hv x hx).oneLine (hv x hx).ascii
    unfold lineOf
    split <;> simp [hn]

theorem sentencesOf_lineOf (hv : ∀ x ∈ xs, ValidSentence x.1) :
    (xs.map lineOf).filterMap (fun raw => (readLine raw).map (·.1)) = xs.map (·.1) := by
  rw [List.filterMap_map, ← List.filterMap_eq_map]
  refine List.filterMap_congr fun x hx => ?_
  have hread : readLine (lineOf x) = some (x.1, none) :=
    (hv x hx).readLine (by split <;> simp)
  simp [hread]

theorem count_stream (hv : ∀ x ∈ xs, ValidSentence x.1) :
    (stream xs).count 10 = xs.countP fun x => x.2 ≠ .cr := by
  induction xs with
  | nil => rfl
  | cons x xs ih =>
    obtain ⟨hx, hxs⟩ := List.forall_mem_cons.1 hv
    rw [stream, List.flatMap_cons, List.count_append, List.count_append, List.countP_cons, ← stream, ih hxs,
      List.count_eq_zero_of_not_mem (lineFeed_notMem_encodeAscii hx.oneLine hx.ascii)]
    rcases hterm : x.2 with _ | _ | _ <;> simp [Terminator.bytes] <;> omega

/-- A session that received a stream of valid sentences and waits for more has handed on each of them exactly once,
in order, and rejected none, exactly when no terminator is a lone carriage return. -/
theorem handed_iff {es : List IngestEvent} {d : Delivery} {i : ℕ} {x : Session}
    (hv : ∀ x ∈ xs, ValidSentence x.1) (h : run Delivery.step {} es = some d)
    (hx : d.ledger.server.sessions[i]? = some x) (hpc : x.pc = .recv)
    (hstream : (d.ledger.chunksOf i).flatten = stream xs) :
    d.callsOf i = xs.map (·.1) ∧ d.rejectedOf i = [] ↔ ∀ x ∈ xs, x.2 ≠ .cr := by
  obtain ⟨hcalls, hrejected⟩ := Delivery.judged_of_run h hx hpc
  obtain ⟨hframed, hwaits⟩ :=
    (Ledger.framedLines_of_run (Delivery.ledger_of_run h)).session i x hx
  rw [hstream] at hframed
  constructor
  · rintro ⟨hall, -⟩
    -- there are not enough line feeds for all the sentences
    have hlen : xs.length ≤ (d.ledger.linesOf i).length := by
      rw [← @List.length_map _ _ xs (·.1), ← hall, hcalls]
      exact (List.length_filter_le _ _).trans (List.length_filterMap_le _ _)
    have hcount := hframed.count_eq
    rw [count_stream hv] at hcount
    have hle : xs.length = xs.countP fun x => x.2 ≠ .cr :=
      le_antisymm (by omega) List.countP_le_length
    simpa using List.countP_eq_length.1 hle.symm
  · intro hcr
    have hlines : d.ledger.linesOf i = xs.map lineOf :=
      (hframed.unique (framed_stream hv hcr) (hwaits hpc) List.not_mem_nil).1
    have hsentences : d.sentencesOf i = xs.map (·.1) := by
      rw [Delivery.sentencesOf, hlines, sentencesOf_lineOf hv]
    have hwf : ∀ q ∈ xs.map (·.1), wellFormed q = true := by
      intro q hq
      obtain ⟨y, hy, rfl⟩ := List.mem_map.1 hq
      exact (hv y hy).wellFormed
    rw [hcalls, hrejected, hsentences]
    exact ⟨List.filter_eq_self.2 hwf, List.filter_eq_nil_iff.2 fun q hq => by simp [hwf q hq]⟩

theorem exists_session {cs : List (List UInt8)} (hcs : [] ∉ cs) : ∃ es d i x, run Delivery.step {} es = some d ∧
    d.ledger.server.sessions[i]? = some x ∧ x.pc = .recv ∧ d.ledger.chunksOf i = cs := by
  have hat : ∃ s, run Ledger.step {} [.start ['p'] ['H'] 0] = some s ∧ s.chunksOf 0 = [] ∧ s.At 0 .recv [] :=
    ⟨_, rfl, rfl, _, rfl, rfl, rfl, by decide⟩
  obtain ⟨s, hs, hnone, hat⟩ := hat
  obtain ⟨es, t, rest, ht, hchunks, x, hx, hpc, -⟩ := Ledger.chunks_taken hcs hat 0
  have hrun : run Ledger.step {} ([.start ['p'] ['H'] 0] ++ es) = some t := by rw [run_append_of hs, ht]
  obtain ⟨d, hd, rfl⟩ := @Delivery.run_of_ledger {} _ _ hrun
  exact ⟨_, d, 0, x, hd, hx, hpc, by rw [hchunks, hnone, List.nil_append]⟩

/-- **All line terminators.**  A stream of valid sentences, each with its terminator, is received in any chunks; and
in any run of the server a session that received it and waits for more has handed on each sentence exactly once,
in order, and rejected none, exactly when no terminator is a lone carriage return. -/
theorem terminators (hv : ∀ x ∈ xs, ValidSentence x.1) :
    (∀ cs, [] ∉ cs → cs.flatten = stream xs → ∃ es d i x, run Delivery.step {} es = some d ∧
      d.ledger.server.sessions[i]? = some x ∧ x.pc = .recv ∧ d.ledger.chunksOf i = cs) ∧
    ∀ (es : List IngestEvent) (d : Delivery) (i : ℕ) (x : Session), run Delivery.step {} es = some d →
      d.ledger.server.sessions[i]? = some x → x.pc = .recv → (d.ledger.chunksOf i).flatten = stream xs →
      (d.callsOf i = xs.map (·.1) ∧ d.rejectedOf i = [] ↔ ∀ x ∈ xs, x.2 ≠ .cr) :=
  ⟨fun _ hcs _ => exists_session hcs, fun _ _ _ _ h hx hpc hstream => handed_iff hv h hx hpc hstream⟩

/-- A valid sentence. -/
def oneReport : Str := "!AIVDM,1,1,,A,13aEOK?P00PD2wVMdLDRhgvL289?,0*26".toList

theorem validSentence_oneReport : ValidSentence oneReport where
  wellFormed := by decide +kernel
  ascii := by
    have hall : (oneReport.all fun c => c.toNat < 128) = true := by decide +kernel
    simpa using hall
  oneLine := by decide +kernel
  trimmed := by decide +kernel

/-- A session that receives a stream of two sentences in one chunk. -/
def twoSentences (a b : Terminator) : List IngestEvent :=
  [.start ['p'] ['H'] 1, .recv 0 (stream [(oneReport, a), (oneReport, b)]) 2, .line 0, .judge 0 2, .line 0]

/-- The two terminators with a line feed. -/
theorem terminators_mixed : ∃ d, run Delivery.step {} (twoSentences .crlf .lf ++ [.judge 0 2, .line 0]) = some d ∧
    d.callsOf 0 = [oneReport, oneReport] ∧ d.rejectedOf 0 = [] := by
  have hrun : (run Delivery.step {} (twoSentences .crlf .lf ++ [.judge 0 2, .line 0])).map (fun d =>
      ((d.ledger.server.sessions[0]?).map (·.pc),
        decide ((d.ledger.chunksOf 0).flatten = stream [(oneReport, .crlf), (oneReport, .lf)]))) =
      some (some .recv, true) := by decide +kernel
  obtain ⟨d, hd, hfacts⟩ := Option.map_eq_some_iff.1 hrun
  obtain ⟨hpc, hstream⟩ : _ ∧ _ := by simpa using hfacts
  obtain ⟨x, hx, hpc⟩ := hpc
  have hv : ∀ x ∈ [(oneReport, Terminator.crlf), (oneReport, .lf)], ValidSentence x.1 := by
    simp [validSentence_oneReport]
  exact ⟨d, hd, ((terminators hv).2 _ d 0 x hd hx hpc hstream).2 (by simp)⟩

/-- A lone carriage return between two sentences: neither is handed on, and one line is rejected. -/
theorem terminators_fails : ∃ d x, run Delivery.step {} (twoSentences .cr .lf) = some d ∧
    d.ledger.server.sessions[0]? = some x ∧ x.pc = .recv ∧
    (d.ledger.chunksOf 0).flatten = stream [(oneReport, .cr), (oneReport, .lf)] ∧
    (∀ x ∈ [(oneReport, Terminator.cr), (oneReport, .lf)], ValidSentence x.1) ∧
    d.callsOf 0 = [] ∧ (d.rejectedOf 0).length = 1 := by
  have hrun : (run Delivery.step {} (twoSentences .cr .lf)).map (fun d =>
      ((d.ledger.server.sessions[0]?).map (·.pc),
        decide ((d.ledger.chunksOf 0).flatten = stream [(oneReport, .cr), (oneReport, .lf)]),
        d.callsOf 0, (d.rejectedOf 0).length)) =
      some (some .recv, true, [], 1) := by decide +kernel
  obtain ⟨d, hd, hfacts⟩ := Option.map_eq_some_iff.1 hrun
  obtain ⟨hpc, hstream, hcalls, hrejected⟩ : _ ∧ _ ∧ _ ∧ _ := by simpa using hfacts
  obtain ⟨x, hx, hpc⟩ := hpc
  exact ⟨d, x, hd, hx, hpc, hstream, by simp [validSentence_oneReport], hcalls, hrejected⟩

end AisServer.Ingest
