import Mathlib.Tactic.Linarith
import AisServer.Forward.Loop

/-!
# The test of an endpoint

`test_endpoint` sends one sentence on its own code path, next to the loops of the workers.  A `Network` says how
each call ends that either of them makes, for the arguments it is made with; closing a socket does not fail.  The
loop of a worker is then a matter of the clock alone, `Loop.next`.

* `tcp_counted_iff`, `udp_counted_iff`, `http_counted_iff` — when a worker that was just started counts a sentence
  as sent;
* `testTcp_iff`, `testUdp_iff`, `testHttp_iff` — when the test succeeds.
-/

namespace AisServer.Forward

open AisServer.Lib AisServer.Store

/-- How a call with an address ends. -/
inductive CallResult
  | ok
  /-- An `OSError`: the name is not resolved, the connection refused, the datagram not sent. -/
  | osError (text : Str)
  /-- Another exception, as for a port out of range. -/
  | raises (text : Str)
  deriving DecidableEq

/-- The host and the remote side.  An `Option` is the text of an `OSError`. -/
structure Network where
  /-- `socket.create_connection` -/
  connect : Value → Value → CallResult
  /-- `setsockopt` for `TCP_NODELAY` -/
  noDelay : Option Str := none
  sendall : List UInt8 → Option Str
  /-- A socket for datagrams. -/
  socket : Option Str := none
  /-- `setsockopt` for `SO_BROADCAST` -/
  setBroadcast : Option Str := none
  /-- `sendto`, with and without `SO_BROADCAST`. -/
  sendto : Bool → List UInt8 → Value → Value → CallResult
  /-- `requests.post`: the text of an exception, or the status. -/
  post : Str → Str → Except Str ℕ
  /-- `str` -/
  str : Value → Str
  /-- The message of the `UnicodeEncodeError` for a text. -/
  encodeError : Str → Str

/-- Whether `path or '/'` takes the path. -/
def truthy : Value → Bool
  | .null => false
  | .int n => n ≠ 0
  | .real q => q ≠ 0
  | .infinity _ => true
  | .text s => s ≠ []

/-- `f"http://{ep.host}:{ep.port}{ep.path or '/'}"` -/
def Network.url (net : Network) (ep : Endpoint) : Str :=
  "http://".toList ++ net.str ep.host ++ [':'] ++ net.str ep.port ++
    if truthy ep.path then net.str ep.path else ['/']

/-- `s.encode("ascii")` -/
def encodeStrict (s : Str) : Option (List UInt8) :=
  if s.all fun c => c.toNat < 128 then some (encodeAscii s) else none

/-! ### `test_endpoint` -/

/-- The branch that `test_endpoint` takes. -/
def testTransport (protocol : Value) : Option Transport :=
  if protocol = .text "tcp".toList then some .tcp
  else if protocol = .text "udp".toList then some .udp
  else if protocol = .text "http".toList then some .http
  else none

section

variable (net : Network) (ep : Endpoint) (sentence : Str)

def testTcp : Bool × Str :=
  match net.connect ep.host ep.port with
  | .osError text | .raises text => (false, text)
  | .ok =>
    match encodeStrict (sentence ++ ['\r', '\n']) with
    | none => (false, net.encodeError (sentence ++ ['\r', '\n']))
    | some data =>
      match net.sendall data with
      | some text => (false, text)
      | none => (true, "Sent".toList)

/-- The datagram of the test, once there is a socket and its option is set. -/
def testDatagram : Bool × Str :=
  match encodeStrict (sentence ++ ['\r', '\n']) with
  | none => (false, net.encodeError (sentence ++ ['\r', '\n']))
  | some data =>
    match net.sendto ep.broadcast data ep.host ep.port with
    | .osError text | .raises text => (false, text)
    | .ok => (true, "Sent".toList)

def testUdp : Bool × Str :=
  match net.socket, (if ep.broadcast then net.setBroadcast else none) with
  | some text, _ => (false, text)
  | none, some text => (false, text)
  | none, none => testDatagram net ep sentence

def testHttp : Bool × Str :=
  match net.post (net.url ep) sentence with
  | .error text => (false, text)
  | .ok status => (200 ≤ status ∧ status < 300, "HTTP ".toList ++ (toString status).toList)

def testEndpoint : Bool × Str :=
  match testTransport ep.protocol with
  | some .tcp => testTcp net ep sentence
  | some .udp => testUdp net ep sentence
  | some .http => testHttp net ep sentence
  | none => (false, "Unknown protocol".toList)

end

/-! ### The worker on the same network -/

/-- `create_connection` and `setsockopt` -/
def Network.connectResult (net : Network) (ep : Endpoint) : ConnectResult :=
  match net.connect ep.host ep.port with
  | .osError text => .refused text
  | .raises _ => .raises
  | .ok =>
    match net.noDelay with
    | some text => .noDelay text
    | none => .ok

/-- Whether the socket of a worker may send to a broadcast address: a refusal is only logged. -/
def Network.broadcasts (net : Network) (ep : Endpoint) : Bool := ep.broadcast && net.setBroadcast = none

def Network.sendResult (net : Network) (ep : Endpoint) (sentence : Str) : SendResult :=
  match net.sendto (net.broadcasts ep) (wire sentence) ep.host ep.port with
  | .ok => .ok
  | .osError text => .failed text
  | .raises _ => .raises

def Network.postResult (net : Network) (ep : Endpoint) (body : Str) : Option Str :=
  match net.post (net.url ep) body with
  | .ok _ => none
  | .error text => some text

/-- What the thread of a worker does next, at the time `now`. -/
def Loop.next (net : Network) (now : Time) : Loop → Option LoopEvent
  | .tcp s =>
    match s.pc with
    | .loop => some (.tcp .check)
    | .connect => some (.tcp (.connect (net.connectResult s.worker.ep)))
    | .get => some (.tcp .get)
    | .send q => some (.tcp (.send (net.sendall (wire q.sentence)) now))
    | .requeue _ => some (.tcp .requeue)
    | .finished => none
  | .udp s =>
    match s.pc with
    | .start => some (.udp (.start (net.socket = none)))
    | .loop => some (.udp .check)
    | .get => some (.udp .get)
    | .send q => some (.udp (.send (net.sendResult s.worker.ep q.sentence) now))
    | .finished => none
  | .http s =>
    match s.pc with
    | .start => some (.http (.start now))
    | .loop => some (.http .check)
    | .get => some (.http .get)
    | .flush => some (.http (.flush now))
    | .post _ => some (.http (.post (net.postResult s.worker.ep (HttpForwarder.body s.batch))))
    | .finished => none

/-- The clock at the steps of a thread. -/
structure Clock where
  now : ℕ → Time
  mono : Monotone now
  unbounded : ∀ t, ∃ n, t < now n

/-- `put` into the queue of a worker. -/
def Loop.put (sentence : Str) : Loop → Option Loop
  | .tcp s => (s.step (.put sentence)).map .tcp
  | .udp s => (s.step (.feed (.put sentence))).map .udp
  | .http s => (s.step (.feed (.put sentence))).map .http

/-- A worker after `n` steps of its thread. -/
def Loop.after (net : Network) (clock : Clock) (l : Loop) (n : ℕ) : Loop :=
  driven Loop.step (fun n => Loop.next net (clock.now n)) l n

/-- A worker that was just started for the endpoint and is given the sentence counts it in `stats.sent`. -/
def Counted (net : Network) (clock : Clock) (queueSize : ℕ) (ep : Endpoint) (sentence : Str) : Prop :=
  ∃ l, (Loop.new queueSize ep).put sentence = some l ∧ ∃ n, 0 < (l.after net clock n).sent

/-- A sentence as the pipeline hands it on: ASCII, and not empty. -/
structure Sentence where
  text : Str
  nonempty : text ≠ []
  ascii : ∀ c ∈ text, c.toNat < 128

variable {net : Network} {clock : Clock} {queueSize : ℕ} {ep : Endpoint} {sentence : Sentence} {text : Str}

/-! ### When the test succeeds -/

theorem Sentence.encodeStrict (sentence : Sentence) :
    Forward.encodeStrict (sentence.text ++ ['\r', '\n']) = some (wire sentence.text) := by
  refine if_pos (List.all_eq_true.2 fun c hc => decide_eq_true ?_)
  rcases List.mem_append.1 hc with hc | hc
  · exact sentence.ascii c hc
  · simp only [List.mem_cons, List.not_mem_nil, or_false] at hc
    rcases hc with rfl | rfl <;> decide

theorem testTcp_iff : (testTcp net ep sentence.text).1 = true ↔
    net.connect ep.host ep.port = .ok ∧ net.sendall (wire sentence.text) = none := by
  unfold testTcp
  rw [sentence.encodeStrict]
  rcases net.connect ep.host ep.port with _ | text | text
  · rcases hsend : net.sendall (wire sentence.text) with _ | text <;> simp [hsend]
  · simp
  · simp

theorem testUdp_iff : (testUdp net ep sentence.text).1 = true ↔
    net.socket = none ∧ (ep.broadcast = true → net.setBroadcast = none) ∧
      net.sendto ep.broadcast (wire sentence.text) ep.host ep.port = .ok := by
  unfold testUdp testDatagram
  rw [sentence.encodeStrict]
  rcases hsocket : net.socket with _ | text
  · by_cases hb : ep.broadcast = true
    · rcases hset : net.setBroadcast with _ | text
      · rcases hsend : net.sendto ep.broadcast (wire sentence.text) ep.host ep.port with _ | text | text <;>
          simp_all
      · simp [hb]
    · rcases hsend : net.sendto ep.broadcast (wire sentence.text) ep.host ep.port with _ | text | text <;>
        simp_all
  · simp

theorem testHttp_iff : (testHttp net ep sentence.text).1 = true ↔
    ∃ status, net.post (net.url ep) sentence.text = .ok status ∧ 200 ≤ status ∧ status < 300 := by
  unfold testHttp
  rcases net.post (net.url ep) sentence.text with text | status
  · simp
  · simp

/-! ### When the worker counts -/

/-- A worker that holds the sentence alone. -/
def offered (ep : Endpoint) (queueSize : ℕ) (text : Str) : Worker :=
  { ep, maxsize := queueSize, queue := [⟨0, text⟩] }

def tcpOffered (ep : Endpoint) (queueSize : ℕ) (text : Str) : TcpForwarder :=
  { worker := offered ep queueSize text, calls := 1, puts := [⟨0, text⟩] }

def udpOffered (ep : Endpoint) (queueSize : ℕ) (text : Str) : UdpForwarder :=
  { worker := offered ep queueSize text, calls := 1 }

def httpOffered (ep : Endpoint) (queueSize : ℕ) (text : Str) : HttpForwarder :=
  { worker := offered ep queueSize text, calls := 1 }

theorem putNowait_new (ep : Endpoint) (queueSize : ℕ) (text : Str) :
    ({ ep, maxsize := queueSize } : Worker).putNowait ⟨0, text⟩ = some (offered ep queueSize text) := by
  refine Worker.putNowait_of_not_full ?_
  rcases queueSize with _ | n
  · rfl
  · rfl

/-- There is room for the first sentence. -/
theorem counted_iff : Counted net clock queueSize ep text ↔
    ∃ n, 0 < (Loop.after net clock (match transportOf ep.protocol with
      | .tcp => .tcp (tcpOffered ep queueSize text)
      | .udp => .udp (udpOffered ep queueSize text)
      | .http => .http (httpOffered ep queueSize text)) n).sent := by
  unfold Counted Loop.new
  rcases transportOf ep.protocol with _ | _ | _
  · simp [Loop.put, TcpForwarder.step, Feed.step, TcpForwarder.new, putNowait_new, tcpOffered]
  · simp [Loop.put, UdpForwarder.step, Feed.step, UdpForwarder.new, putNowait_new, udpOffered]
  · simp [Loop.put, HttpForwarder.step, Feed.step, HttpForwarder.new, putNowait_new, httpOffered]

theorem Loop.after_succ {l m u : Loop} {e : LoopEvent} {n : ℕ} (h : l.after net clock n = m)
    (he : Loop.next net (clock.now n) m = some e) (hu : m.step e = some u) : l.after net clock (n + 1) = u :=
  driven_succ_of h he hu

/-- A worker for which something holds under which it has sent nothing, and which its steps keep, counts nothing. -/
theorem Loop.not_counts {α : Type} {make : α → Loop} {P : α → Prop}
    (hstep : ∀ now s e m, P s → Loop.next net now (make s) = some e → (make s).step e = some m →
      ∃ t, m = make t ∧ P t)
    (hsent : ∀ s, P s → (make s).sent = 0) {s : α} (h0 : P s) :
    ¬∃ n, 0 < ((make s).after net clock n).sent := by
  rintro ⟨n, hn⟩
  obtain ⟨t, ht, hP⟩ : ∃ t, (make s).after net clock n = make t ∧ P t := by
    refine driven_inv (I := fun l => ∃ t, l = make t ∧ P t) ?_ ⟨s, rfl, h0⟩ n
    rintro n _ e m ⟨t, rfl, ht⟩ he hm
    exact hstep (clock.now n) t e m ht he hm
  rw [ht] at hn
  exact hn.ne' (hsent t hP)

theorem tcp_get_counts {l : Loop} {s : TcpForwarder} {n : ℕ} (hne : text ≠ []) (hsend : net.sendall (wire text) = none)
    (h : l.after net clock n = .tcp s) (hpc : s.pc = .get) (hq : s.worker.queue = [⟨0, text⟩]) :
    0 < (l.after net clock (n + 2)).sent := by
  have hnonempty : (⟨0, text⟩ : Queued).nonempty = true := decide_eq_true hne
  have h1 : l.after net clock (n + 1) =
      .tcp { s with worker := { s.worker with queue := [] }, pc := .send ⟨0, text⟩ } := by
    refine Loop.after_succ h (e := .tcp .get) (by simp [Loop.next, hpc]) ?_
    simp [Loop.step, TcpForwarder.step, hpc, hq, hnonempty]
  rw [Loop.after_succ h1 (congrArg (fun r => some (LoopEvent.tcp (.send r (clock.now (n + 1))))) hsend) rfl]
  exact Nat.succ_pos _

theorem tcp_counts (clock : Clock) (queueSize : ℕ) (hne : text ≠ []) (hconnect : net.connect ep.host ep.port = .ok)
    (hsend : net.sendall (wire text) = none) :
    ∃ n, 0 < (Loop.after net clock (.tcp (tcpOffered ep queueSize text)) n).sent := by
  let s₁ : TcpForwarder := { tcpOffered ep queueSize text with pc := .connect }
  have h1 : Loop.after net clock (.tcp (tcpOffered ep queueSize text)) 1 = .tcp s₁ := Loop.after_succ rfl rfl rfl
  rcases hdelay : net.noDelay with _ | err
  · have hresult : net.connectResult ep = .ok := by simp [Network.connectResult, hconnect, hdelay]
    have h2 := Loop.after_succ h1 (congrArg (fun r => some (LoopEvent.tcp (.connect r))) hresult) rfl
    exact ⟨4, tcp_get_counts hne hsend h2 rfl rfl⟩
  · -- the socket is kept, so the next turn of the loop sends
    have hresult : net.connectResult ep = .noDelay err := by simp [Network.connectResult, hconnect, hdelay]
    have h2 := Loop.after_succ h1 (congrArg (fun r => some (LoopEvent.tcp (.connect r))) hresult) rfl
    have h3 := Loop.after_succ h2 (e := .tcp .check) rfl rfl
    exact ⟨5, tcp_get_counts hne hsend h3 rfl rfl⟩

/-- What holds of a TCP worker as long as its sentence is not sent. -/
structure TcpWaits (net : Network) (ep : Endpoint) (text : Str) (s : TcpForwarder) : Prop where
  same : s.worker.ep = ep
  queue : ∀ q ∈ s.worker.queue, q.sentence = text
  held : ∀ q, s.pc = .send q ∨ s.pc = .requeue q → q.sentence = text
  reached : s.worker.sock = true ∨ s.pc = .get ∨ (∃ q, s.pc = .send q) → net.connect ep.host ep.port = .ok
  sent : s.worker.stats.sent = 0

theorem TcpWaits.leave {s : TcpForwarder} (hs : TcpWaits net ep text s) : TcpWaits net ep text s.leave where
  same := Worker.closeSock_ep.trans hs.same
  queue := by simpa [TcpForwarder.leave] using hs.queue
  held q hq := by simp [TcpForwarder.leave] at hq
  reached h := by simp [TcpForwarder.leave] at h
  sent := by simpa [TcpForwarder.leave] using hs.sent

/-- An attempt to connect: only one that succeeds leaves a socket. -/
theorem TcpWaits.tryConnect {s : TcpForwarder} (hs : TcpWaits net ep text s) :
    TcpWaits net ep text (s.tryConnect (net.connectResult s.worker.ep)) := by
  unfold Network.connectResult
  rw [hs.same]
  rcases hconnect : net.connect ep.host ep.port with _ | err | err
  · have hreached : ∀ {P : Prop}, P → net.connect ep.host ep.port = .ok := fun _ => hconnect
    rcases net.noDelay with _ | err
    · exact ⟨hs.same, hs.queue, by simp [TcpForwarder.tryConnect], hreached, hs.sent⟩
    · exact ⟨hs.same, hs.queue, by simp [TcpForwarder.tryConnect, TcpForwarder.connectFailed], hreached, hs.sent⟩
  · refine ⟨hs.same, hs.queue, by simp [TcpForwarder.tryConnect, TcpForwarder.connectFailed], ?_, hs.sent⟩
    rintro (h | h | ⟨q, h⟩)
    · exact hs.reached (Or.inl h)
    · cases h
    · cases h
  · exact hs.leave

theorem TcpWaits.check {s t : TcpForwarder} (hs : TcpWaits net ep text s) (h : s.step .check = some t) :
    TcpWaits net ep text t := by
  obtain ⟨-, ⟨-, rfl⟩ | ⟨-, rfl⟩⟩ := TcpForwarder.step_check h
  · exact hs.leave
  · refine ⟨hs.same, hs.queue, ?_, ?_, hs.sent⟩
    · intro q hq
      simp only at hq
      split at hq <;> simp at hq
    · intro hr
      refine hs.reached (Or.inl ?_)
      simp only at hr
      split at hr
      · assumption
      · simpa using hr

theorem TcpWaits.get {s t : TcpForwarder} (hs : TcpWaits net ep text s) (h : s.step .get = some t) :
    TcpWaits net ep text t := by
  obtain ⟨hpc, hcases⟩ := TcpForwarder.step_get h
  have hconnect := hs.reached (Or.inr (Or.inl hpc))
  obtain ⟨-, rfl⟩ | ⟨q, queue, hqueue, rfl⟩ := hcases
  · exact ⟨hs.same, hs.queue, by simp, fun _ => hconnect, hs.sent⟩
  · have hq := hs.queue
    rw [hqueue] at hq
    refine ⟨hs.same, fun q' hq' => hq q' (List.mem_cons_of_mem _ hq'), ?_, fun _ => hconnect, hs.sent⟩
    intro q' hq'
    simp only at hq'
    split at hq'
    · rcases hq' with hq' | hq'
      · cases hq'
        exact hq q List.mem_cons_self
      · cases hq'
    · simp at hq'

/-- A send that fails: the socket goes and the sentence is kept. -/
theorem TcpWaits.trySend {s : TcpForwarder} {q : Queued} (now : Time) (hs : TcpWaits net ep text s)
    (hpc : s.pc = .send q) (hno : net.connect ep.host ep.port = .ok → net.sendall (wire text) ≠ none) :
    TcpWaits net ep text (s.trySend q now (net.sendall (wire q.sentence))) := by
  have hq := hs.held q (Or.inl hpc)
  rw [hq]
  rcases hsend : net.sendall (wire text) with _ | err
  · exact absurd hsend (hno (hs.reached (Or.inr (Or.inr ⟨q, hpc⟩))))
  · refine ⟨Worker.closeSock_ep.trans hs.same, ?_, ?_, ?_, ?_⟩
    · simpa [TcpForwarder.trySend, Worker.countError] using hs.queue
    · intro q' hq'
      obtain rfl : q = q' := by simpa [TcpForwarder.trySend] using hq'
      exact hq
    · simp [TcpForwarder.trySend]
    · simpa [TcpForwarder.trySend, Worker.countError] using hs.sent

theorem TcpWaits.requeue {s : TcpForwarder} {q : Queued} (hs : TcpWaits net ep text s) (hpc : s.pc = .requeue q) :
    TcpWaits net ep text { s with worker := s.worker.putOrDrop q, pc := .loop } := by
  refine ⟨Worker.putOrDrop_ep.trans hs.same, ?_, by simp, ?_, (Feed.putOrDrop_sent _ _).trans hs.sent⟩
  · intro q' hq'
    rcases Worker.mem_putOrDrop hq' with hq' | rfl
    · exact hs.queue q' hq'
    · exact hs.held q' (Or.inr hpc)
  · intro hr
    refine hs.reached (Or.inl ?_)
    simpa using hr

/-- A step of the thread, when the connection does not stand or does not take the data. -/
theorem TcpWaits.step {s : TcpForwarder} {now : Time} {e : LoopEvent} {l : Loop} (hs : TcpWaits net ep text s)
    (hno : net.connect ep.host ep.port = .ok → net.sendall (wire text) ≠ none)
    (he : Loop.next net now (.tcp s) = some e) (h : (Loop.tcp s).step e = some l) :
    ∃ t, l = .tcp t ∧ TcpWaits net ep text t := by
  simp only [Loop.next] at he
  rcases hpc : s.pc with _ | _ | _ | q | q | _
  · rw [hpc] at he
    cases he
    obtain ⟨t, ht, rfl⟩ := Option.map_eq_some_iff.1 h
    exact ⟨t, rfl, hs.check ht⟩
  · rw [hpc] at he
    cases he
    obtain ⟨t, ht, rfl⟩ := Option.map_eq_some_iff.1 h
    obtain ⟨-, rfl⟩ := TcpForwarder.step_connect ht
    exact ⟨_, rfl, hs.tryConnect⟩
  · rw [hpc] at he
    cases he
    obtain ⟨t, ht, rfl⟩ := Option.map_eq_some_iff.1 h
    exact ⟨t, rfl, hs.get ht⟩
  · rw [hpc] at he
    cases he
    obtain ⟨t, ht, rfl⟩ := Option.map_eq_some_iff.1 h
    obtain ⟨q', hq', rfl⟩ := TcpForwarder.step_send ht
    obtain rfl := TcpPc.send.inj (hpc.symm.trans hq')
    exact ⟨_, rfl, hs.trySend now hpc hno⟩
  · rw [hpc] at he
    cases he
    obtain ⟨t, ht, rfl⟩ := Option.map_eq_some_iff.1 h
    obtain ⟨q', hq', rfl⟩ := TcpForwarder.step_requeue ht
    obtain rfl := TcpPc.requeue.inj (hpc.symm.trans hq')
    exact ⟨_, rfl, hs.requeue hpc⟩
  · rw [hpc] at he
    cases he

/-- A TCP worker counts the sentence exactly when the connection stands and takes it. -/
theorem tcp_counted_iff (h : transportOf ep.protocol = .tcp) : Counted net clock queueSize ep sentence.text ↔
    net.connect ep.host ep.port = .ok ∧ net.sendall (wire sentence.text) = none := by
  rw [counted_iff, h]
  constructor
  · intro hcounts
    by_contra hno
    have hwaits : TcpWaits net ep sentence.text (tcpOffered ep queueSize sentence.text) :=
      ⟨rfl, by simp [tcpOffered, offered], by simp [tcpOffered], by simp [tcpOffered, offered], rfl⟩
    refine Loop.not_counts (fun now s e m hs he hm => ?_) (fun s hs => hs.sent) hwaits hcounts
    exact hs.step (fun h1 h2 => hno ⟨h1, h2⟩) he hm
  · rintro ⟨hconnect, hsend⟩
    exact tcp_counts clock queueSize sentence.nonempty hconnect hsend

/-! ### UDP -/

/-- What holds of a UDP worker as long as its sentence is not sent. -/
structure UdpWaits (net : Network) (ep : Endpoint) (text : Str) (s : UdpForwarder) : Prop where
  same : s.worker.ep = ep
  queue : ∀ q ∈ s.worker.queue, q.sentence = text
  held : ∀ q, s.pc = .send q → q.sentence = text
  reached : s.pc = .start ∨ s.pc = .finished ∨ net.socket = none
  sent : s.worker.stats.sent = 0

theorem udp_counts (clock : Clock) (queueSize : ℕ) (hne : text ≠ []) (hsocket : net.socket = none)
    (hsend : net.sendResult ep text = .ok) :
    ∃ n, 0 < (Loop.after net clock (.udp (udpOffered ep queueSize text)) n).sent := by
  have hnonempty : (⟨0, text⟩ : Queued).nonempty = true := decide_eq_true hne
  have hstart : decide (net.socket = none) = true := decide_eq_true hsocket
  have h0 : Loop.after net clock (.udp (udpOffered ep queueSize text)) 0 = .udp (udpOffered ep queueSize text) := rfl
  have h1 := Loop.after_succ h0 (congrArg (fun b => some (LoopEvent.udp (.start b))) hstart) rfl
  have h2 := Loop.after_succ h1 (e := .udp .check) rfl rfl
  have h3 := Loop.after_succ h2 (e := .udp .get) rfl
    (by simp only [Loop.step, UdpForwarder.step, if_true, udpOffered, offered, hnonempty]; rfl)
  have h4 := Loop.after_succ h3 (congrArg (fun r => some (LoopEvent.udp (.send r (clock.now 3)))) hsend) rfl
  refine ⟨4, ?_⟩
  rw [h4]
  exact Nat.succ_pos _

theorem UdpWaits.leave {s : UdpForwarder} (hs : UdpWaits net ep text s) : UdpWaits net ep text s.leave where
  same := Worker.closeSock_ep.trans hs.same
  queue := by simpa [UdpForwarder.leave] using hs.queue
  held q hq := by simp [UdpForwarder.leave] at hq
  reached := Or.inr (Or.inl rfl)
  sent := by simpa [UdpForwarder.leave] using hs.sent

theorem UdpWaits.socket {s : UdpForwarder} (hs : UdpWaits net ep text s) (h1 : s.pc ≠ .start)
    (h2 : s.pc ≠ .finished) : net.socket = none := (hs.reached.resolve_left h1).resolve_left h2

theorem UdpWaits.get {s t : UdpForwarder} (hs : UdpWaits net ep text s) (hpc : s.pc = .get)
    (h : s.step .get = some t) : UdpWaits net ep text t := by
  have hsocket := hs.socket (by simp [hpc]) (by simp [hpc])
  have hqueue := hs.queue
  simp only [UdpForwarder.step, if_pos hpc] at h
  split at h
  · obtain rfl := Option.some.inj h
    exact ⟨hs.same, hs.queue, by simp, Or.inr (Or.inr hsocket), hs.sent⟩
  · rename_i q queue hq
    obtain rfl := Option.some.inj h
    rw [hq] at hqueue
    refine ⟨hs.same, fun q' hq' => hqueue q' (List.mem_cons_of_mem _ hq'), ?_, Or.inr (Or.inr hsocket), hs.sent⟩
    intro q' hq'
    simp only at hq'
    split at hq'
    · cases hq'
      exact hqueue q List.mem_cons_self
    · cases hq'

theorem UdpWaits.trySend {s : UdpForwarder} {q : Queued} (now : Time) (hs : UdpWaits net ep text s)
    (hpc : s.pc = .send q) (hno : net.socket = none → net.sendResult ep text ≠ .ok) :
    UdpWaits net ep text (s.trySend q now (net.sendResult s.worker.ep q.sentence)) := by
  have hsocket := hs.socket (by simp [hpc]) (by simp [hpc])
  rw [hs.same, hs.held q hpc]
  rcases hsend : net.sendResult ep text with _ | err | _
  · exact absurd hsend (hno hsocket)
  · exact ⟨hs.same, hs.queue, by simp [UdpForwarder.trySend], Or.inr (Or.inr hsocket), hs.sent⟩
  · exact hs.leave

theorem UdpWaits.step {s : UdpForwarder} {now : Time} {e : LoopEvent} {l : Loop} (hs : UdpWaits net ep text s)
    (hno : net.socket = none → net.sendResult ep text ≠ .ok)
    (he : Loop.next net now (.udp s) = some e) (h : (Loop.udp s).step e = some l) :
    ∃ t, l = .udp t ∧ UdpWaits net ep text t := by
  simp only [Loop.next] at he
  rcases hpc : s.pc with _ | _ | _ | q | _
  · rw [hpc] at he
    cases he
    obtain ⟨t, ht, rfl⟩ := Option.map_eq_some_iff.1 h
    refine ⟨t, rfl, ?_⟩
    simp only [UdpForwarder.step, if_pos hpc] at ht
    split at ht
    · rename_i hsocket
      obtain rfl := Option.some.inj ht
      exact ⟨hs.same, hs.queue, by simp, Or.inr (Or.inr (of_decide_eq_true hsocket)), hs.sent⟩
    · obtain rfl := Option.some.inj ht
      exact hs.leave
  · rw [hpc] at he
    cases he
    obtain ⟨t, ht, rfl⟩ := Option.map_eq_some_iff.1 h
    refine ⟨t, rfl, ?_⟩
    simp only [UdpForwarder.step, if_pos hpc] at ht
    split at ht
    · obtain rfl := Option.some.inj ht
      exact hs.leave
    · obtain rfl := Option.some.inj ht
      exact ⟨hs.same, hs.queue, by simp, Or.inr (Or.inr (hs.socket (by simp [hpc]) (by simp [hpc]))), hs.sent⟩
  · rw [hpc] at he
    cases he
    obtain ⟨t, ht, rfl⟩ := Option.map_eq_some_iff.1 h
    exact ⟨t, rfl, hs.get hpc ht⟩
  · rw [hpc] at he
    cases he
    obtain ⟨t, ht, rfl⟩ := Option.map_eq_some_iff.1 h
    simp only [UdpForwarder.step, hpc, Option.some.injEq] at ht
    subst ht
    exact ⟨_, rfl, hs.trySend now hpc hno⟩
  · rw [hpc] at he
    cases he

/-- A UDP worker counts the sentence exactly when it has a socket and the datagram goes out. -/
theorem udp_counted_iff (h : transportOf ep.protocol = .udp) : Counted net clock queueSize ep sentence.text ↔
    net.socket = none ∧ net.sendResult ep sentence.text = .ok := by
  rw [counted_iff, h]
  constructor
  · intro hcounts
    by_contra hno
    have hwaits : UdpWaits net ep sentence.text (udpOffered ep queueSize sentence.text) :=
      ⟨rfl, by simp [udpOffered, offered], by simp [udpOffered], Or.inl rfl, rfl⟩
    refine Loop.not_counts (fun now s e m hs he hm => ?_) (fun s hs => hs.sent) hwaits hcounts
    exact hs.step (fun h1 h2 => hno ⟨h1, h2⟩) he hm
  · rintro ⟨hsocket, hsend⟩
    exact udp_counts clock queueSize sentence.nonempty hsocket hsend

/-! ### HTTP -/

/-- What holds of an HTTP worker as long as its sentence is not sent. -/
structure HttpWaits (net : Network) (ep : Endpoint) (text : Str) (s : HttpForwarder) : Prop where
  same : s.worker.ep = ep
  single : s.batch.length + s.worker.queue.length ≤ 1
  held : ∀ q ∈ s.batch ++ s.worker.queue, q.sentence = text
  sent : s.worker.stats.sent = 0

theorem HttpWaits.tryPost {s : HttpForwarder} (now : Time) (hs : HttpWaits net ep text s)
    (hno : ∀ status, net.post (net.url ep) text ≠ .ok status) :
    HttpWaits net ep text (s.tryPost now (net.postResult s.worker.ep (HttpForwarder.body s.batch))) := by
  have hqueue : ∀ q ∈ [] ++ s.worker.queue, q.sentence = text := fun q hq =>
    hs.held q (List.mem_append_right _ hq)
  have hsingle : ([] : List Queued).length + s.worker.queue.length ≤ 1 := by
    have := hs.single
    simp only [List.length_nil]
    omega
  rcases hpost : net.postResult s.worker.ep (HttpForwarder.body s.batch) with _ | err
  · refine ⟨hs.same, hsingle, hqueue, ?_⟩
    rcases hbatch : s.batch with _ | ⟨q, batch⟩
    · simp [HttpForwarder.tryPost, hbatch, hs.sent]
    · exfalso
      have hnil : batch = [] := by
        have := hs.single
        rw [hbatch, List.length_cons] at this
        exact List.length_eq_zero_iff.1 (by omega)
      have hq : q.sentence = text := hs.held q (by simp [hbatch])
      rw [hbatch, hnil, hs.same, HttpForwarder.body, List.map_singleton, hq, List.intercalate_singleton,
        Network.postResult] at hpost
      rcases hstatus : net.post (net.url ep) text with err | status
      · rw [hstatus] at hpost
        cases hpost
      · exact hno status hstatus
  · exact ⟨hs.same, hsingle, hqueue, hs.sent⟩

theorem HttpWaits.get {s t : HttpForwarder} (hs : HttpWaits net ep text s) (hpc : s.pc = .get)
    (h : s.step .get = some t) : HttpWaits net ep text t := by
  have hsingle := hs.single
  have hheld := hs.held
  simp only [HttpForwarder.step, if_pos hpc] at h
  split at h
  · obtain rfl := Option.some.inj h
    exact ⟨hs.same, hs.single, hs.held, hs.sent⟩
  · rename_i q queue hq
    obtain rfl := Option.some.inj h
    rw [hq] at hsingle hheld
    refine ⟨hs.same, ?_, ?_, hs.sent⟩
    · simp only [List.length_cons] at hsingle ⊢
      split
      · rw [List.length_append, List.length_singleton]
        omega
      · omega
    · intro q' hq'
      refine hheld q' ?_
      simp only at hq'
      split at hq'
      · rwa [List.append_assoc] at hq'
      · rcases List.mem_append.1 hq' with hq' | hq'
        · exact List.mem_append_left _ hq'
        · exact List.mem_append_right _ (List.mem_cons_of_mem _ hq')

theorem HttpWaits.step {s : HttpForwarder} {now : Time} {e : LoopEvent} {l : Loop} (hs : HttpWaits net ep text s)
    (hno : ∀ status, net.post (net.url ep) text ≠ .ok status)
    (he : Loop.next net now (.http s) = some e) (h : (Loop.http s).step e = some l) :
    ∃ t, l = .http t ∧ HttpWaits net ep text t := by
  simp only [Loop.next] at he
  rcases hpc : s.pc with _ | _ | _ | _ | start | _
  · rw [hpc] at he
    cases he
    obtain ⟨t, ht, rfl⟩ := Option.map_eq_some_iff.1 h
    simp only [HttpForwarder.step, if_pos hpc, Option.some.injEq] at ht
    subst ht
    exact ⟨_, rfl, hs.same, hs.single, hs.held, hs.sent⟩
  · rw [hpc] at he
    cases he
    obtain ⟨t, ht, rfl⟩ := Option.map_eq_some_iff.1 h
    refine ⟨t, rfl, ?_⟩
    simp only [HttpForwarder.step, if_pos hpc] at ht
    split at ht
    · obtain rfl := Option.some.inj ht
      exact ⟨Worker.closeSock_ep.trans hs.same, by simpa using hs.single, by simpa using hs.held,
        by simpa using hs.sent⟩
    · obtain rfl := Option.some.inj ht
      exact ⟨hs.same, hs.single, hs.held, hs.sent⟩
  · rw [hpc] at he
    cases he
    obtain ⟨t, ht, rfl⟩ := Option.map_eq_some_iff.1 h
    exact ⟨t, rfl, hs.get hpc ht⟩
  · rw [hpc] at he
    cases he
    obtain ⟨t, ht, rfl⟩ := Option.map_eq_some_iff.1 h
    simp only [HttpForwarder.step, if_pos hpc, Option.some.injEq] at ht
    subst ht
    exact ⟨_, rfl, hs.same, hs.single, hs.held, hs.sent⟩
  · rw [hpc] at he
    cases he
    obtain ⟨t, ht, rfl⟩ := Option.map_eq_some_iff.1 h
    simp only [HttpForwarder.step, hpc, Option.some.injEq] at ht
    subst ht
    exact ⟨_, rfl, hs.tryPost start hno⟩
  · rw [hpc] at he
    cases he

/-- The sentence is in the queue or in the batch, and the loop is at its head. -/
structure Holding (ep : Endpoint) (text : Str) (since : Time) (s : HttpForwarder) : Prop where
  pc : s.pc = .loop
  same : s.worker.ep = ep
  running : s.worker.stopped = false
  flushed : s.lastFlush = since
  held : s.batch ++ s.worker.queue = [⟨0, text⟩]

/-- One turn of the loop: the batch is posted once it is old enough. -/
theorem Holding.turn {l : Loop} {s : HttpForwarder} {n : ℕ} {since : Time} {status : ℕ} (hne : text ≠ [])
    (hpost : net.post (net.url ep) text = .ok status) (hs : Holding ep text since s)
    (h : l.after net clock n = .http s) :
    (∃ m, 0 < (l.after net clock m).sent) ∨ clock.now (n + 2) ≤ since + 1 ∧
      ∃ t, l.after net clock (n + 3) = .http t ∧ Holding ep text since t := by
  have hnonempty : (⟨0, text⟩ : Queued).nonempty = true := decide_eq_true hne
  have h1 : l.after net clock (n + 1) = .http { s with pc := .get } :=
    Loop.after_succ h (e := .http .check) (by simp [Loop.next, hs.pc])
      (by simp [Loop.step, HttpForwarder.step, hs.pc, hs.running])
  have h2 : l.after net clock (n + 2) = .http { s with
      worker := { s.worker with queue := [] }, batch := [⟨0, text⟩], pc := .flush } := by
    refine Loop.after_succ h1 (e := .http .get) rfl ?_
    have hheld := hs.held
    rcases hq : s.worker.queue with _ | ⟨q, queue⟩
    · rw [hq, List.append_nil] at hheld
      simp only [Loop.step, HttpForwarder.step, if_true, hq, Option.map_some, ← hheld]
      rw [← hq]
    · rw [hq, List.append_eq_singleton_iff] at hheld
      obtain ⟨hb, hqueue⟩ : s.batch = [] ∧ q :: queue = [⟨0, text⟩] := by simpa using hheld
      obtain ⟨rfl, rfl⟩ := List.cons.inj hqueue
      simp [Loop.step, HttpForwarder.step, hq, hb, hnonempty]
  have hflush : HttpForwarder.flushes { s with
      worker := { s.worker with queue := [] }, batch := [⟨0, text⟩], pc := .flush } (clock.now (n + 2)) =
        decide (1 < clock.now (n + 2) - since) := by
    simp [HttpForwarder.flushes, hs.flushed]
  by_cases hold : 1 < clock.now (n + 2) - since
  · refine Or.inl ⟨n + 4, ?_⟩
    have h3 : l.after net clock (n + 3) = .http { s with
        worker := { s.worker with queue := [] }, batch := [⟨0, text⟩], pc := .post (clock.now (n + 2)) } :=
      Loop.after_succ h2 (e := .http (.flush (clock.now (n + 2)))) rfl
        (by simp [Loop.step, HttpForwarder.step, hflush, hold])
    have hresult : net.postResult s.worker.ep (HttpForwarder.body [⟨0, text⟩]) = none := by
      rw [hs.same, HttpForwarder.body, List.map_singleton, List.intercalate_singleton, Network.postResult, hpost]
    rw [Loop.after_succ h3 (congrArg (fun r => some (LoopEvent.http (.post r))) hresult) rfl]
    exact Nat.succ_pos _
  · refine Or.inr ⟨by linarith, _, Loop.after_succ h2 (e := .http (.flush (clock.now (n + 2)))) rfl
      (by simp only [Loop.step, HttpForwarder.step, if_true, hflush, hold, decide_false]; rfl), ?_⟩
    exact ⟨rfl, hs.same, hs.running, hs.flushed, List.append_nil _⟩

theorem http_counts (clock : Clock) (queueSize : ℕ) (hne : text ≠ []) {status : ℕ}
    (hpost : net.post (net.url ep) text = .ok status) :
    ∃ n, 0 < (Loop.after net clock (.http (httpOffered ep queueSize text)) n).sent := by
  by_contra hno
  have hturns : ∀ k, clock.now (3 * k) ≤ clock.now 0 + 1 ∧
      ∃ t, Loop.after net clock (.http (httpOffered ep queueSize text)) (3 * k + 1) = .http t ∧
        Holding ep text (clock.now 0) t := by
    intro k
    induction k with
    | zero =>
      refine ⟨by linarith, _, Loop.after_succ rfl (e := .http (.start (clock.now 0))) rfl rfl, ?_⟩
      exact ⟨rfl, rfl, rfl, rfl, rfl⟩
    | succ k ih =>
      obtain ⟨-, t, ht, hholding⟩ := ih
      exact (hholding.turn hne hpost ht).resolve_left hno
  obtain ⟨n, hn⟩ := clock.unbounded (clock.now 0 + 1)
  have := clock.mono (show n ≤ 3 * n by omega)
  linarith [(hturns n).1]

/-- An HTTP worker counts the sentence exactly when the post returns. -/
theorem http_counted_iff (h : transportOf ep.protocol = .http) : Counted net clock queueSize ep sentence.text ↔
    ∃ status, net.post (net.url ep) sentence.text = .ok status := by
  rw [counted_iff, h]
  constructor
  · intro hcounts
    by_contra hno
    have hwaits : HttpWaits net ep sentence.text (httpOffered ep queueSize sentence.text) :=
      ⟨rfl, le_refl 1, by simp [httpOffered, offered], rfl⟩
    refine Loop.not_counts (fun now s e m hs he hm => ?_) (fun s hs => hs.sent) hwaits hcounts
    exact hs.step (fun status hstatus => hno ⟨status, hstatus⟩) he hm
  · rintro ⟨status, hpost⟩
    exact http_counts clock queueSize sentence.nonempty hpost

end AisServer.Forward
