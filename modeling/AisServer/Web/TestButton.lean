import Mathlib.Algebra.Order.Archimedean.Basic
import AisServer.Forward.TestEndpoint
import AisServer.Web.StoredEndpoints

/-!
# The Test button

`endpoints_test` of `api.py`, and what it says of the worker of the same row on the same network.

* `testEndpoint_iff` — the test has the worker's transport, and succeeds exactly when the worker counts the
  sentence, under a condition on the row and the network.
-/

namespace AisServer.Web

open AisServer.Lib AisServer.Store AisServer.Forward

def testSentence : Sentence where
  text := defaultSentence
  nonempty := by decide
  ascii c hc := by
    have hall : (defaultSentence.all fun c => c.toNat < 128) = true := by decide
    exact of_decide_eq_true (List.all_eq_true.1 hall c hc)

/-- What the test says is what the worker does: they take one transport, and the test succeeds exactly when the
worker counts the sentence. -/
def TellsTruth (net : Network) (clock : Clock) (queueSize : ℕ) (ep : Endpoint) (sentence : Sentence) : Prop :=
  testTransport ep.protocol = some (transportOf ep.protocol) ∧
    ((testEndpoint net ep sentence.text).1 = true ↔ Counted net clock queueSize ep sentence.text)

/-- The protocol is spelled as the code spells it, an answer over HTTP is a success, and an endpoint that broadcasts
reaches no one without the option `SO_BROADCAST`. -/
structure Truthful (net : Network) (ep : Endpoint) (sentence : Sentence) : Prop where
  protocol : ep.protocol ∈ protocols
  status : ep.protocol = .text "http".toList → ∀ status, net.post (net.url ep) sentence.text = .ok status →
    200 ≤ status ∧ status < 300
  broadcast : ep.protocol = .text "udp".toList → ep.broadcast = true → net.socket = none →
    net.setBroadcast ≠ none → net.sendto false (wire sentence.text) ep.host ep.port ≠ .ok

variable {net : Network} {clock : Clock} {queueSize : ℕ} {ep : Endpoint} {sentence : Sentence}

theorem mem_protocols {v : Value} :
    v ∈ protocols ↔ v = .text "tcp".toList ∨ v = .text "udp".toList ∨ v = .text "http".toList := by
  simp only [protocols, List.map_cons, List.map_nil, List.mem_cons, List.not_mem_nil, or_false]

/-- For another spelling the test has no transport, while the worker has one. -/
theorem testTransport_eq_none {v : Value} (h : v ∉ protocols) : testTransport v = none := by
  rw [mem_protocols] at h
  push Not at h
  rw [testTransport, if_neg h.1, if_neg h.2.1, if_neg h.2.2]

theorem tellsTruth_tcp (h : ep.protocol = .text "tcp".toList) : TellsTruth net clock queueSize ep sentence := by
  have htransport : transportOf ep.protocol = .tcp := by rw [h]; decide
  have htest : testTransport ep.protocol = some .tcp := by rw [h]; decide
  refine ⟨htest.trans (congrArg some htransport.symm), ?_⟩
  rw [testEndpoint, htest, tcp_counted_iff htransport]
  exact testTcp_iff

theorem tellsTruth_udp (h : ep.protocol = .text "udp".toList) : TellsTruth net clock queueSize ep sentence ↔
    (ep.broadcast = true → net.socket = none → net.setBroadcast ≠ none →
      net.sendto false (wire sentence.text) ep.host ep.port ≠ .ok) := by
  have htransport : transportOf ep.protocol = .udp := by rw [h]; decide
  have htest : testTransport ep.protocol = some .udp := by rw [h]; decide
  have hresult : net.sendResult ep sentence.text = .ok ↔
      net.sendto (net.broadcasts ep) (wire sentence.text) ep.host ep.port = .ok := by
    unfold Network.sendResult
    rcases net.sendto (net.broadcasts ep) (wire sentence.text) ep.host ep.port with _ | _ | _ <;> simp
  unfold TellsTruth
  rw [testEndpoint, htest, udp_counted_iff htransport, hresult]
  simp only [testUdp_iff, htransport, true_and]
  by_cases hb : ep.broadcast = true
  · rcases hset : net.setBroadcast with _ | text
    · simp [Network.broadcasts, hb, hset]
    · simp [Network.broadcasts, hb, hset]
  · simp [Network.broadcasts, hb]

theorem tellsTruth_http (h : ep.protocol = .text "http".toList) : TellsTruth net clock queueSize ep sentence ↔
    ∀ status, net.post (net.url ep) sentence.text = .ok status → 200 ≤ status ∧ status < 300 := by
  have htransport : transportOf ep.protocol = .http := by rw [h]; decide
  have htest : testTransport ep.protocol = some .http := by rw [h]; decide
  unfold TellsTruth
  rw [testEndpoint, htest, http_counted_iff htransport]
  simp only [testHttp_iff, htransport, true_and]
  constructor
  · rintro hiff status hstatus
    obtain ⟨status', hstatus', hrange⟩ := hiff.2 ⟨status, hstatus⟩
    obtain rfl := Except.ok.inj (hstatus.symm.trans hstatus')
    exact hrange
  · exact fun hrange => ⟨fun ⟨status, hstatus, _⟩ => ⟨status, hstatus⟩,
      fun ⟨status, hstatus⟩ => ⟨status, hstatus, hrange status hstatus⟩⟩

/-- **The Test button tells the truth.**  For every row, on every network: the test takes the worker's transport and
succeeds exactly when the worker counts the sentence, just when the row and the network are `Truthful`. -/
theorem testEndpoint_iff (net : Network) (clock : Clock) (queueSize : ℕ) (ep : Endpoint) (sentence : Sentence) :
    TellsTruth net clock queueSize ep sentence ↔ Truthful net ep sentence := by
  by_cases h : ep.protocol ∈ protocols
  · rcases mem_protocols.1 h with hp | hp | hp
    · refine iff_of_true (tellsTruth_tcp hp) ⟨h, fun hp' => ?_, fun hp' => ?_⟩
      · exact absurd (hp.symm.trans hp') (by decide)
      · exact absurd (hp.symm.trans hp') (by decide)
    · rw [tellsTruth_udp hp]
      refine ⟨fun hb => ⟨h, fun hp' => ?_, fun _ => hb⟩, fun hb => hb.broadcast hp⟩
      exact absurd (hp.symm.trans hp') (by decide)
    · rw [tellsTruth_http hp]
      refine ⟨fun hs => ⟨h, fun _ => hs, fun hp' => ?_⟩, fun hs => hs.status hp⟩
      exact absurd (hp.symm.trans hp') (by decide)
  · refine iff_of_false (fun ht => ?_) fun ht => h ht.protocol
    rw [TellsTruth, testTransport_eq_none h] at ht
    cases ht.1

/-- A server that takes every connection and answers every post with 404. -/
def notFound : Network where
  connect _ _ := .ok
  sendall _ := none
  sendto _ _ _ _ := .ok
  post _ _ := .ok 404
  str _ := []
  encodeError _ := []

/-- A step each second. -/
def seconds : Clock where
  now n := n
  mono := Nat.mono_cast
  unbounded t := exists_nat_gt t

/-- An endpoint over HTTP is made, and then its protocol changed to one in capitals. -/
def collector : List EndpointRequest := [
  .add (object [("name", .str (text "collector")), ("host", .str (text "192.168.1.20")), ("port", .int 8080),
    ("protocol", .str (text "http"))] (by decide)) 0,
  .update 1 (object [("protocol", .str (text "UDP"))] (by decide)) 1]

def collectorRow (protocol : String) (updatedAt : ℤ) : Endpoint where
  id := 1
  name := .text "collector".toList
  protocol := .text protocol.toList
  host := .text "192.168.1.20".toList
  port := .int 8080
  path := .null
  enabled := true
  createdAt := 0
  updatedAt := updatedAt

/-- The test reports `HTTP 404` and the worker counts the sentence; with the protocol in capitals the test knows no
transport and the worker takes TCP. -/
theorem testEndpoint_fails :
    ((serveAll asciiRuntime {} (collector.take 1)).endpoints = [collectorRow "http" 0] ∧
      endpointsTest notFound (serveAll asciiRuntime {} (collector.take 1)) 1 =
        messageJson false "HTTP 404".toList ∧
      Counted notFound seconds 1000 (collectorRow "http" 0) testSentence.text ∧
      ¬TellsTruth notFound seconds 1000 (collectorRow "http" 0) testSentence) ∧
    (serveAll asciiRuntime {} collector).endpoints = [collectorRow "UDP" 1] ∧
      testTransport (collectorRow "UDP" 1).protocol = none ∧
      transportOf (collectorRow "UDP" 1).protocol = .tcp ∧
      ¬TellsTruth notFound seconds 1000 (collectorRow "UDP" 1) testSentence := by
  have hhttp : (collectorRow "http" 0).protocol = .text "http".toList := rfl
  have hnone : testTransport (collectorRow "UDP" 1).protocol = none := by decide
  have hrow : (serveAll asciiRuntime {} (collector.take 1)).endpoints = [collectorRow "http" 0] := by decide +kernel
  have htest : testEndpoint notFound (collectorRow "http" 0) defaultSentence = (false, "HTTP 404".toList) := by
    decide +kernel
  refine ⟨⟨hrow, ?_, ?_, fun h => ?_⟩, by decide +kernel, hnone, by decide, fun h => ?_⟩
  · have hfind : [collectorRow "http" 0].find? (fun e => e.id = 1) = some (collectorRow "http" 0) := by decide
    rw [endpointsTest, if_pos (by decide), hrow, hfind]
    simp only [htest]
  · exact (http_counted_iff (by decide)).2 ⟨404, rfl⟩
  · exact absurd ((tellsTruth_http hhttp).1 h 404 rfl).2 (by decide)
  · rw [TellsTruth, hnone] at h
    cases h.1

end AisServer.Web
