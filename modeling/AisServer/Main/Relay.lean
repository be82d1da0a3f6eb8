import AisServer.Ingest.Terminators
import AisServer.Main.EndToEnd

/-!
# Two servers in a row

An endpoint may be the ingest port of another server.  What a worker sends there comes from accepted lines, and such a
sentence reads as itself.

* `validSentence_of_accepted` — a sentence that was accepted is accepted again;
* `relay` — the next server hands on what it is sent, unchanged and in order.
-/

namespace AisServer.Main

open AisServer.Lib AisServer.Store AisServer.Nmea AisServer.Ingest AisServer.Stream AisServer.Forward

/-! ### What was accepted is accepted again -/

theorem getLast_strip {cs : List Char} {s : Str} : ∀ a ∈ (strip cs s).getLast?, a ∉ cs := by
  intro a ha
  rw [strip, List.getLast?_reverse] at ha
  have hfirst := List.head?_dropWhile_not (· ∈ cs) (lstrip cs s).reverse
  rw [lstrip] at ha
  rw [Option.mem_def.1 ha] at hfirst
  simpa using hfirst

theorem suffix_of_readLine {raw : List UInt8} {s : Str} {sid : Option Str} (h : readLine raw = some (s, sid)) :
    s <:+ decodeLine raw := by
  unfold readLine at h
  split at h
  · cases h
  · have hs : (stripTagBlock (decodeLine raw)).1 = s := congrArg Prod.fst (Option.some.inj h)
    subst hs
    unfold stripTagBlock
    split
    · rename_i rest hline
      rw [hline]
      split
      · exact List.suffix_rfl
      · rename_i block body hsplit
        obtain ⟨rfl, -⟩ := split1_eq_some.1 hsplit
        exact ⟨'\\' :: block ++ ['\\'], by simp⟩
    · exact List.suffix_rfl

theorem validSentence_of_accepted {raw : List UInt8} {s : Str} (hraw : 10 ∉ raw) (h : accepted raw = some s) :
    ValidSentence s := by
  obtain ⟨hn, -⟩ := wire_of_accepted hraw h
  obtain ⟨⟨t, ht, body, checksum, hs, -⟩, hascii⟩ := accepted_spec h
  obtain ⟨⟨sid, hread⟩, hwell⟩ := accepted_eq_some.1 h
  refine ⟨hwell, fun c hc => (hascii c hc).1, hn, ?_⟩
  have hfirst : lstrip ['\r', '\n', '\t', ' '] s = s := lstrip_eq_self.2 (by simp [hs])
  rw [strip_eq, hfirst, rstrip_eq_self]
  intro a ha
  -- the sentence ends where its line does
  have hne : s ≠ [] := by simp [hs]
  obtain ⟨before, hline⟩ := suffix_of_readLine hread
  have hlast : (decodeLine raw).getLast? = some a := by
    rw [← hline, List.getLast?_append_of_ne_nil _ hne]
    exact ha
  exact getLast_strip a hlast

/-! ### The next server -/

variable {C : CacheOps Str Time} {digest : Str → Str} {cfg : Config} {ringSize queueSize : ℕ} {startedAt : Time}

/-- **Two servers in a row.**  When a worker of one server has sent some of its sentences over a connection to another
server, and the session there has received all their bytes, in any chunks, and waits for more, it has handed on exactly
these sentences, unchanged and in that order, and rejected nothing; whatever else the two servers do. -/
theorem relay {es : List ServerEvent} {s : Server C}
    (h : run (Server.step digest) (Server.new C cfg ringSize startedAt queueSize) es = some s) {r : Ref}
    {w : TcpForwarder} (hr : s.hub.fleet.threads[r]? = some (.tcp w)) {part : List Queued} (hpart : part <:+: w.sent)
    {fs : List IngestEvent} {d : Delivery} (hd : run Delivery.step {} fs = some d) {i : ℕ} {x : Session}
    (hx : d.ledger.server.sessions[i]? = some x) (hpc : x.pc = .recv)
    (hbytes : (d.ledger.chunksOf i).flatten = part.flatMap fun q => wire q.sentence) :
    d.callsOf i = part.map (·.sentence) ∧ d.rejectedOf i = [] := by
  obtain ⟨ingestEvents, hingest⟩ := Server.ingest_of_run h
  obtain ⟨sentences, hdelivered, hsub, -⟩ := Server.delivered_of_run h hr
  have hvalid : ∀ q ∈ part, ValidSentence q.sentence := by
    intro q hq
    have hmem : q.sentence ∈ sentences := by
      rw [show sentences = w.sent.map (·.sentence) from hdelivered]
      exact List.mem_map_of_mem (hpart.subset hq)
    obtain ⟨call, hcall, heq⟩ := Server.handed_of_delivered h hsub hmem
    obtain ⟨raw, hraw, hacc⟩ := TcpIngest.handed_of_run hingest call hcall
    exact heq ▸ validSentence_of_accepted hraw hacc
  have hstream : (d.ledger.chunksOf i).flatten = stream (part.map fun q => (q.sentence, Terminator.crlf)) := by
    rw [hbytes, stream, List.flatMap_map]
    refine List.flatMap_congr fun q _ => ?_
    rw [wire, encodeAscii_append]
    rfl
  have hv : ∀ y ∈ part.map fun q => (q.sentence, Terminator.crlf), ValidSentence y.1 := by
    intro y hy
    obtain ⟨q, hq, rfl⟩ := List.mem_map.1 hy
    exact hvalid q hq
  have hcr : ∀ y ∈ part.map fun q => (q.sentence, Terminator.crlf), y.2 ≠ .cr := by
    intro y hy
    obtain ⟨q, -, rfl⟩ := List.mem_map.1 hy
    exact Terminator.noConfusion
  obtain ⟨hcalls, hrejected⟩ := (handed_iff hv hd hx hpc hstream).2 hcr
  exact ⟨by rw [hcalls, List.map_map]; rfl, hrejected⟩

/-- The next server receives what `twoNodes` sends, cut within the first line. -/
def nextServer (bytes : List UInt8) : List IngestEvent :=
  [.start "10.0.0.9".toList "10.0.0.9".toList 140, .recv 0 (bytes.take 20) 140, .line 0, .recv 0 (bytes.drop 20) 141,
    .line 0, .judge 0 141, .line 0, .judge 0 141, .line 0]

theorem relay_twoNodes :
    ∃ s w d, run (Server.step id) (Server.new (refCache Str Time 10 30) ⟨30, 10, 2000, 3⟩ 500 100 9) twoNodes = some s ∧
      s.hub.fleet.threads[0]? = some (.tcp w) ∧
      run Delivery.step {} (nextServer (w.sent.flatMap fun q => wire q.sentence)) = some d ∧
      d.callsOf 0 = w.sent.map (·.sentence) ∧ d.rejectedOf 0 = [] := by
  have hrun : (run (Server.step id) (Server.new (refCache Str Time 10 30) ⟨30, 10, 2000, 3⟩ 500 100 9)
      twoNodes).bind (fun s => (s.hub.fleet.threads[0]?).map sentOverTcp) = some [oneReport, oneReport] := by
    decide +kernel
  have hnext : (run Delivery.step {} (nextServer ([oneReport, oneReport].flatMap wire))).map (fun d =>
      ((d.ledger.server.sessions[0]?).map (·.pc),
        decide ((d.ledger.chunksOf 0).flatten = [oneReport, oneReport].flatMap wire))) =
      some (some .recv, true) := by decide +kernel
  obtain ⟨s, hs, hl⟩ := Option.bind_eq_some_iff.1 hrun
  obtain ⟨l, hl, hsent⟩ := Option.map_eq_some_iff.1 hl
  obtain ⟨d, hd, hfacts⟩ := Option.map_eq_some_iff.1 hnext
  obtain ⟨hpc, hbytes⟩ := Prod.mk.inj hfacts
  obtain ⟨x, hx, hpc⟩ := Option.map_eq_some_iff.1 hpc
  cases l with
  | udp w => cases hsent
  | http w => cases hsent
  | tcp w =>
    have hwire : [oneReport, oneReport].flatMap wire = w.sent.flatMap fun q => wire q.sentence := by
      rw [← hsent, sentOverTcp, List.flatMap_map]
    rw [hwire] at hd hbytes
    obtain ⟨hcalls, hrejected⟩ := relay hs hl List.infix_rfl hd hx hpc (of_decide_eq_true hbytes)
    exact ⟨s, w, d, hs, hl, hd, hcalls, hrejected⟩

end AisServer.Main
