import AisServer.Forward.Worker
import AisServer.Ingest.Sessions

/-!
# From a raw line to the bytes on the wire

What is known of a sentence that `_handle_line` hands on, and of the bytes that a forwarder writes for it.

* `wire_of_handed` — what any run of the sessions hands on is written as one line;
* `dispatched_line` — an accepted sentence is a checked text and a checksum, and is written as one line.
-/

namespace AisServer.Forward

open AisServer.Lib AisServer.Nmea AisServer.Ingest

/-- A single well-formed sentence: a prefix, a body, and two hexadecimal digits at the very end. -/
def SingleSentence (s : Str) : Prop :=
  ∃ t ∈ talkers, ∃ body : Str, '*' ∉ body ∧ '\r' ∉ body ∧ '\n' ∉ body ∧
    ∃ a ∈ hexDigits, ∃ b ∈ hexDigits,
      s = '!' :: t ++ body ++ ['*', a, b] ∧ 16 * hexVal a + hexVal b = xorOf (t ++ body)

/-! ### The bytes of a line -/

theorem wire_of_ascii {s : Str} (h : ∀ c ∈ s, c.toNat < 128) :
    wire s = (s.map fun c => UInt8.ofNat c.toNat) ++ [13, 10] := by
  unfold wire
  rw [encodeAscii_append, encodeAscii_of_ascii h]
  rfl

theorem no_lineFeed {raw : List UInt8} {s : Str} (hraw : 10 ∉ raw)
    (h : ∀ c ∈ s, c.toNat < 128 ∧ UInt8.ofNat c.toNat ∈ raw) :
    '\n' ∉ s ∧ 10 ∉ s.map fun c => UInt8.ofNat c.toNat := by
  have hmap : 10 ∉ s.map fun c => UInt8.ofNat c.toNat := by
    intro hm
    obtain ⟨c, hc, he⟩ := List.mem_map.1 hm
    have := (h c hc).2
    rw [he] at this
    exact hraw this
  refine ⟨fun hn => hmap ?_, hmap⟩
  exact List.mem_map.2 ⟨'\n', hn, rfl⟩

theorem wire_of_accepted {raw : List UInt8} {s : Str} (hraw : 10 ∉ raw) (h : accepted raw = some s) :
    '\n' ∉ s ∧ ∃ line, line = s.map (fun c => UInt8.ofNat c.toNat) ∧ 10 ∉ line ∧
      wire s = line ++ [13, 10] := by
  have hchars := (accepted_spec h).2
  obtain ⟨hn, hmap⟩ := no_lineFeed hraw hchars
  exact ⟨hn, _, rfl, hmap, wire_of_ascii fun c hc => (hchars c hc).1⟩

/-- Whatever the sessions do, what they hand on is written as one line. -/
theorem wire_of_handed {es : List IngestEvent} {s : TcpIngest} (h : run TcpIngest.step {} es = some s) :
    ∀ p ∈ s.handed, ∃ line, 10 ∉ line ∧ wire p.1 = line ++ [13, 10] := by
  intro p hp
  obtain ⟨raw, hraw, hacc⟩ := TcpIngest.handed_of_run h p hp
  obtain ⟨-, line, -, hline, hwire⟩ := wire_of_accepted hraw hacc
  exact ⟨line, hline, hwire⟩

/-- **What leaves the server.**  A sentence that a raw line hands on is `!`, a checked text that begins
with an accepted prefix, the last `*`, and a checksum, perhaps with more text behind it; the checksum is
read as the exclusive or of the checked text, all that `parse` reads lies before the last `*`, and a
forwarder writes the sentence as one line. -/
theorem dispatched_line {raw : List UInt8} {s : Str} (hraw : 10 ∉ raw) (h : accepted raw = some s) :
    (∃ t ∈ talkers, ∃ body rest, s = '!' :: t ++ ',' :: body ++ '*' :: rest ∧ '*' ∉ rest ∧
      pyInt 16 (rest.take 2) = some (xorOf (t ++ ',' :: body) : ℤ) ∧
      (∀ a ∈ hexDigits, ∀ b ∈ hexDigits, rest.take 2 = [a, b] →
        16 * hexVal a + hexVal b = xorOf (t ++ ',' :: body)) ∧
      ∀ f ∈ fields s, f <:+: '!' :: t ++ ',' :: body) ∧
    '\n' ∉ s ∧ ∃ line, line = s.map (fun c => UInt8.ofNat c.toNat) ∧ 10 ∉ line ∧
      wire s = line ++ [13, 10] := by
  obtain ⟨⟨t, ht, body, rest, hs, hstar, hval, hfields⟩, -⟩ := accepted_spec h
  refine ⟨⟨t, ht, body, rest, hs, hstar, hval, ?_, hfields⟩, wire_of_accepted hraw h⟩
  intro a ha b hb htake
  have hhex := pyInt_hexDigits ha hb
  rw [htake, hhex, Option.some.injEq] at hval
  exact_mod_cast hval

/-- A line whose sentence is written as it came. -/
def reportLine : List UInt8 :=
  encodeAscii "\\s:GIB-01*5C\\!AIVDM,1,1,,A,13aEOK?P00PD2wVMdLDRhgvL289?,0*26\r".toList

theorem dispatched_line_report : ∃ s, accepted reportLine = some s ∧ '\n' ∉ s ∧
    ∃ line, line = s.map (fun c => UInt8.ofNat c.toNat) ∧ 10 ∉ line ∧ wire s = line ++ [13, 10] :=
  ⟨"!AIVDM,1,1,,A,13aEOK?P00PD2wVMdLDRhgvL289?,0*26".toList, by decide +kernel,
    (@dispatched_line reportLine _ (by decide +kernel) (by decide +kernel)).2⟩

/-- The text behind the checksum, which some gateways append, is handed on with the sentence. -/
theorem dispatched_line_tagged :
    ∃ raw : List UInt8, 10 ∉ raw ∧ ∃ s, accepted raw = some s ∧ ¬ SingleSentence s := by
  refine ⟨encodeAscii "!AIVDM,1,1,,A,13aEOK?P00PD2wVMdLDRhgvL289?,0*26,x".toList,
    by decide +kernel, "!AIVDM,1,1,,A,13aEOK?P00PD2wVMdLDRhgvL289?,0*26,x".toList,
    by decide +kernel, ?_⟩
  rintro ⟨t, -, body, -, -, -, a, -, b, hb, hs, -⟩
  have hlast : b = 'x' := by
    have happ : '!' :: t ++ body ++ ['*', a, b] = ('!' :: t ++ body ++ ['*', a]) ++ [b] := by simp
    have hget := congrArg List.getLast? hs
    rw [happ, List.getLast?_concat] at hget
    exact Option.some.inj (hget.symm.trans (by decide))
  subst hlast
  exact absurd hb (by decide)

end AisServer.Forward
