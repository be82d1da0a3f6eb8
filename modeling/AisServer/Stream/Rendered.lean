import AisServer.Ingest.Sessions
import AisServer.Nmea.Render
import AisServer.Stream.Fragments

/-!
# The payload of a sentence

`parse` reads the payload from the text before the first `*`, `on_sentence` from the whole sentence.  A
rendered sentence gives its fields back to the first (`parse_render`), and on every sentence that a session
hands on the two read the same payload.
-/

namespace AisServer.Stream

open AisServer.Lib AisServer.Nmea AisServer.Ingest

theorem payloadOf_of_handed {es : List IngestEvent} {s : TcpIngest} (h : run TcpIngest.step {} es = some s)
    {q : Str × Str × Time} (hq : q ∈ s.handed) : ∃ p, parse q.1 = some p ∧ payloadOf q.1 = p.payload := by
  obtain ⟨raw, -, hraw⟩ := TcpIngest.handed_of_run h q hq
  obtain ⟨-, hw⟩ := accepted_eq_some.1 hraw
  obtain ⟨p, hp, -⟩ := wellFormed_iff.1 hw
  exact ⟨p, hp, payloadOf_of_parse hp⟩

/-- **Parsing undoes encoding.**  A sentence rendered from its fields is parsed into them, with a right
checksum; and whatever the sessions hand on, the payload is found twice in the same place. -/
theorem parse_undoes_render :
    (∀ (upper : Bool) (type messageId channel payload : Str) (count number : ℤ) (fill : ℕ), type ∈ talkers →
      FieldText messageId → FieldText channel → FieldText payload →
      (decimal count.natAbs).length ≤ maxStrDigits → (decimal number.natAbs).length ≤ maxStrDigits →
      (decimal fill).length ≤ maxStrDigits →
      parse (render upper type count number messageId channel payload fill) = some {
        sentenceType := '!' :: type, fragmentCount := count, fragmentNumber := number, messageId, channel
        payload, fillBits := fill, checksumOk := true }) ∧
    ∀ (es : List IngestEvent) (s : TcpIngest), run TcpIngest.step {} es = some s → ∀ q ∈ s.handed,
      ∃ p, parse q.1 = some p ∧ payloadOf q.1 = p.payload :=
  ⟨fun _ _ _ _ _ _ _ _ ht hm hc hp hcount hnumber hfill =>
      parse_render ht hm hc hp hcount hnumber hfill,
    fun _ _ h _ hq => payloadOf_of_handed h hq⟩

/-- A sentence with a negative fragment number and a space in its payload. -/
theorem parse_undoes_render_negative :
    (parse (render true ['A', 'I', 'V', 'D', 'M'] 2 (-17) [] ['A'] ['1', ' ', 'w'] 4)).map
        (fun p => (p.fragmentNumber, p.payload, p.checksumOk)) = some (-17, ['1', ' ', 'w'], true) := by
  rw [parse_undoes_render.1 true ['A', 'I', 'V', 'D', 'M'] [] ['A'] ['1', ' ', 'w'] 2 (-17) 4 (by decide)
    (by simp [FieldText]) (by simp [FieldText]) (by simp [FieldText]) (by decide) (by decide) (by decide)]
  rfl

end AisServer.Stream
