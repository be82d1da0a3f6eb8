import AisServer.Nmea.Sentence

/-!
# Raw lines

What `_ConnectionHandler` does with the bytes between two line feeds before it looks at the registry:
`decodeLine` decodes and trims them, `stripTagBlock` takes a leading tag block off, and `accepted` is the
sentence that goes on to the pipeline.

* `accepted_spec` — an accepted sentence is a checked text between `!` and the last `*`, and a checksum.
-/

namespace AisServer.Ingest

open AisServer.Lib AisServer.Nmea

/-- `raw.decode("ascii", errors="ignore").strip("\r\n\t ")` -/
def decodeLine (raw : List UInt8) : Str := strip ['\r', '\n', '\t', ' '] (decodeAscii raw)

/-- The `s:` field of a tag block, without the checksum of the block. -/
def sourceIdOf (block : Str) : Option Str :=
  let block := match rsplit1 '*' block with
    | some (b, _) => b
    | none => block
  match (block.splitOn ',').find? fun field => ['s', ':'].isPrefixOf field with
  | none => none
  | some field =>
    let id := strip spaces (field.drop 2)
    if id = [] then none else some id

/-- `_strip_tag_block`: the sentence and the source id. -/
def stripTagBlock (line : Str) : Str × Option Str :=
  match line with
  | '\\' :: rest =>
    match split1 '\\' rest with
    | none => (line, none)
    | some (block, body) => (body, sourceIdOf block)
  | _ => (line, none)

/-- What `_handle_line` reads from a raw line: the sentence and the source id, `none` for an empty
line. -/
def readLine (raw : List UInt8) : Option (Str × Option Str) :=
  if decodeLine raw = [] then none else some (stripTagBlock (decodeLine raw))

/-- `parse` returns and says that the checksum is right. -/
def wellFormed (sentence : Str) : Bool :=
  match parse sentence with
  | some p => p.checksumOk
  | none => false

/-- The sentence that a raw line hands on to `on_sentence`. -/
def accepted (raw : List UInt8) : Option Str :=
  (readLine raw).bind fun r => if wellFormed r.1 then some r.1 else none

example : stripTagBlock "\\s:GIB-01,c:1714063200*5C\\!AIVDM".toList =
    ("!AIVDM".toList, some "GIB-01".toList) := by decide

variable {raw : List UInt8} {line s : Str} {c : Char}

theorem mem_of_mem_stripTagBlock (h : c ∈ (stripTagBlock line).1) : c ∈ line := by
  unfold stripTagBlock at h
  split at h
  · rename_i rest
    split at h
    · exact h
    · rename_i block body hsplit
      obtain ⟨rfl, -⟩ := split1_eq_some.1 hsplit
      simp [h]
  · exact h

theorem mem_readLine {sid : Option Str} (h : readLine raw = some (s, sid)) (hc : c ∈ s) :
    c.toNat < 128 ∧ UInt8.ofNat c.toNat ∈ raw := by
  unfold readLine at h
  by_cases he : decodeLine raw = []
  · simp [he] at h
  · rw [if_neg he, Option.some.injEq] at h
    have hline : c ∈ decodeLine raw := mem_of_mem_stripTagBlock (h ▸ hc)
    exact mem_decodeAscii (mem_of_mem_strip hline)

theorem accepted_eq_some : accepted raw = some s ↔
    (∃ sid, readLine raw = some (s, sid)) ∧ wellFormed s = true := by
  unfold accepted
  rw [Option.bind_eq_some_iff]
  constructor
  · rintro ⟨⟨s', sid⟩, hr, hs⟩
    by_cases hw : wellFormed s' = true
    · obtain rfl : s' = s := by simpa [hw] using hs
      exact ⟨⟨sid, hr⟩, hw⟩
    · simp [hw] at hs
  · rintro ⟨⟨sid, hr⟩, hw⟩
    exact ⟨(s, sid), hr, by simp [hw]⟩

theorem wellFormed_iff : wellFormed s = true ↔ ∃ p, parse s = some p ∧ p.checksumOk = true := by
  unfold wellFormed
  rcases h : parse s with _ | p <;> simp

/-- **An accepted sentence** is `!`, a checked text that begins with an accepted prefix, the last `*` and
a checksum that denotes the exclusive or of the checked text; what `parse` reads lies before the last
`*`; and no character is a line feed when no byte is. -/
theorem accepted_spec (h : accepted raw = some s) :
    (∃ t ∈ talkers, ∃ body checksum, s = '!' :: t ++ ',' :: body ++ '*' :: checksum ∧
      '*' ∉ checksum ∧ pyInt 16 (checksum.take 2) = some (xorOf (t ++ ',' :: body) : ℤ) ∧
      ∀ f ∈ fields s, f <:+: '!' :: t ++ ',' :: body) ∧
    ∀ c ∈ s, c.toNat < 128 ∧ UInt8.ofNat c.toNat ∈ raw := by
  obtain ⟨⟨sid, hr⟩, hw⟩ := accepted_eq_some.1 h
  obtain ⟨p, hp, hok⟩ := wellFormed_iff.1 hw
  exact ⟨checked_of_parse hp hok, fun c hc => mem_readLine hr hc⟩

end AisServer.Ingest
