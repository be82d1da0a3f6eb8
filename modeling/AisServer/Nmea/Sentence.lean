import AisServer.Lib.Text

/-!
# NMEA sentences

`validateChecksum`, `canonicalise` and `parse` of `nmea.py`.  The three cut a sentence in different
places: `parse` at the first `*`, `validateChecksum` at the last, and `canonicalise` at the last of
the trimmed text.

* `validateChecksum_iff` — what a verified checksum says about the text;
* `parse_spec` — what an accepted sentence looks like, and where its fields come from;
* `checked_of_parse` — in an accepted sentence with a verified checksum everything that `parse` reads
  lies in the text that the checksum covers.
-/

namespace AisServer.Nmea

open AisServer.Lib

/-- The alternatives of `AIS_RE`, as the source lists them. -/
def talkers : List Str :=
  ["AIVDM", "AIVDO", "BSVDM", "ABVDM", "ANVDM", "ARVDM", "AXVDM", "AIVDO"].map String.toList

/-- `AIS_RE.match`: an exclamation mark, one of the alternatives and a comma. -/
def aisRe (sentence : Str) : Bool :=
  talkers.any fun t => ('!' :: t ++ [',']).isPrefixOf sentence

/-- The exclusive or of the code points, `cs` of `validate_checksum`. -/
def xorOf (body : Str) : ℕ := body.foldl (fun cs ch => cs ^^^ ch.toNat) 0

def validateChecksum (sentence : Str) : Bool :=
  match rsplit1 '*' sentence with
  | none => false
  | some (body, checksum) =>
    pyInt 16 (checksum.take 2) = some (xorOf (lstrip ['!', '$'] body) : ℤ)

/-- `canonicalise`; the case mapping is that of ASCII letters, the only ones a checksum has. -/
def canonicalise (sentence : Str) : Str :=
  let s := strip spaces sentence
  match rsplit1 '*' s with
  | some (body, rest) => body ++ '*' :: (rest.take 2).map Char.toUpper
  | none => s

structure NmeaParse where
  sentenceType : Str
  fragmentCount : ℤ
  fragmentNumber : ℤ
  messageId : Str
  channel : Str
  payload : Str
  fillBits : ℤ
  checksumOk : Bool
  deriving DecidableEq

/-- The comma-separated fields before the first `*`. -/
def fields (sentence : Str) : List Str := (upTo '*' sentence).splitOn ','

/-- `int(parts[6]) if parts[6].isdigit() else 0` -/
def fillBitsOf (fill : Str) : Option ℤ := if isDigit fill then pyInt 10 fill else some 0

def parse (sentence : Str) : Option NmeaParse :=
  if aisRe sentence then
    match fields sentence with
    | type :: count :: number :: messageId :: channel :: payload :: fill :: _ => do
      let fragmentCount ← pyInt 10 count
      let fragmentNumber ← pyInt 10 number
      let fillBits ← fillBitsOf fill
      some {
        sentenceType := type, fragmentCount, fragmentNumber, messageId, channel, payload, fillBits
        checksumOk := validateChecksum sentence }
    | _ => none
  else none

example : (parse "!AIVDM,1,1,,A,13aEOK?P00PD2wVMdLDRhgvL289?,0*26".toList).map
    (fun p => (p.fragmentCount, p.channel, p.checksumOk)) = some (1, ['A'], true) := by
  decide +kernel

/-! ### What the checks say -/

theorem aisRe_iff {s : Str} : aisRe s = true ↔ ∃ t ∈ talkers, ∃ rest, s = '!' :: t ++ ',' :: rest := by
  unfold aisRe
  rw [List.any_eq_true]
  constructor
  · rintro ⟨t, ht, hp⟩
    obtain ⟨rest, rfl⟩ := List.isPrefixOf_iff_prefix.1 hp
    exact ⟨t, ht, rest, by simp⟩
  · rintro ⟨t, ht, rest, rfl⟩
    exact ⟨t, ht, List.isPrefixOf_iff_prefix.2 ⟨rest, by simp⟩⟩

/-- **A verified checksum.**  The first two characters after the last `*` denote the exclusive or of
what precedes it, leading `!` and `$` left out. -/
theorem validateChecksum_iff {s : Str} : validateChecksum s = true ↔
    ∃ body checksum, s = body ++ '*' :: checksum ∧ '*' ∉ checksum ∧
      pyInt 16 (checksum.take 2) = some (xorOf (lstrip ['!', '$'] body) : ℤ) := by
  unfold validateChecksum
  rcases h : rsplit1 '*' s with _ | ⟨body, checksum⟩
  · have hs : '*' ∉ s := rsplit1_eq_none.1 h
    constructor
    · intro hf
      cases hf
    · rintro ⟨body, checksum, rfl, -, -⟩
      exact absurd (by simp) hs
  · constructor
    · intro hv
      obtain ⟨hs, hc⟩ := rsplit1_eq_some.1 h
      exact ⟨body, checksum, hs, hc, by simpa using hv⟩
    · rintro ⟨body', checksum', hs, hc, hv⟩
      rw [rsplit1_eq_some.2 ⟨hs, hc⟩] at h
      obtain ⟨rfl, rfl⟩ := Prod.mk.inj (Option.some.inj h)
      simpa using hv

/-- **An accepted sentence**: the prefix, and fields that are pieces of the text before the first
`*`. -/
theorem parse_spec {s : Str} {p : NmeaParse} (h : parse s = some p) :
    aisRe s = true ∧ p.checksumOk = validateChecksum s ∧
    ∃ count number fill rest, fields s =
        p.sentenceType :: count :: number :: p.messageId :: p.channel :: p.payload :: fill :: rest ∧
      pyInt 10 count = some p.fragmentCount ∧ pyInt 10 number = some p.fragmentNumber ∧
      fillBitsOf fill = some p.fillBits := by
  unfold parse at h
  by_cases hre : aisRe s = true
  · rw [if_pos hre] at h
    split at h
    · rename_i type count number messageId channel payload fill rest hf
      simp only [Option.bind_eq_bind, Option.bind_eq_some_iff, Option.some.injEq] at h
      obtain ⟨fc, hfc, fn, hfn, fb, hfb, rfl⟩ := h
      exact ⟨hre, rfl, count, number, fill, rest, hf, hfc, hfn, hfb⟩
    · cases h
  · rw [if_neg hre] at h
    cases h

theorem head_of_talker : ∀ t ∈ talkers, t.head? = some 'A' ∨ t.head? = some 'B' := by decide

theorem star_notMem_talker : ∀ t ∈ talkers, '*' ∉ t := by decide

theorem lstrip_of_talker {t rest : Str} (ht : t ∈ talkers) :
    lstrip ['!', '$'] ('!' :: t ++ rest) = t ++ rest := by
  rcases t with _ | ⟨a, u⟩
  · rcases head_of_talker [] ht with h | h <;> cases h
  · have ha : a = 'A' ∨ a = 'B' := by simpa using head_of_talker _ ht
    rcases ha with rfl | rfl <;> simp [lstrip]

/-- **Where the fields lie.**  An accepted sentence with a verified checksum is `!`, a checked text
that begins with an accepted prefix, the last `*` and the checksum; the checksum denotes the
exclusive or of the checked text, and every field that `parse` reads lies between the start of the
sentence and the last `*`. -/
theorem checked_of_parse {s : Str} {p : NmeaParse} (h : parse s = some p)
    (hc : p.checksumOk = true) :
    ∃ t ∈ talkers, ∃ body checksum, s = '!' :: t ++ ',' :: body ++ '*' :: checksum ∧
      '*' ∉ checksum ∧ pyInt 16 (checksum.take 2) = some (xorOf (t ++ ',' :: body) : ℤ) ∧
      ∀ f ∈ fields s, f <:+: '!' :: t ++ ',' :: body := by
  obtain ⟨hre, hok, -⟩ := parse_spec h
  obtain ⟨t, ht, rest, hs⟩ := aisRe_iff.1 hre
  obtain ⟨b, checksum, hs', hstar, hval⟩ := validateChecksum_iff.1 (hok.symm.trans hc)
  have hnostar : '*' ∉ '!' :: t ++ [','] := by
    have := star_notMem_talker t ht
    simp [this]
  -- the last `*` comes after the prefix
  have hpre : '!' :: t ++ [','] <+: b := by
    have h1 : '!' :: t ++ [','] <+: b ++ '*' :: checksum := ⟨rest, by rw [← hs', hs]; simp⟩
    rcases List.prefix_or_prefix_of_prefix h1 (List.prefix_append b _) with h2 | h2
    · exact h2
    · obtain ⟨u, hu⟩ := h2
      obtain ⟨v, hv⟩ := h1
      rw [← hu, List.append_assoc, List.append_cancel_left_eq] at hv
      cases u with
      | nil => rw [List.append_nil] at hu; rw [hu]
      | cons a u =>
        obtain ⟨rfl, -⟩ := List.cons.inj hv
        exact absurd (by rw [← hu]; simp) hnostar
  obtain ⟨body, rfl⟩ := hpre
  refine ⟨t, ht, body, checksum, by rw [hs']; simp, hstar, ?_, ?_⟩
  · rw [hval]
    congr 2
    have := @lstrip_of_talker t (',' :: body) ht
    rw [← this]
    simp
  · intro f hf
    have h1 : f <:+: upTo '*' s := infix_of_mem_splitOn hf
    have h2 : upTo '*' s <+: '!' :: t ++ ',' :: body := by
      have := upTo_append_cons_prefix '*' ('!' :: t ++ ',' :: body) checksum
      rw [hs']
      simpa using this
    exact h1.trans h2.isInfix

end AisServer.Nmea
