import AisServer.Nmea.Sentence
import AisServer.Lib.Decimal

/-!
# Rendering a sentence

`render` writes a sentence from its fields, with the checksum of what stands between `!` and `*`;
`parse` reads the fields back (`parse_render`).
-/

namespace AisServer.Nmea

open AisServer.Lib

/-- The text between the exclamation mark and the checksum. -/
def renderBody (type : Str) (count number : ℤ) (messageId channel payload : Str) (fill : ℕ) : Str :=
  [','].intercalate [type, pyStr count, pyStr number, messageId, channel, payload, decimal fill]

def render (upper : Bool) (type : Str) (count number : ℤ) (messageId channel payload : Str) (fill : ℕ) :
    Str :=
  let body := renderBody type count number messageId channel payload fill
  '!' :: body ++ '*' :: hexPair upper (xorOf body)

/-- A text that can stand in a field. -/
def FieldText (s : Str) : Prop := ∀ c ∈ s, c.toNat < 128 ∧ c ≠ ',' ∧ c ≠ '*'

theorem fieldText_pyStr (n : ℤ) : FieldText (pyStr n) := fun _ hc =>
  ⟨(pyStr_spec hc).2.2.2, (pyStr_spec hc).2.1, (pyStr_spec hc).2.2.1⟩

theorem fieldText_decimal (n : ℕ) : FieldText (decimal n) := pyStr_natCast n ▸ fieldText_pyStr n

theorem fieldText_talker {t : Str} (h : t ∈ talkers) : FieldText t := by
  have hall : ∀ t ∈ talkers, (t.all fun c => c.toNat < 128 ∧ c ≠ ',' ∧ c ≠ '*') = true := by decide
  exact fun c hc => of_decide_eq_true (List.all_eq_true.1 (hall t h) c hc)

theorem xorOf_lt {s : Str} (h : ∀ c ∈ s, c.toNat < 128) : xorOf s < 128 := by
  have acc : ∀ (s : Str) (n : ℕ), n < 128 → (∀ c ∈ s, c.toNat < 128) →
      s.foldl (fun cs ch => cs ^^^ ch.toNat) n < 128 := by
    intro s
    induction s with
    | nil => exact fun n hn _ => hn
    | cons a s ih =>
      intro n hn hs
      exact ih _ (@Nat.xor_lt_two_pow _ _ 7 hn (hs a List.mem_cons_self)) fun c hc =>
        hs c (List.mem_cons_of_mem _ hc)
  exact acc s 0 (by decide) h

theorem mem_intercalate {a c : Char} {fs : List Str} (h : c ∈ [a].intercalate fs) :
    c = a ∨ ∃ f ∈ fs, c ∈ f := by
  induction fs with
  | nil => cases h
  | cons f fs ih =>
    rcases fs with _ | ⟨g, fs⟩
    · exact Or.inr ⟨f, List.mem_singleton_self f, by simpa using h⟩
    · rw [List.intercalate_cons_cons, List.append_assoc, List.mem_append, List.mem_append] at h
      rcases h with h | h | h
      · exact Or.inr ⟨f, List.mem_cons_self, h⟩
      · exact Or.inl (List.mem_singleton.1 h)
      · rcases ih h with rfl | ⟨e, he, hc⟩
        · exact Or.inl rfl
        · exact Or.inr ⟨e, List.mem_cons_of_mem _ he, hc⟩

/-! ### The fields are read back -/

section

variable {upper : Bool} {type messageId channel payload : Str} {count number : ℤ} {fill : ℕ}

theorem fieldText_texts (ht : type ∈ talkers) (hm : FieldText messageId) (hc : FieldText channel)
    (hp : FieldText payload) :
    ∀ f ∈ [type, pyStr count, pyStr number, messageId, channel, payload, decimal fill], FieldText f := by
  simp [fieldText_talker ht, fieldText_pyStr, fieldText_decimal, hm, hc, hp]

theorem mem_renderBody (ht : type ∈ talkers) (hm : FieldText messageId) (hc : FieldText channel)
    (hp : FieldText payload) {c : Char}
    (h : c ∈ renderBody type count number messageId channel payload fill) : c.toNat < 128 ∧ c ≠ '*' := by
  rcases mem_intercalate h with rfl | ⟨f, hf, hcf⟩
  · decide
  · have hc := fieldText_texts ht hm hc hp f hf c hcf
    exact ⟨hc.1, hc.2.2⟩

theorem renderBody_eq : renderBody type count number messageId channel payload fill = type ++
    ',' :: [','].intercalate [pyStr count, pyStr number, messageId, channel, payload, decimal fill] := by
  rw [renderBody, List.intercalate_cons_cons, List.append_assoc]
  rfl

theorem fields_render (ht : type ∈ talkers) (hm : FieldText messageId) (hc : FieldText channel)
    (hp : FieldText payload) : fields (render upper type count number messageId channel payload fill) =
      ['!' :: type, pyStr count, pyStr number, messageId, channel, payload, decimal fill] := by
  have hstar : '*' ∉ '!' :: renderBody type count number messageId channel payload fill := by
    rintro (_ | ⟨_, h⟩)
    exact (mem_renderBody ht hm hc hp h).2 rfl
  have hbang : '!' :: renderBody type count number messageId channel payload fill =
      [','].intercalate
        ['!' :: type, pyStr count, pyStr number, messageId, channel, payload, decimal fill] := by
    rw [renderBody_eq, List.intercalate_cons_cons, List.append_assoc]
    rfl
  rw [fields, render, upTo_append_cons_of_notMem _ hstar, hbang, List.splitOn_intercalate]
  · have htexts := @fieldText_texts type messageId channel payload count number fill ht hm hc hp
    intro f hf hcomma
    rcases List.mem_cons.1 hf with rfl | hf
    · rcases List.mem_cons.1 hcomma with h | h
      · exact absurd h (by decide)
      · exact (htexts type List.mem_cons_self _ h).2.1 rfl
    · exact (htexts f (List.mem_cons_of_mem _ hf) _ hcomma).2.1 rfl
  · exact List.cons_ne_nil _ _

theorem validateChecksum_render (ht : type ∈ talkers) (hm : FieldText messageId) (hc : FieldText channel)
    (hp : FieldText payload) :
    validateChecksum (render upper type count number messageId channel payload fill) = true := by
  have hlt : xorOf (renderBody type count number messageId channel payload fill) < 128 :=
    xorOf_lt fun c h => (mem_renderBody ht hm hc hp h).1
  have hstrip : lstrip ['!', '$'] ('!' :: renderBody type count number messageId channel payload fill) =
      renderBody type count number messageId channel payload fill := by
    rw [renderBody_eq]
    exact lstrip_of_talker ht
  refine validateChecksum_iff.2 ⟨_, _, rfl, star_notMem_hexPair, ?_⟩
  rw [hstrip]
  exact pyInt_hexPair (hlt.trans (by decide))

/-- **Parsing undoes rendering.** -/
theorem parse_render (ht : type ∈ talkers) (hm : FieldText messageId) (hc : FieldText channel)
    (hp : FieldText payload) (hcount : (decimal count.natAbs).length ≤ maxStrDigits)
    (hnumber : (decimal number.natAbs).length ≤ maxStrDigits)
    (hfill : (decimal fill).length ≤ maxStrDigits) :
    parse (render upper type count number messageId channel payload fill) = some {
      sentenceType := '!' :: type, fragmentCount := count, fragmentNumber := number, messageId, channel
      payload, fillBits := fill, checksumOk := true } := by
  have hre : aisRe (render upper type count number messageId channel payload fill) = true := by
    rw [aisRe_iff, render, renderBody_eq]
    exact ⟨type, ht, _, by simp only [List.cons_append, List.append_assoc]; rfl⟩
  have hfb : fillBitsOf (decimal fill) = some (fill : ℤ) := by
    rw [fillBitsOf, if_pos (isDigit_decimal fill), ← pyStr_natCast]
    exact pyInt_pyStr hfill
  rw [parse, if_pos hre, fields_render ht hm hc hp, validateChecksum_render ht hm hc hp]
  simp [pyInt_pyStr hcount, pyInt_pyStr hnumber, hfb]

end

end AisServer.Nmea
