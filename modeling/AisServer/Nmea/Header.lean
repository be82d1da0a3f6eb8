import AisServer.Lib.DateTime
import AisServer.Nmea.Payload
import Mathlib.Data.Fin.Basic
import Mathlib.Tactic.Ring

/-!
# The header fields are exact

A payload over the armouring alphabet is a list of 6-bit values, and `bits` is the concatenation of
their bits (`bits_armour`).  `extractTimestamp` then gives a value on the payloads whose time fields
are those of a date-time, and on no others.

* `ofBits_toBits` — a number is read back from its bits;
* `extractTimestamp_eq_some` — when there is a value, and which;
* `extractTimestamp_report` — the encoding of a report is undone;
* `header_exact` — the three together, and the order of the timestamps.
-/

namespace AisServer.Nmea

open AisServer.Lib

/-! ### Numbers and their bits -/

/-- The last `n` bits of a number, the most significant one first. -/
def toBits : ℕ → ℕ → List Bool
  | 0, _ => []
  | n + 1, v => v.testBit n :: toBits n v

theorem length_toBits (n v : ℕ) : (toBits n v).length = n := by
  induction n with
  | zero => rfl
  | succ n ih => rw [toBits, List.length_cons, ih]

theorem ofBits_cons (x : Bool) (b : List Bool) : ofBits (x :: b) = x.toNat * 2 ^ b.length + ofBits b := by
  have acc : ∀ (b : List Bool) (n : ℕ),
      b.foldl (fun n x => 2 * n + x.toNat) n = n * 2 ^ b.length + ofBits b := by
    intro b
    induction b with
    | nil => simp [ofBits]
    | cons x b ih =>
      intro n
      rw [ofBits, List.foldl_cons, List.foldl_cons, ih, ih, List.length_cons, pow_succ]
      ring
  rw [ofBits, List.foldl_cons, acc]
  simp

theorem ofBits_toBits {n v : ℕ} (h : v < 2 ^ n) : ofBits (toBits n v) = v := by
  have key : ∀ n, ofBits (toBits n v) = v % 2 ^ n := by
    intro n
    induction n with
    | zero => simp [toBits, ofBits, Nat.mod_one]
    | succ n ih =>
      rw [toBits, ofBits_cons, length_toBits, ih, Nat.toNat_testBit, Nat.mod_pow_succ]
      ring
  rw [key, Nat.mod_eq_of_lt h]

theorem ofBits_lt (b : List Bool) : ofBits b < 2 ^ b.length := by
  induction b with
  | nil => exact Nat.zero_lt_one
  | cons x b ih =>
    rw [ofBits_cons, List.length_cons, pow_succ]
    cases x with
    | false => rw [Bool.toNat_false]; omega
    | true => rw [Bool.toNat_true]; omega

theorem mmsi_lt {payload : Str} {mmsi type : ℕ} (h : extractMmsiAndType payload = some (mmsi, type)) :
    mmsi < 2 ^ 30 := by
  unfold extractMmsiAndType at h
  dsimp only at h
  split at h
  · cases h
  · obtain ⟨rfl, -⟩ := Prod.mk.inj (Option.some.inj h)
    have hlen : (slice (bits payload) 8 38).length ≤ 30 := List.length_take_le _ _
    exact (ofBits_lt _).trans_le (Nat.pow_le_pow_right (by decide) hlen)

theorem slice_append_of_le {a b : List Bool} {i j : ℕ} (h : a.length ≤ i) :
    slice (a ++ b) i j = slice b (i - a.length) (j - a.length) := by
  rw [slice, slice, List.drop_append, List.drop_eq_nil_of_le h, List.nil_append]
  congr 1
  omega

theorem slice_append_zero {a b : List Bool} {n : ℕ} (h : a.length = n) : slice (a ++ b) 0 n = a := by
  rw [slice, List.drop_zero, Nat.sub_zero, List.take_left' h]

/-! ### The alphabet -/

/-- The armouring character of a 6-bit value: `0` to `W`, then `` ` `` to `w`. -/
def armour (v : Fin 64) : Char := if v < 40 then Char.ofNat (48 + v) else Char.ofNat (56 + v)

theorem charBits_armour : ∀ v : Fin 64, charBits (armour v) = toBits 6 v := by decide

theorem bits_armour (vs : List (Fin 64)) : bits (vs.map armour) = vs.flatMap fun v : Fin 64 => toBits 6 v := by
  rw [bits, List.flatMap_map]
  exact List.flatMap_congr fun v _ => charBits_armour v

/-- Six bits to a value; the last value is filled up with zeros. -/
def pack : List Bool → List (Fin 64)
  | a :: b :: c :: d :: e :: f :: rest => Fin.ofNat 64 (ofBits [a, b, c, d, e, f]) :: pack rest
  | [] => []
  | rest => [Fin.ofNat 64 (ofBits ((rest ++ List.replicate 6 false).take 6))]

theorem toBits_six : ∀ a b c d e f : Bool,
    toBits 6 (Fin.ofNat 64 (ofBits [a, b, c, d, e, f])) = [a, b, c, d, e, f] := by decide

/-- The packed bits, and the zeros that fill the last value up. -/
theorem bits_pack (b : List Bool) : ∃ fill, bits ((pack b).map armour) = b ++ fill := by
  rw [bits_armour]
  induction b using pack.induct with
  | case1 a b c d e f rest ih =>
    obtain ⟨fill, h⟩ := ih
    exact ⟨fill, by rw [pack, List.flatMap_cons, toBits_six, h]; rfl⟩
  | case2 => exact ⟨[], rfl⟩
  | case3 rest h1 h2 =>
    rcases rest with _ | ⟨a, _ | ⟨b, _ | ⟨c, _ | ⟨d, _ | ⟨e, _ | ⟨f, rest⟩⟩⟩⟩⟩⟩
    · exact absurd rfl h2
    · exact ⟨List.replicate 5 false, (List.append_nil _).trans (toBits_six a false false false false false)⟩
    · exact ⟨List.replicate 4 false, (List.append_nil _).trans (toBits_six a b false false false false)⟩
    · exact ⟨List.replicate 3 false, (List.append_nil _).trans (toBits_six a b c false false false)⟩
    · exact ⟨List.replicate 2 false, (List.append_nil _).trans (toBits_six a b c d false false)⟩
    · exact ⟨List.replicate 1 false, (List.append_nil _).trans (toBits_six a b c d e false)⟩
    · exact absurd rfl (h1 a b c d e f rest)

/-! ### The time of a report -/

/-- Year, month, day, hour, minute and second from bit 38 on. -/
def timeFields (b : List Bool) : List ℕ :=
  [ofBits (slice b 38 52), ofBits (slice b 52 56), ofBits (slice b 56 61), ofBits (slice b 61 66),
    ofBits (slice b 66 72), ofBits (slice b 72 78)]

def msgType (b : List Bool) : ℕ := ofBits (slice b 0 6)

/-- **When there is a timestamp.**  The time fields of a long enough report of Type 4 or 11 are those of
a date-time from 1970 on, and the timestamp is its Unix time. -/
theorem extractTimestamp_eq_some {payload : Str} {t : Time} : extractTimestamp payload = some t ↔
    80 ≤ (bits payload).length ∧ (msgType (bits payload) = 4 ∨ msgType (bits payload) = 11) ∧
      ∃ d : DateTime, 1970 ≤ d.year ∧ timeFields (bits payload) = d.fields ∧ t = d.unixTime := by
  unfold extractTimestamp
  generalize bits payload = b
  dsimp only
  rw [← msgType]
  constructor
  · intro h
    split at h
    · cases h
    · split at h
      · cases h
      · rename_i hty
        split at h
        · rename_i hr
          obtain ⟨n, hn, rfl⟩ := Option.map_eq_some_iff.1 h
          rw [not_or, not_not, not_lt] at hty
          have hv : validDatetime (ofBits (slice b 38 52)) (ofBits (slice b 52 56))
              (ofBits (slice b 56 61)) (ofBits (slice b 61 66)) (ofBits (slice b 66 72))
              (ofBits (slice b 72 78)) = true := by
            by_contra hv
            rw [utcTimestamp, if_neg hv] at hn
            cases hn
          have hyear := hr.2.2.2.2.2.2.2
          refine ⟨hty.2, hty.1, ⟨_, _, _, _, _, _, hv⟩, hyear, rfl, ?_⟩
          rw [utcTimestamp_fields ⟨_, _, _, _, _, _, hv⟩ hyear] at hn
          exact (Option.some.inj hn).symm.trans (Int.cast_natCast _)
        · cases h
  · rintro ⟨hlen, hty, d, hyear, hfields, rfl⟩
    simp only [timeFields, DateTime.fields, List.cons.injEq, and_true] at hfields
    obtain ⟨h1, h2, h3, h4, h5, h6⟩ := hfields
    have hv := d.valid
    simp only [validDatetime, Bool.and_eq_true, decide_eq_true_eq] at hv
    have hday := daysInMonth_le d.year d.month
    rw [if_neg (by omega), if_neg (by rw [not_or, not_not, not_lt]; exact ⟨hty, hlen⟩),
      h1, h2, h3, h4, h5, h6, if_pos (by omega), utcTimestamp_fields d hyear]
    exact congrArg some (Int.cast_natCast _)

/-! ### Encoding a report -/

/-- The time fields of a report, each with its width. -/
def timeBits (d : DateTime) : List Bool :=
  toBits 14 d.year ++ (toBits 4 d.month ++ (toBits 5 d.day ++ (toBits 5 d.hour ++
    (toBits 6 d.minute ++ toBits 6 d.second))))

/-- The payload of a report: the message type, repeat indicator and MMSI, the time, the rest. -/
def report (type : ℕ) (ident : List Bool) (d : DateTime) (rest : List Bool) : List (Fin 64) :=
  pack (toBits 6 type ++ (ident ++ (timeBits d ++ rest)))

theorem timeFields_append {a : List Bool} (d : DateTime) (c : List Bool) (ha : a.length = 38) :
    timeFields (a ++ (timeBits d ++ c)) = d.fields := by
  have hv := d.valid
  simp only [validDatetime, Bool.and_eq_true, decide_eq_true_eq] at hv
  have hday := daysInMonth_le d.year d.month
  simp only [timeFields, DateTime.fields, timeBits, List.append_assoc]
  -- every field is the first one behind those that its position counts
  simp (disch := simp [length_toBits, ha]) only [slice_append_of_le, slice_append_zero, ha,
    length_toBits, Nat.reduceSub]
  rw [ofBits_toBits (by omega), ofBits_toBits (by omega), ofBits_toBits (by omega),
    ofBits_toBits (by omega), ofBits_toBits (by omega), ofBits_toBits (by omega)]

theorem msgType_append {type : ℕ} (a : List Bool) (h : type < 64) : msgType (toBits 6 type ++ a) = type := by
  rw [msgType, slice_append_zero (length_toBits 6 type), ofBits_toBits h]

/-- **The round trip.**  A report gives its date-time back. -/
theorem extractTimestamp_report {type : ℕ} {ident rest : List Bool} (d : DateTime)
    (ht : type = 4 ∨ type = 11) (hi : ident.length = 32) (hr : 2 ≤ rest.length) (hd : 1970 ≤ d.year) :
    extractTimestamp ((report type ident d rest).map armour) = some (d.unixTime : Time) := by
  obtain ⟨fill, hb⟩ := bits_pack (toBits 6 type ++ (ident ++ (timeBits d ++ rest)))
  rw [extractTimestamp_eq_some, report, hb, List.append_assoc, msgType_append _ (by omega)]
  refine ⟨?_, ht, d, hd, ?_, rfl⟩
  · simp only [List.length_append, length_toBits, timeBits]
    omega
  · have hlen : (toBits 6 type ++ ident).length = 38 := by
      rw [List.length_append, length_toBits, hi]
    rw [← timeFields_append d (rest ++ fill) hlen]
    simp only [List.append_assoc]

/-- Timestamps are ordered as the time fields are. -/
theorem extractTimestamp_lt_iff {p q : Str} {t u : Time} (hp : extractTimestamp p = some t)
    (hq : extractTimestamp q = some u) : t < u ↔ timeFields (bits p) < timeFields (bits q) := by
  obtain ⟨-, -, d, hd, hfd, rfl⟩ := extractTimestamp_eq_some.1 hp
  obtain ⟨-, -, e, he, hfe, rfl⟩ := extractTimestamp_eq_some.1 hq
  rw [hfd, hfe, Nat.cast_lt, unixTime_lt_iff hd he]

/-- **Header decoding is exact.**  On a payload over the armouring alphabet the MMSI and the type are
read from 38 bits on, a timestamp from 80 bits on where the time fields are those of an existing
second; every date-time is read back from a report, and later ones give larger values. -/
theorem header_exact :
    (∀ vs : List (Fin 64), let b := vs.flatMap fun v : Fin 64 => toBits 6 v
      extractMmsiAndType (vs.map armour) =
        (if 38 ≤ b.length then some (ofBits (slice b 8 38), ofBits (slice b 0 6)) else none) ∧
      ∀ t, extractTimestamp (vs.map armour) = some t ↔
        80 ≤ b.length ∧ (msgType b = 4 ∨ msgType b = 11) ∧
          ∃ d : DateTime, 1970 ≤ d.year ∧ timeFields b = d.fields ∧ t = d.unixTime) ∧
    (∀ (type : ℕ) (ident rest : List Bool) (d : DateTime), type = 4 ∨ type = 11 → ident.length = 32 →
      2 ≤ rest.length → 1970 ≤ d.year →
      extractTimestamp ((report type ident d rest).map armour) = some (d.unixTime : Time)) ∧
    ∀ (vs ws : List (Fin 64)) (t u : Time), extractTimestamp (vs.map armour) = some t →
      extractTimestamp (ws.map armour) = some u →
      (t < u ↔ timeFields (vs.flatMap fun v : Fin 64 => toBits 6 v) <
        timeFields (ws.flatMap fun v : Fin 64 => toBits 6 v)) := by
  refine ⟨fun vs => ⟨?_, fun t => ?_⟩, fun type ident rest d ht hi hr hd => ?_,
    fun vs ws t u hp hq => ?_⟩
  · rw [extractMmsiAndType, bits_armour]
    by_cases h : 38 ≤ (vs.flatMap fun v : Fin 64 => toBits 6 v).length
    · rw [if_pos h, if_neg (not_lt.2 h)]
    · rw [if_neg h, if_pos (not_le.1 h)]
  · rw [extractTimestamp_eq_some, bits_armour]
  · exact extractTimestamp_report d ht hi hr hd
  · rw [extractTimestamp_lt_iff hp hq, bits_armour, bits_armour]

/-- A Type 4 report of noon on a leap day. -/
theorem header_exact_leapDay :
    extractTimestamp ((report 4 (List.replicate 32 true) ⟨2024, 2, 29, 12, 0, 0, by decide⟩
      (List.replicate 90 false)).map armour) = some 1709208000 :=
  (header_exact.2.1 4 _ _ ⟨2024, 2, 29, 12, 0, 0, by decide⟩ (Or.inl rfl) rfl (by decide)
    (by decide)).trans (by decide +kernel)

end AisServer.Nmea
