import AisServer.Lib.Calendar
import AisServer.Lib.Text

/-!
# The 6-bit payload

`bits` unpacks the armoured characters of a payload, `extractMmsiAndType` and `extractTimestamp` read
the header fields and the UTC time of a Type 4 or 11 report.
-/

namespace AisServer.Nmea

open AisServer.Lib

/-- `format(v, "06b")` -/
def sixBits (v : ℕ) : List Bool := [5, 4, 3, 2, 1, 0].map v.testBit

/-- The bits of one character: `& 0x3F` keeps the residue modulo 64, of a negative value too. -/
def charBits (ch : Char) : List Bool :=
  let v : ℤ := (ch.toNat : ℤ) - 48
  let v := if v > 40 then v - 8 else v
  sixBits (v % 64).toNat

/-- `_bits` -/
def bits (payload : Str) : List Bool := payload.flatMap charBits

/-- `int(b, 2)` -/
def ofBits (b : List Bool) : ℕ := b.foldl (fun n x => 2 * n + x.toNat) 0

/-- `b[start:stop]` -/
def slice (b : List Bool) (start stop : ℕ) : List Bool := (b.drop start).take (stop - start)

def extractMmsiAndType (payload : Str) : Option (ℕ × ℕ) :=
  let b := bits payload
  if b.length < 38 then none else some (ofBits (slice b 8 38), ofBits (slice b 0 6))

def extractTimestamp (payload : Str) : Option Time :=
  let b := bits payload
  if b.length < 6 then none
  else
    let msgType := ofBits (slice b 0 6)
    if ¬(msgType = 4 ∨ msgType = 11) ∨ b.length < 80 then none
    else
      let year := ofBits (slice b 38 52)
      let month := ofBits (slice b 52 56)
      let day := ofBits (slice b 56 61)
      let hour := ofBits (slice b 61 66)
      let minute := ofBits (slice b 66 72)
      let second := ofBits (slice b 72 78)
      if 1 ≤ month ∧ month ≤ 12 ∧ 1 ≤ day ∧ day ≤ 31 ∧ hour < 24 ∧ minute < 60 ∧ second < 60 ∧
          1970 ≤ year then
        (utcTimestamp year month day hour minute second).map fun n => (n : Time)
      else none

example : extractMmsiAndType "13aEOK?P00PD2wVMdLDRhgvL289?".toList = some (244670316, 1) ∧
    extractTimestamp "13aEOK?P00PD2wVMdLDRhgvL289?".toList = none ∧
    extractTimestamp "402E4JAs8@P000".toList = some 0 := by decide +kernel

end AisServer.Nmea
