import AisServer.Lib.Text

/-!
# Attributes of a page

A text that is written between the double quotes of an attribute ends for the browser at its first double quote, and
what stands before is decoded: character references are replaced, NUL and carriage returns too.  The table of the
references is a parameter.

* `readAs_eq_nil`, `readAs_eq_self` — when a text reads as nothing, and when as itself;
* `upTo_eq_readAs` — when it reads as its own part before a separator.
-/

namespace AisServer.Lib

/-- How a browser decodes the text of an attribute. -/
structure Markup where
  decode : Str → Str
  /-- Without a reference, a NUL and a carriage return a text stays as it is. -/
  decode_plain {s : Str} : '&' ∉ s → '\x00' ∉ s → '\r' ∉ s → decode s = s
  /-- A character that no reference contains stays. -/
  mem_decode {s : Str} {c : Char} : c ∈ s → c ∉ ['&', '#', ';', '\x00', '\r'] → c.isAlphanum = false → c ∈ decode s
  /-- No reference is shorter than what it stands for. -/
  length_decode_le (s : Str) : (decode s).length ≤ s.length
  decode_ne_nil {s : Str} : s ≠ [] → decode s ≠ []

namespace Markup

/-- The value of an attribute in whose quotes a text is written. -/
def readAs (m : Markup) (s : Str) : Str := m.decode (upTo '"' s)

/-- The browser as far as texts without references go. -/
def verbatim : Markup where
  decode := id
  decode_plain _ _ _ := rfl
  mem_decode hc _ _ := hc
  length_decode_le _ := le_rfl
  decode_ne_nil h := h

/-- A text that means itself in an attribute. -/
def Plain (s : Str) : Prop := '"' ∉ s ∧ '&' ∉ s ∧ '\x00' ∉ s ∧ '\r' ∉ s

variable {m : Markup} {s : Str} {c : Char}

theorem decode_eq_nil : m.decode s = [] ↔ s = [] := by
  constructor
  · intro h
    by_contra hs
    exact m.decode_ne_nil hs h
  · rintro rfl
    exact List.length_eq_zero_iff.1 (Nat.le_zero.1 (m.length_decode_le []))

theorem readAs_eq_nil : m.readAs s = [] ↔ s = [] ∨ s.head? = some '"' := by
  rw [readAs, decode_eq_nil, upTo_eq_iff]
  rcases s with _ | ⟨a, s⟩
  · simp
  · simp [eq_comm]

theorem readAs_eq_self (h : Plain s) : m.readAs s = s := by
  rw [readAs, upTo_eq_self.2 h.1, m.decode_plain h.2.1 h.2.2.1 h.2.2.2]

/-- **A text reads as its own part before a separator** exactly when it reads as itself and has no separator. -/
theorem upTo_eq_readAs (hq : c ≠ '"') (hmark : c ∉ ['&', '#', ';', '\x00', '\r']) (halnum : c.isAlphanum = false) :
    upTo c s = m.readAs s ↔ m.readAs s = s ∧ c ∉ s := by
  constructor
  · intro h
    have hnot : c ∉ m.readAs s := (upTo_eq_iff.1 h).1
    have hcut : c ∉ upTo '"' s := fun hc => hnot (m.mem_decode hc hmark halnum)
    -- a separator behind the quote would come too late
    have hquote : '"' ∉ s := by
      intro hmem
      obtain ⟨b, t, rfl, hb⟩ := List.eq_append_cons_of_mem hmem
      rw [upTo_append_cons_of_notMem t hb] at hcut
      have hlong : b ++ ['"'] <+: upTo c ((b ++ ['"']) ++ t) := prefix_upTo t (by simp [hcut, hq])
      rw [List.append_assoc, List.singleton_append] at hlong
      have hle := m.length_decode_le b
      have hlen := hlong.length_le
      rw [h, readAs, upTo_append_cons_of_notMem t hb, List.length_append, List.length_singleton] at hlen
      omega
    rw [upTo_eq_self.2 hquote] at hcut
    exact ⟨by rw [← h, upTo_eq_self.2 hcut], hcut⟩
  · rintro ⟨hself, hc⟩
    rw [hself, upTo_eq_self.2 hc]

end Markup

end AisServer.Lib
