import AisServer.Nmea.Sentence
import Mathlib

/-!
# The canonical form of an accepted sentence

`validateChecksum` reads up to two characters behind the last `*` as a number, `canonicalise` keeps up to two
characters there, in upper case, after it has trimmed the sentence.

* `canonicalise_eq` — the canonical form of an accepted sentence, in terms of the texts around its last `*`;
* `canonicalise_idem_iff` — when it is its own canonical form;
* `one_key_iff` — so which accepted sentences share a canonical form.
-/

namespace AisServer.Nmea

open AisServer.Lib

variable {s s' b b' c c' : Str} {p p' : NmeaParse} {a : Char}

/-! ### Upper case -/

theorem toUpper_mem_iff {l : List Char} (hl : ∀ x ∈ l, x.isAlpha = false) : a.toUpper ∈ l ↔ a ∈ l := by
  by_cases ha : a.isLower = true
  · have halpha : a.isAlpha = true := by simp [Char.isAlpha, ha]
    have hupper : a.toUpper.isAlpha = true := by rw [Char.isAlpha_toUpper_eq_isAlpha, halpha]
    exact iff_of_false (fun h => by simp [hl _ h] at hupper) (fun h => by simp [hl _ h] at halpha)
  · rw [Char.toUpper_eq_of_not_isLower ha]

theorem toUpper_mem_spaces : a.toUpper ∈ spaces ↔ a ∈ spaces := by
  have hall : (spaces.all fun x => !x.isAlpha) = true := by decide
  exact toUpper_mem_iff fun x hx => by simpa using List.all_eq_true.1 hall x hx

theorem toUpper_eq_star : a.toUpper = '*' ↔ a = '*' := by
  have hstar : ∀ x ∈ ['*'], x.isAlpha = false := by
    intro x hx
    obtain rfl := List.mem_singleton.1 hx
    rfl
  simpa using toUpper_mem_iff (a := a) hstar

/-! ### The texts around the last star -/

/-- What `canonicalise` keeps of the text behind the last `*`, before it maps the case. -/
def checksumText (rest : Str) : Str := (rstrip spaces rest).take 2

/-- The text `b` before the last `*` begins with `!`, and among the first two characters of `c` behind it there is
one that is no white space. -/
structure Cut (s b c : Str) : Prop where
  split : rsplit1 '*' s = some (b, c)
  head : b.head? = some '!'
  nonspace : ∃ a ∈ c.take 2, a ∉ spaces

theorem cut_of_parse (h : parse s = some p) (hok : p.checksumOk = true) (hs : rsplit1 '*' s = some (b, c)) :
    Cut s b c := by
  obtain ⟨t, -, body, checksum, hs', hstar, hval, -⟩ := checked_of_parse h hok
  rw [rsplit1_eq_some.2 ⟨hs', hstar⟩] at hs
  obtain ⟨rfl, rfl⟩ := Prod.mk.inj (Option.some.inj hs)
  exact ⟨rsplit1_eq_some.2 ⟨hs', hstar⟩, rfl, exists_nonspace_of_pyInt hval⟩

namespace Cut

/-- **The canonical form.** -/
theorem canonicalise_eq (h : Cut s b c) : canonicalise s = b ++ '*' :: (checksumText c).map Char.toUpper := by
  obtain ⟨rfl, hstar⟩ := rsplit1_eq_some.1 h.split
  obtain ⟨a, ha, hsp⟩ := h.nonspace
  have hmem : a ∈ c := List.mem_of_mem_take ha
  have hhead : lstrip spaces (b ++ '*' :: c) = b ++ '*' :: c := by
    rw [lstrip_eq_self, List.head?_append, h.head]
    intro x hx
    obtain rfl : '!' = x := by simpa using hx
    decide
  have htail : rstrip spaces ('*' :: c) = '*' :: rstrip spaces c :=
    rstrip_append ['*'] ⟨a, hmem, hsp⟩
  have hstrip : strip spaces (b ++ '*' :: c) = b ++ '*' :: rstrip spaces c := by
    rw [strip_eq, hhead, rstrip_append b ⟨a, List.mem_cons_of_mem _ hmem, hsp⟩, htail]
  have hstar' : '*' ∉ rstrip spaces c := by
    obtain ⟨w, hw, -⟩ := exists_rstrip spaces c
    exact fun hc => hstar (by rw [hw]; exact List.mem_append_left _ hc)
  unfold canonicalise
  simp only [hstrip, rsplit1_eq_some.2 ⟨rfl, hstar'⟩, checksumText]

theorem star_notMem (h : Cut s b c) : '*' ∉ (checksumText c).map Char.toUpper := by
  obtain ⟨rfl, hstar⟩ := rsplit1_eq_some.1 h.split
  obtain ⟨w, hw, -⟩ := exists_rstrip spaces c
  intro hmem
  obtain ⟨x, hx, hup⟩ := List.mem_map.1 hmem
  obtain rfl := toUpper_eq_star.1 hup
  exact hstar (by rw [hw]; exact List.mem_append_left _ (List.mem_of_mem_take hx))

theorem canonical (h : Cut s b c) : Cut (canonicalise s) b ((checksumText c).map Char.toUpper) := by
  obtain ⟨a, ha, hsp⟩ := h.nonspace
  refine ⟨?_, h.head, a.toUpper, ?_, fun hup => hsp (toUpper_mem_spaces.1 hup)⟩
  · rw [h.canonicalise_eq]
    exact rsplit1_eq_some.2 ⟨rfl, h.star_notMem⟩
  · rw [← List.map_take, checksumText, List.take_take, Nat.min_self]
    exact List.mem_map_of_mem (mem_take_rstrip ha hsp)

/-- **Idempotence.**  The canonical form is its own unless what it keeps of the checksum ends in white space. -/
theorem canonicalise_idem_iff (h : Cut s b c) :
    canonicalise (canonicalise s) = canonicalise s ↔ ∀ a ∈ (checksumText c).getLast?, a ∉ spaces := by
  set u := (checksumText c).map Char.toUpper with hu
  have hupper : ∀ x ∈ u, x.toUpper = x := by
    intro x hx
    obtain ⟨y, -, rfl⟩ := List.mem_map.1 hx
    exact Char.toUpper_toUpper_eq_toUpper y
  have hlen : u.length ≤ 2 := by
    rw [hu, List.length_map]
    exact List.length_take_le _ _
  -- what is stripped from `u` is stripped from its end
  obtain ⟨w, hw, -⟩ := exists_rstrip spaces u
  have hkept : (checksumText u).map Char.toUpper = rstrip spaces u := by
    have hshort : (rstrip spaces u).length ≤ 2 := by
      have hle := congrArg List.length hw
      rw [List.length_append] at hle
      omega
    rw [checksumText, List.take_of_length_le hshort]
    refine (List.map_congr_left fun x hx => hupper x ?_).trans (List.map_id _)
    rw [hw]
    exact List.mem_append_left _ hx
  rw [h.canonical.canonicalise_eq, h.canonicalise_eq, List.append_cancel_left_eq, List.cons_eq_cons,
    and_iff_right rfl, hkept, rstrip_eq_self, hu, List.getLast?_map]
  constructor
  · intro hall a ha
    exact fun hsp => hall a.toUpper (Option.mem_map_of_mem _ ha) (toUpper_mem_spaces.2 hsp)
  · intro hall x hx
    obtain ⟨a, ha, rfl⟩ := Option.map_eq_some_iff.1 hx
    exact fun hsp => hall a ha (toUpper_mem_spaces.1 hsp)

end Cut

/-- **One key.**  Two accepted sentences with verified checksums have one canonical form, which is the canonical form
of itself, exactly when their texts before the last `*` are equal, what is kept of the texts behind it is equal up to
the case, and it does not end in white space. -/
theorem one_key_iff (h : parse s = some p) (hok : p.checksumOk = true) (h' : parse s' = some p')
    (hok' : p'.checksumOk = true) (hs : rsplit1 '*' s = some (b, c)) (hs' : rsplit1 '*' s' = some (b', c')) :
    (canonicalise s = canonicalise s' ∧ canonicalise (canonicalise s) = canonicalise s ∧
      canonicalise (canonicalise s') = canonicalise s') ↔
    b = b' ∧ (checksumText c).map Char.toUpper = (checksumText c').map Char.toUpper ∧
      ∀ a ∈ (checksumText c).getLast?, a ∉ spaces := by
  have hcut := cut_of_parse h hok hs
  have hcut' := cut_of_parse h' hok' hs'
  rw [hcut.canonicalise_idem_iff]
  constructor
  · rintro ⟨heq, hidem, -⟩
    have hsplit := hcut'.canonical.split
    rw [← heq, hcut.canonical.split, Option.some.injEq, Prod.mk.injEq] at hsplit
    exact ⟨hsplit.1, hsplit.2, hidem⟩
  · rintro ⟨rfl, htext, hidem⟩
    have heq : canonicalise s = canonicalise s' := by
      rw [hcut.canonicalise_eq, hcut'.canonicalise_eq, htext]
    exact ⟨heq, hidem, by rw [← heq]; exact hcut.canonicalise_idem_iff.2 hidem⟩

/-- The text of a report whose checksum is seven. -/
def sevenBody : Str := "!AIVDM,1,1,,A,1@P,0".toList

def seven (checksum : Str) : Str := sevenBody ++ '*' :: checksum

theorem one_key_iff_tagged : canonicalise (seven ['0', '7']) = canonicalise (seven "07 tag".toList) := by
  obtain ⟨p, hp, hok⟩ := (Option.any_eq_true (·.checksumOk) (parse (seven ['0', '7']))).1 (by decide +kernel)
  obtain ⟨p', hp', hok'⟩ := (Option.any_eq_true (·.checksumOk) (parse (seven "07 tag".toList))).1
    (by decide +kernel)
  have hs : rsplit1 '*' (seven ['0', '7']) = some (sevenBody, ['0', '7']) := by decide +kernel
  have hs' : rsplit1 '*' (seven "07 tag".toList) = some (sevenBody, "07 tag".toList) := by decide +kernel
  have hlast : (checksumText ['0', '7']).getLast? = some '7' := by decide +kernel
  refine ((one_key_iff hp hok hp' hok' hs hs').2 ⟨rfl, by decide +kernel, fun a ha => ?_⟩).1
  rw [hlast, Option.mem_some_iff] at ha
  subst ha
  decide

/-- Two spellings of one checksum have two forms, and the form of a third is not its own. -/
theorem one_key_fails :
    (∀ checksum ∈ ["07".toList, "7".toList, "7 tag".toList],
      (parse (seven checksum)).any (·.checksumOk) = true ∧
        rsplit1 '*' (seven checksum) = some (sevenBody, checksum)) ∧
    canonicalise (seven "07".toList) ≠ canonicalise (seven "7".toList) ∧
    canonicalise (canonicalise (seven "7 tag".toList)) ≠ canonicalise (seven "7 tag".toList) := by
  decide +kernel

end AisServer.Nmea
