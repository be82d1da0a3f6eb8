import AisServer.Lib.Calendar
import Mathlib.Algebra.Order.BigOperators.Group.Finset
import Mathlib.Algebra.BigOperators.Intervals
import Mathlib.Data.List.Lex

/-!
# Date-times and Unix time

A `DateTime` is an existing second of the Gregorian calendar.  `unixTime` counts the seconds from
1970 on by whole years, whole months and whole days.

* `utcTimestamp_fields` — the closed form of the `datetime` module is that count;
* `unixTime_lt` — later date-times have a larger count.
-/

namespace AisServer.Lib

/-- An existing second of the calendar that `datetime` covers. -/
structure DateTime where
  year : ℕ
  month : ℕ
  day : ℕ
  hour : ℕ
  minute : ℕ
  second : ℕ
  valid : validDatetime year month day hour minute second = true

namespace DateTime

/-- The fields, from the most significant one; lists are ordered lexicographically. -/
def fields (d : DateTime) : List ℕ := [d.year, d.month, d.day, d.hour, d.minute, d.second]

end DateTime

def yearLength (year : ℕ) : ℕ := if isLeap year then 366 else 365

/-- Days of the year before a day. -/
def dayOfYear (year month day : ℕ) : ℕ := ∑ m ∈ Finset.Ico 1 month, daysInMonth year m + (day - 1)

/-- Days between 1970-01-01 and a day of a later year. -/
def dayNumber (year month day : ℕ) : ℕ :=
  ∑ y ∈ Finset.Ico 1970 year, yearLength y + dayOfYear year month day

/-- Seconds since 1970-01-01T00:00:00. -/
def DateTime.unixTime (d : DateTime) : ℕ :=
  dayNumber d.year d.month d.day * 86400 + (d.hour * 3600 + d.minute * 60 + d.second)

/-! ### The closed form of the ordinal -/

theorem daysBeforeYear_succ {y : ℕ} (h : 1 ≤ y) :
    daysBeforeYear (y + 1) = daysBeforeYear y + yearLength y := by
  obtain ⟨n, rfl⟩ := Nat.exists_eq_add_of_le' h
  have hle : n / 100 ≤ n * 365 := (Nat.div_le_self n 100).trans (by omega)
  have h4 : 100 ∣ n + 1 → 4 ∣ n + 1 := (by decide : 4 ∣ 100).trans
  have h100 : 400 ∣ n + 1 → 100 ∣ n + 1 := (by decide : 100 ∣ 400).trans
  have hleap : yearLength (n + 1) = if 4 ∣ n + 1 ∧ (¬100 ∣ n + 1 ∨ 400 ∣ n + 1) then 366 else 365 := by
    simp [yearLength, isLeap, Nat.dvd_iff_mod_eq_zero]
  simp only [hleap, daysBeforeYear, Nat.add_sub_cancel, Nat.succ_div]
  by_cases d4 : 4 ∣ n + 1 <;> by_cases d100 : 100 ∣ n + 1 <;> by_cases d400 : 400 ∣ n + 1 <;>
    simp only [d4, d100, d400, not_true_eq_false, not_false_eq_true, and_true, and_false, or_true,
      or_false, if_true, if_false, forall_const, imp_false] at h4 h100 ⊢ <;>
    omega

theorem daysBeforeYear_eq {y : ℕ} (h : 1970 ≤ y) :
    daysBeforeYear y = daysBeforeYear 1970 + ∑ y ∈ Finset.Ico 1970 y, yearLength y := by
  induction y, h using Nat.le_induction with
  | base => simp
  | succ y hy ih => rw [daysBeforeYear_succ (by omega), ih, Finset.sum_Ico_succ_top hy, Nat.add_assoc]

theorem daysBeforeMonth_eq (year month : ℕ) :
    daysBeforeMonth year month = ∑ m ∈ Finset.Ico 1 month, daysInMonth year m := by
  unfold daysBeforeMonth
  induction month with
  | zero => rfl
  | succ m ih =>
    rcases m with _ | m
    · rfl
    · rw [Finset.sum_Ico_succ_top (by omega), ← ih, List.range_succ, List.tail_append_of_ne_nil (by simp)]
      simp

theorem toOrdinal_eq {year month day : ℕ} (hy : 1970 ≤ year) (hd : 1 ≤ day) :
    toOrdinal year month day = toOrdinal 1970 1 1 + dayNumber year month day := by
  have h1970 : toOrdinal 1970 1 1 = daysBeforeYear 1970 + 1 := rfl
  rw [h1970, toOrdinal, daysBeforeYear_eq hy, daysBeforeMonth_eq, dayNumber, dayOfYear]
  omega

/-- **The closed form.**  The timestamp that `datetime` computes is the Unix time. -/
theorem utcTimestamp_fields (d : DateTime) (h : 1970 ≤ d.year) :
    utcTimestamp d.year d.month d.day d.hour d.minute d.second = some (d.unixTime : ℤ) := by
  have hday : 1 ≤ d.day := by
    have := d.valid
    simp only [validDatetime, Bool.and_eq_true, decide_eq_true_eq] at this
    omega
  rw [utcTimestamp, if_pos d.valid, toOrdinal_eq h hday, DateTime.unixTime]
  push_cast
  congr 1
  omega

/-! ### The order -/

theorem sum_Ico_add_lt (f : ℕ → ℕ) {k x y u : ℕ} (hk : k ≤ x) (hxy : x < y) (hu : u < f x) :
    ∑ i ∈ Finset.Ico k x, f i + u < ∑ i ∈ Finset.Ico k y, f i := by
  calc ∑ i ∈ Finset.Ico k x, f i + u < ∑ i ∈ Finset.Ico k x, f i + f x := by omega
    _ = ∑ i ∈ Finset.Ico k (x + 1), f i := (Finset.sum_Ico_succ_top hk f).symm
    _ ≤ ∑ i ∈ Finset.Ico k y, f i :=
      Finset.sum_le_sum_of_subset (Finset.Ico_subset_Ico_right hxy)

theorem sum_daysInMonth (year : ℕ) :
    ∑ m ∈ Finset.Ico 1 13, daysInMonth year m = yearLength year := by
  simp only [Finset.sum_Ico_eq_sum_range, Finset.sum_range_succ, daysInMonth, yearLength]
  cases isLeap year <;> rfl

theorem daysInMonth_le (year month : ℕ) : daysInMonth year month ≤ 31 := by
  unfold daysInMonth
  split
  · split <;> omega
  all_goals omega

theorem dayOfYear_lt {year m m' d d' : ℕ} (hm : 1 ≤ m) (hlt : m < m') (hd : 1 ≤ d)
    (hle : d ≤ daysInMonth year m) : dayOfYear year m d < dayOfYear year m' d' := by
  have := sum_Ico_add_lt (daysInMonth year) hm hlt (show d - 1 < daysInMonth year m by omega)
  unfold dayOfYear
  omega

theorem dayOfYear_lt_yearLength {year m d : ℕ} (hm : 1 ≤ m) (hm' : m ≤ 12) (hd : 1 ≤ d)
    (hle : d ≤ daysInMonth year m) : dayOfYear year m d < yearLength year := by
  rw [← sum_daysInMonth]
  exact sum_Ico_add_lt (daysInMonth year) hm (by omega) (by omega)

/-- **Later is larger.** -/
theorem unixTime_lt {a b : DateTime} (ha : 1970 ≤ a.year) (h : a.fields < b.fields) :
    a.unixTime < b.unixTime := by
  have hva := a.valid
  have hvb := b.valid
  simp only [validDatetime, Bool.and_eq_true, decide_eq_true_eq] at hva hvb
  obtain ⟨⟨⟨⟨⟨⟨⟨⟨-, -⟩, hm⟩, hm'⟩, hd⟩, hd'⟩, hh⟩, hmi⟩, hs⟩ := hva
  have key : dayNumber a.year a.month a.day < dayNumber b.year b.month b.day → a.unixTime < b.unixTime := by
    unfold DateTime.unixTime
    omega
  simp only [DateTime.fields, List.cons_lt_cons_iff] at h
  rcases h with hy | ⟨hy, hmo | ⟨hmo, hda | ⟨hda, hrest⟩⟩⟩
  · -- an earlier year
    apply key
    have := sum_Ico_add_lt yearLength ha hy (dayOfYear_lt_yearLength hm hm' hd hd')
    unfold dayNumber
    omega
  · -- an earlier month of the same year
    apply key
    have := @dayOfYear_lt a.year a.month b.month a.day b.day hm hmo hd hd'
    rw [dayNumber, dayNumber, ← hy]
    omega
  · -- an earlier day of the same month
    apply key
    rw [dayNumber, dayNumber, dayOfYear, dayOfYear, ← hy, ← hmo]
    omega
  · -- the same day
    rw [DateTime.unixTime, DateTime.unixTime, ← hy, ← hmo, ← hda]
    rcases hrest with hlt | ⟨hlt, hlt' | ⟨hlt', hlt'' | ⟨-, hnil⟩⟩⟩
    · omega
    · omega
    · omega
    · exact absurd hnil (List.not_lt_nil _)

theorem unixTime_lt_iff {a b : DateTime} (ha : 1970 ≤ a.year) (hb : 1970 ≤ b.year) :
    a.unixTime < b.unixTime ↔ a.fields < b.fields := by
  refine ⟨fun h => ?_, unixTime_lt ha⟩
  rcases lt_trichotomy a.fields b.fields with hlt | heq | hgt
  · exact hlt
  · simp only [DateTime.fields, List.cons.injEq] at heq
    obtain ⟨h1, h2, h3, h4, h5, h6, -⟩ := heq
    rw [DateTime.unixTime, DateTime.unixTime, h1, h2, h3, h4, h5, h6] at h
    exact absurd h (lt_irrefl _)
  · exact absurd (unixTime_lt hb hgt) (by omega)

end AisServer.Lib
