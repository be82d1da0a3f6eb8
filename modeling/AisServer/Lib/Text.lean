import Mathlib.Data.List.Basic
import Mathlib.Data.List.Infix
import Mathlib.Data.List.TakeWhile

/-!
# Text as Python sees it

A `str` is a list of code points.  The functions below follow the documented behaviour of the string
methods and of `int(text, base)`: surrounding white space, a sign, the `0x` marker of base 16, single
underscores between digits, decimal digits of every script, and the limit on the number of decimal
digits.  A `bytes` object is a list of bytes; the ASCII codec is used with `errors="ignore"`.
-/

namespace AisServer.Lib

/-- A Python `str`. -/
abbrev Str := List Char

/-! ### Splitting and stripping -/

/-- `s.lstrip(cs)` -/
def lstrip (cs : List Char) (s : Str) : Str := s.dropWhile (· ∈ cs)

/-- `s.strip(cs)` -/
def strip (cs : List Char) (s : Str) : Str := (lstrip cs (lstrip cs s).reverse).reverse

/-- `s.rstrip(cs)` -/
def rstrip (cs : List Char) (s : Str) : Str := (lstrip cs s.reverse).reverse

theorem strip_eq (cs : List Char) (s : Str) : strip cs s = rstrip cs (lstrip cs s) := rfl

/-- `s.rsplit(c, 1)`: the text before the last `c` and the text after it; `none` without a `c`. -/
def rsplit1 (c : Char) : Str → Option (Str × Str)
  | [] => none
  | a :: s => match rsplit1 c s with
    | some (body, rest) => some (a :: body, rest)
    | none => if a = c then some ([], s) else none

/-- The text before the first `c` and the text after it, as `find(c)` cuts it; `none` without a `c`. -/
def split1 {α : Type} [DecidableEq α] (c : α) : List α → Option (List α × List α)
  | [] => none
  | a :: s => if a = c then some ([], s) else (split1 c s).map fun r => (a :: r.1, r.2)

/-- `s.split(c, 1)[0]`: the text before the first `c`. -/
def upTo (c : Char) (s : Str) : Str := s.takeWhile (· ≠ c)

theorem rsplit1_eq_none {c : Char} {s : Str} : rsplit1 c s = none ↔ c ∉ s := by
  induction s with
  | nil => simp [rsplit1]
  | cons a s ih =>
    rw [rsplit1]
    rcases h : rsplit1 c s with _ | ⟨b, t⟩
    · have hc : c ∉ s := ih.1 h
      by_cases ha : a = c
      · simp [ha]
      · simp [ha, hc, Ne.symm ha]
    · have hc : c ∈ s := by
        by_contra hc
        rw [ih.2 hc] at h
        cases h
      simp [hc]

/-- `rsplit1` cuts at the last occurrence. -/
theorem rsplit1_eq_some {c : Char} {s b t : Str} :
    rsplit1 c s = some (b, t) ↔ s = b ++ c :: t ∧ c ∉ t := by
  induction s generalizing b t with
  | nil => simp [rsplit1]
  | cons a s ih =>
    rw [rsplit1]
    rcases h : rsplit1 c s with _ | ⟨b', t'⟩
    · have hc : c ∉ s := rsplit1_eq_none.1 h
      constructor
      · intro he
        by_cases ha : a = c
        · simp only [ha, if_true, Option.some.injEq, Prod.mk.injEq] at he
          obtain ⟨rfl, rfl⟩ := he
          exact ⟨by simp [ha], hc⟩
        · simp [ha] at he
      · rintro ⟨he, -⟩
        cases b with
        | nil =>
          obtain ⟨rfl, rfl⟩ := List.cons.inj he
          simp
        | cons x b =>
          obtain ⟨rfl, rfl⟩ := List.cons.inj he
          exact absurd (by simp) hc
    · obtain ⟨hs, ht'⟩ := ih.1 h
      simp only [Option.some.injEq, Prod.mk.injEq]
      constructor
      · rintro ⟨rfl, rfl⟩
        exact ⟨by simp [hs], ht'⟩
      · rintro ⟨he, ht⟩
        cases b with
        | nil =>
          obtain ⟨rfl, rfl⟩ := List.cons.inj he
          exact absurd (by simp [hs]) ht
        | cons x b =>
          obtain ⟨rfl, hs2⟩ := List.cons.inj he
          have h2 := ih.2 ⟨hs2, ht⟩
          rw [h] at h2
          obtain ⟨rfl, rfl⟩ := Prod.mk.inj (Option.some.inj h2)
          exact ⟨rfl, rfl⟩

theorem split1_eq_none {α : Type} [DecidableEq α] {c : α} {s : List α} : split1 c s = none ↔ c ∉ s := by
  induction s with
  | nil => simp [split1]
  | cons a s ih =>
    rw [split1]
    by_cases ha : a = c
    · simp [ha]
    · rw [if_neg ha, Option.map_eq_none_iff, ih, List.mem_cons, not_or]
      exact ⟨fun hs => ⟨Ne.symm ha, hs⟩, fun hs => hs.2⟩

/-- `split1` cuts at the first occurrence. -/
theorem split1_eq_some {α : Type} [DecidableEq α] {c : α} {s b t : List α} :
    split1 c s = some (b, t) ↔ s = b ++ c :: t ∧ c ∉ b := by
  induction s generalizing b with
  | nil => simp [split1]
  | cons a s ih =>
    rw [split1]
    by_cases ha : a = c
    · subst ha
      cases b with
      | nil => simp
      | cons x b =>
        simp only [if_true, Option.some.injEq, Prod.mk.injEq, List.cons_append, List.cons.injEq,
          List.mem_cons, not_or]
        constructor
        · rintro ⟨h, -⟩
          cases h
        · rintro ⟨⟨rfl, -⟩, hne, -⟩
          exact absurd rfl hne
    · rw [if_neg ha]
      simp only [Option.map_eq_some_iff, Prod.mk.injEq, Prod.exists]
      constructor
      · rintro ⟨b', t', h, rfl, rfl⟩
        obtain ⟨rfl, hb⟩ := ih.1 h
        exact ⟨rfl, by simp [hb, Ne.symm ha]⟩
      · rintro ⟨h, hb⟩
        cases b with
        | nil => exact absurd (List.cons.inj h).1 ha
        | cons x b =>
          obtain ⟨rfl, rfl⟩ := List.cons.inj h
          exact ⟨b, t, ih.2 ⟨rfl, fun hc => hb (List.mem_cons_of_mem _ hc)⟩, rfl, rfl⟩

/-- The text before the first `c` is an initial piece of every text before a `c`. -/
theorem upTo_append_cons_prefix (c : Char) (b t : Str) : upTo c (b ++ c :: t) <+: b := by
  induction b with
  | nil => simp [upTo]
  | cons a b ih =>
    unfold upTo at ih ⊢
    by_cases ha : a = c
    · simp [ha]
    · rw [List.cons_append, List.takeWhile_cons_of_pos (by simpa using ha)]
      exact List.cons_prefix_cons.2 ⟨rfl, ih⟩

theorem upTo_append_cons_of_notMem {c : Char} {b : Str} (t : Str) (h : c ∉ b) :
    upTo c (b ++ c :: t) = b := by
  rw [upTo, List.takeWhile_append_of_pos fun a ha => by simpa using fun e : a = c => h (e ▸ ha)]
  simp

/-- A piece at the start that has no `c` is not cut. -/
theorem prefix_upTo {c : Char} {b : Str} (t : Str) (h : c ∉ b) : b <+: upTo c (b ++ t) := by
  rw [upTo, List.takeWhile_append_of_pos fun a ha => by simpa using fun e : a = c => h (e ▸ ha)]
  exact List.prefix_append ..

theorem upTo_eq_self {c : Char} {s : Str} : upTo c s = s ↔ c ∉ s := by
  rw [upTo, List.takeWhile_eq_self_iff]
  constructor
  · exact fun h hc => by simpa using h c hc
  · exact fun h a ha => by simpa using fun e : a = c => h (e ▸ ha)

/-- The text before the first `c`, as the piece of the text that it is. -/
theorem upTo_eq_iff {c : Char} {s b : Str} : upTo c s = b ↔ c ∉ b ∧ (s = b ∨ b ++ [c] <+: s) := by
  constructor
  · rintro rfl
    refine ⟨fun hc => by simpa using List.mem_takeWhile_imp hc, ?_⟩
    by_cases hc : c ∈ s
    · obtain ⟨b, t, rfl, hb⟩ := List.eq_append_cons_of_mem hc
      rw [upTo_append_cons_of_notMem t hb]
      exact Or.inr ⟨t, by simp⟩
    · exact Or.inl (upTo_eq_self.2 hc).symm
  · rintro ⟨hb, rfl | ⟨t, rfl⟩⟩
    · exact upTo_eq_self.2 hb
    · rw [List.append_assoc]
      exact upTo_append_cons_of_notMem t hb

theorem mem_of_mem_lstrip {cs : List Char} {s : Str} {a : Char} (h : a ∈ lstrip cs s) : a ∈ s :=
  (List.dropWhile_sublist _).subset h

theorem mem_of_mem_strip {cs : List Char} {s : Str} {a : Char} (h : a ∈ strip cs s) : a ∈ s := by
  unfold strip at h
  have h1 := mem_of_mem_lstrip (List.mem_reverse.1 h)
  exact mem_of_mem_lstrip (List.mem_reverse.1 h1)

theorem lstrip_eq_self {cs : List Char} {s : Str} : lstrip cs s = s ↔ ∀ a ∈ s.head?, a ∉ cs := by
  rcases s with _ | ⟨a, s⟩
  · simp [lstrip]
  · by_cases ha : a ∈ cs
    · have hlen : (lstrip cs (a :: s)).length ≤ s.length := by
        rw [lstrip, List.dropWhile_cons_of_pos (by simpa using ha)]
        exact (List.dropWhile_sublist _).length_le
      constructor
      · intro h
        rw [h, List.length_cons] at hlen
        omega
      · intro h
        exact absurd ha (h a rfl)
    · simp [lstrip, ha]

theorem rstrip_eq_self {cs : List Char} {s : Str} : rstrip cs s = s ↔ ∀ a ∈ s.getLast?, a ∉ cs := by
  rw [rstrip, List.reverse_eq_iff, lstrip_eq_self, List.head?_reverse]

theorem exists_rstrip (cs : List Char) (s : Str) : ∃ w, s = rstrip cs s ++ w ∧ ∀ c ∈ w, c ∈ cs := by
  refine ⟨(s.reverse.takeWhile (· ∈ cs)).reverse, ?_, fun c hc => ?_⟩
  · rw [rstrip, lstrip, ← List.reverse_append, List.takeWhile_append_dropWhile, List.reverse_reverse]
  · simpa using List.mem_takeWhile_imp (List.mem_reverse.1 hc)

theorem rstrip_append {cs : List Char} (s : Str) {t : Str} (h : ∃ c ∈ t, c ∉ cs) :
    rstrip cs (s ++ t) = s ++ rstrip cs t := by
  obtain ⟨c, hc, hcs⟩ := h
  have hne : (t.reverse.dropWhile (· ∈ cs)).isEmpty = false := by
    rw [List.isEmpty_eq_false_iff, Ne, List.dropWhile_eq_nil_iff]
    intro hall
    exact hcs (by simpa using hall c (List.mem_reverse.2 hc))
  rw [rstrip, lstrip, List.reverse_append, List.dropWhile_append, hne]
  simp [rstrip, lstrip]

theorem rstrip_append_of_forall_mem {cs : List Char} (s : Str) {w : Str} (h : ∀ c ∈ w, c ∈ cs) :
    rstrip cs (s ++ w) = rstrip cs s := by
  rw [rstrip, List.reverse_append, lstrip, List.dropWhile_append_of_pos (by simpa using h)]
  rfl

theorem mem_take_rstrip {cs : List Char} {s : Str} {c : Char} {n : ℕ} (h : c ∈ s.take n) (hc : c ∉ cs) :
    c ∈ (rstrip cs s).take n := by
  obtain ⟨w, hw, hmem⟩ := exists_rstrip cs s
  rw [hw, List.take_append] at h
  rcases List.mem_append.1 h with h | h
  · exact h
  · exact absurd (hmem c (List.mem_of_mem_take h)) hc

theorem infix_of_mem_splitOn {c : Char} : ∀ {s f : Str}, f ∈ s.splitOn c → f <:+: s := by
  intro s
  induction s with
  | nil => simp
  | cons a s ih =>
    intro f hf
    obtain ⟨g, gs, hg⟩ : ∃ g gs, s.splitOn c = g :: gs :=
      List.exists_cons_of_ne_nil (List.splitOn_ne_nil c s)
    have hpre : g <+: s := by
      have := @List.intercalate_splitOn _ s _ _ c
      rw [hg] at this
      rw [← this]
      cases gs <;> simp [List.intercalate]
    rw [List.splitOn_cons_eq_if_modifyHead, hg] at hf
    by_cases ha : a = c
    · simp only [ha, beq_self_eq_true, if_true, List.mem_cons] at hf
      rcases hf with rfl | rfl | hf
      · exact List.nil_infix
      · exact List.infix_cons (ih (by rw [hg]; simp))
      · exact List.infix_cons (ih (by rw [hg]; simp [hf]))
    · simp only [beq_iff_eq, ha, if_false, List.modifyHead_cons, List.mem_cons] at hf
      rcases hf with rfl | hf
      · exact (List.cons_prefix_cons.2 ⟨rfl, hpre⟩).isInfix
      · exact List.infix_cons (ih (by rw [hg]; simp [hf]))

theorem getElem?_splitOn_append {c : Char} {s : Str} (t : Str) {i : ℕ} (h : i + 1 < (s.splitOn c).length) :
    ((s ++ t).splitOn c)[i]? = (s.splitOn c)[i]? := by
  induction s generalizing i with
  | nil => simp at h
  | cons a s ih =>
    rw [List.cons_append, List.splitOn_cons_eq_if_modifyHead, List.splitOn_cons_eq_if_modifyHead]
    rw [List.splitOn_cons_eq_if_modifyHead] at h
    by_cases ha : a = c
    · simp only [ha, beq_self_eq_true, if_true, List.length_cons] at h ⊢
      rcases i with _ | i
      · rfl
      · rw [List.getElem?_cons_succ, List.getElem?_cons_succ]
        exact ih (by omega)
    · simp only [beq_iff_eq, ha, if_false, List.length_modifyHead] at h ⊢
      rw [List.getElem?_modifyHead, List.getElem?_modifyHead, ih h]

/-! ### Digits and numbers -/

/-- The code points of the decimal digits zero; each is followed by the digits one to nine. -/
def decimalZeros : List ℕ :=
  [0x30, 0x660, 0x6F0, 0x7C0, 0x966, 0x9E6, 0xA66, 0xAE6, 0xB66, 0xBE6, 0xC66, 0xCE6, 0xD66, 0xDE6,
    0xE50, 0xED0, 0xF20, 0x1040, 0x1090, 0x17E0, 0x1810, 0x1946, 0x19D0, 0x1A80, 0x1A90, 0x1B50,
    0x1BB0, 0x1C40, 0x1C50, 0xA620, 0xA8D0, 0xA900, 0xA9D0, 0xA9F0, 0xAA50, 0xABF0, 0xFF10, 0x104A0,
    0x10D30, 0x11066, 0x110F0, 0x11136, 0x111D0, 0x112F0, 0x11450, 0x114D0, 0x11650, 0x116C0,
    0x11730, 0x118E0, 0x11950, 0x11C50, 0x11D50, 0x11DA0, 0x11F50, 0x16A60, 0x16AC0, 0x16B50,
    0x1D7CE, 0x1D7D8, 0x1D7E2, 0x1D7EC, 0x1D7F6, 0x1E140, 0x1E2F0, 0x1E4F0, 0x1E950, 0x1FBF0]

/-- First and last code points of the characters that `str.isdigit` accepts and `int` does not. -/
def otherDigits : List (ℕ × ℕ) :=
  [(0xB2, 0xB3), (0xB9, 0xB9), (0x1369, 0x1371), (0x19DA, 0x19DA), (0x2070, 0x2070),
    (0x2074, 0x2079), (0x2080, 0x2089), (0x2460, 0x2468), (0x2474, 0x247C), (0x2488, 0x2490),
    (0x24EA, 0x24EA), (0x24F5, 0x24FD), (0x24FF, 0x24FF), (0x2776, 0x277E), (0x2780, 0x2788),
    (0x278A, 0x2792), (0x10A40, 0x10A43), (0x10E60, 0x10E68), (0x11052, 0x1105A),
    (0x1F100, 0x1F10A)]

/-- The value of a decimal digit of any script. -/
def decimalVal (c : Char) : Option ℕ :=
  (decimalZeros.find? fun z => z ≤ c.toNat ∧ c.toNat ≤ z + 9).map fun z => c.toNat - z

/-- The value of a digit in a base up to 36. -/
def digitVal (c : Char) : Option ℕ :=
  if 'a' ≤ c ∧ c ≤ 'z' then some (c.toNat - 'a'.toNat + 10)
  else if 'A' ≤ c ∧ c ≤ 'Z' then some (c.toNat - 'A'.toNat + 10)
  else decimalVal c

/-- `s.isdigit()` -/
def isDigit (s : Str) : Bool :=
  !s.isEmpty && s.all fun c =>
    (decimalVal c).isSome || otherDigits.any fun r => r.1 ≤ c.toNat && c.toNat ≤ r.2

/-- White space in ASCII text; the separators `\x1c` to `\x1f` are white space to `str.isspace` alone. -/
def asciiSpaces : List Char := [' ', '\t', '\n', '\x0b', '\x0c', '\r']

/-- White space beyond ASCII. -/
def wideSpaces : List Char :=
  ['\u0085', '\u00a0', '\u1680', '\u2000', '\u2001', '\u2002', '\u2003', '\u2004', '\u2005', '\u2006',
    '\u2007', '\u2008', '\u2009', '\u200a', '\u2028', '\u2029', '\u202f', '\u205f', '\u3000']

/-- The white space of `str.isspace`, which `str.strip` removes. -/
def spaces : List Char := asciiSpaces ++ ['\x1c', '\x1d', '\x1e', '\x1f'] ++ wideSpaces

/-- The white space that `int` skips. -/
def intSpaces : List Char := asciiSpaces ++ wideSpaces

/-- `sys.int_info.default_max_str_digits`, the limit for a base that is not a power of two. -/
def maxStrDigits : ℕ := 4300

/-- The value of digits in a base, most significant first; `none` at a character that is no digit. -/
def digitsVal (base : ℕ) (s : Str) : Option ℕ :=
  s.foldlM (fun n c => (digitVal c).bind fun d => if d < base then some (base * n + d) else none) 0

/-- Digits with single underscores between them. -/
def magnitude (base : ℕ) (s : Str) : Option ℕ :=
  let groups := s.splitOn '_'
  if groups.any List.isEmpty then none
  else if base = 10 ∧ maxStrDigits < groups.flatten.length then none
  else digitsVal base groups.flatten

/-- The text after the `0x` marker of base 16 and the underscore that may follow it. -/
def dropMarker (base : ℕ) : Str → Str
  | '0' :: x :: s =>
    if base = 16 ∧ (x = 'x' ∨ x = 'X') then
      match s with
      | '_' :: s => s
      | s => s
    else '0' :: x :: s
  | s => s

/-- `int(s, base)` for the bases 10 and 16; `none` is a `ValueError`. -/
def pyInt (base : ℕ) (s : Str) : Option ℤ :=
  match strip intSpaces s with
  | '-' :: s => (magnitude base (dropMarker base s)).map fun n => -(n : ℤ)
  | '+' :: s => (magnitude base (dropMarker base s)).map fun n => (n : ℤ)
  | s => (magnitude base (dropMarker base s)).map fun n => (n : ℤ)

example : pyInt 16 ['2', 'f'] = some 47 ∧ pyInt 16 [' ', '7'] = some 7 ∧ pyInt 16 ['0', 'x'] = none ∧
    pyInt 10 ['1', '_', '0'] = some 10 ∧ pyInt 10 ['_', '1'] = none := by decide

theorem mem_of_mem_dropMarker {base : ℕ} {s : Str} {c : Char} (h : c ∈ dropMarker base s) : c ∈ s := by
  unfold dropMarker at h
  split at h
  · split at h
    · split at h
      · simp [h]
      · simp [h]
    · exact h
  · exact h

theorem digitVal_of_mem_spaces : ∀ c ∈ spaces, digitVal c = none := by
  have hall : (spaces.all fun c => (digitVal c).isNone) = true := by decide
  intro c hc
  simpa using List.all_eq_true.1 hall c hc

/-- A magnitude has a digit. -/
theorem exists_digit_of_magnitude {base n : ℕ} {s : Str} (h : magnitude base s = some n) :
    ∃ c ∈ s, digitVal c ≠ none := by
  unfold magnitude at h
  dsimp only at h
  split at h
  · cases h
  · rename_i hne
    split at h
    · cases h
    · obtain ⟨g, gs, hg⟩ := List.exists_cons_of_ne_nil (List.splitOn_ne_nil '_' s)
      rw [hg, List.any_cons, Bool.or_eq_true, not_or] at hne
      rcases g with _ | ⟨a, g⟩
      · exact absurd rfl hne.1
      · rw [hg] at h
        have ha : a ∈ s := (infix_of_mem_splitOn (hg ▸ List.mem_cons_self ..)).subset (List.mem_cons_self ..)
        refine ⟨a, ha, fun hnone => ?_⟩
        simp [digitsVal, hnone] at h

/-- **A number is not blank.** -/
theorem exists_nonspace_of_pyInt {base : ℕ} {s : Str} {n : ℤ} (h : pyInt base s = some n) :
    ∃ c ∈ s, c ∉ spaces := by
  have hmag : ∀ t, (∀ c ∈ t, c ∈ strip intSpaces s) → magnitude base (dropMarker base t) ≠ none →
      ∃ c ∈ s, c ∉ spaces := by
    intro t ht hne
    obtain ⟨m, hm⟩ := Option.ne_none_iff_exists'.1 hne
    obtain ⟨c, hc, hdigit⟩ := exists_digit_of_magnitude hm
    exact ⟨c, mem_of_mem_strip (ht c (mem_of_mem_dropMarker hc)), fun hsp =>
      hdigit (digitVal_of_mem_spaces c hsp)⟩
  unfold pyInt at h
  split at h
  · rename_i t heq
    exact hmag t (fun c hc => heq ▸ List.mem_cons_of_mem _ hc) fun hm => by simp [hm] at h
  · rename_i t heq
    exact hmag t (fun c hc => heq ▸ List.mem_cons_of_mem _ hc) fun hm => by simp [hm] at h
  · exact hmag (strip intSpaces s) (fun c hc => hc) fun hm => by simp [hm] at h

/-! ### Two hexadecimal digits -/

def hexDigits : Str :=
  ['0', '1', '2', '3', '4', '5', '6', '7', '8', '9', 'a', 'b', 'c', 'd', 'e', 'f',
    'A', 'B', 'C', 'D', 'E', 'F']

def hexVal (c : Char) : ℕ := (digitVal c).getD 0

/-- A hexadecimal digit has a value, and is nothing that `int` treats in a special way. -/
theorem hexDigit_spec {a : Char} (ha : a ∈ hexDigits) : digitVal a = some (hexVal a) ∧ hexVal a < 16 ∧
    a ∉ intSpaces ∧ a ∉ ['-', '+', '_', 'x', 'X'] ∧ a.toNat < 128 := by
  have hall : (hexDigits.all fun a => digitVal a = some (hexVal a) ∧ hexVal a < 16 ∧
      a ∉ intSpaces ∧ a ∉ ['-', '+', '_', 'x', 'X'] ∧ a.toNat < 128) = true := by decide
  exact of_decide_eq_true (List.all_eq_true.1 hall a ha)

theorem pyInt_hexDigits {a b : Char} (ha : a ∈ hexDigits) (hb : b ∈ hexDigits) :
    pyInt 16 [a, b] = some ((16 * hexVal a + hexVal b : ℕ) : ℤ) := by
  obtain ⟨hva, hlta, hspa, hsa, -⟩ := hexDigit_spec ha
  obtain ⟨hvb, hltb, hspb, hsb, -⟩ := hexDigit_spec hb
  simp only [List.mem_cons, List.not_mem_nil, or_false, not_or] at hsa hsb
  have hstrip : strip intSpaces [a, b] = [a, b] := by simp [strip, lstrip, hspa, hspb]
  have hmarker : dropMarker 16 [a, b] = [a, b] := by
    unfold dropMarker
    split
    · rename_i x s h
      simp only [List.cons.injEq] at h
      obtain ⟨rfl, rfl, rfl⟩ := h
      simp [hsb]
    · rfl
  have hmag : magnitude 16 [a, b] = some (16 * hexVal a + hexVal b) := by
    have hsplit : [a, b].splitOn '_' = [[a, b]] := by
      simp [List.splitOn_cons_eq_if_modifyHead, hsa, hsb]
    simp [magnitude, hsplit, digitsVal, hva, hvb, hlta, hltb]
  unfold pyInt
  rw [hstrip]
  split
  · rename_i h
    exact absurd (List.cons.inj h).1 hsa.1
  · rename_i h
    exact absurd (List.cons.inj h).1 hsa.2.1
  · rw [hmarker, hmag]
    rfl

/-! ### Bytes -/

/-- `raw.decode("ascii", errors="ignore")` -/
def decodeAscii (raw : List UInt8) : Str :=
  (raw.filter (· < 128)).map fun b => Char.ofNat b.toNat

/-- `s.encode("ascii", errors="ignore")` -/
def encodeAscii (s : Str) : List UInt8 :=
  (s.filter fun c => c.toNat < 128).map fun c => UInt8.ofNat c.toNat

theorem toNat_ofNat_of_lt {n : ℕ} (h : n < 128) : (Char.ofNat n).toNat = n := by
  have hv : n.isValidChar := Or.inl (by omega)
  rw [Char.ofNat, dif_pos hv]
  rfl

theorem mem_decodeAscii {raw : List UInt8} {c : Char} (h : c ∈ decodeAscii raw) :
    c.toNat < 128 ∧ UInt8.ofNat c.toNat ∈ raw := by
  unfold decodeAscii at h
  obtain ⟨b, hb, rfl⟩ := List.mem_map.1 h
  obtain ⟨hb, hlt⟩ := List.mem_filter.1 hb
  have hlt' : b.toNat < 128 := by simpa [UInt8.lt_iff_toNat_lt] using hlt
  rw [toNat_ofNat_of_lt hlt']
  exact ⟨hlt', by simpa using hb⟩

theorem encodeAscii_of_ascii {s : Str} (h : ∀ c ∈ s, c.toNat < 128) :
    encodeAscii s = s.map fun c => UInt8.ofNat c.toNat := by
  unfold encodeAscii
  rw [List.filter_eq_self.2 (by simpa using h)]

theorem decodeAscii_append (raw more : List UInt8) :
    decodeAscii (raw ++ more) = decodeAscii raw ++ decodeAscii more := by
  simp [decodeAscii]

theorem decodeAscii_encodeAscii {s : Str} (h : ∀ c ∈ s, c.toNat < 128) : decodeAscii (encodeAscii s) = s := by
  rw [encodeAscii_of_ascii h]
  induction s with
  | nil => rfl
  | cons c s ih =>
    have hc : c.toNat < 128 := h c List.mem_cons_self
    have hbyte : (UInt8.ofNat c.toNat).toNat = c.toNat := by simp; omega
    have hlt : UInt8.ofNat c.toNat < 128 := by
      rw [UInt8.lt_iff_toNat_lt, hbyte]
      exact hc
    have htail := ih fun d hd => h d (List.mem_cons_of_mem _ hd)
    unfold decodeAscii at htail ⊢
    simp only [List.map_cons, List.filter_cons, hlt, decide_true, if_true, hbyte, Char.ofNat_toNat, htail]

theorem lineFeed_notMem_encodeAscii {s : Str} (h : '\n' ∉ s) (hasc : ∀ c ∈ s, c.toNat < 128) :
    10 ∉ encodeAscii s := by
  rw [encodeAscii_of_ascii hasc]
  intro hm
  obtain ⟨c, hc, he⟩ := List.mem_map.1 hm
  have hbyte : c.toNat = 10 := by
    have := congrArg UInt8.toNat he
    have hlt := hasc c hc
    simp at this
    omega
  have hn : c = '\n' := Char.toNat_inj.1 hbyte
  exact h (hn ▸ hc)

theorem encodeAscii_append (s t : Str) : encodeAscii (s ++ t) = encodeAscii s ++ encodeAscii t := by
  simp [encodeAscii]

end AisServer.Lib
