import AisServer.Lib.Decimal
import AisServer.Lib.Listing

/-!
# Words

A line whose columns stand apart by white space, some of them hexadecimal numbers of a fixed width.

* `words_append` — the first word of a line;
* `splitOn_lines` — the lines of a file that ends with a line feed;
* `pyInt_hexText` — a number of two bytes is read back.
-/

namespace AisServer.Lib

/-! ### The words of a line -/

/-- The words of a text that goes on with the argument, when one has begun. -/
def wordsFrom (word : Str) : Str → List Str
  | [] => if word = [] then [] else [word]
  | c :: s =>
    if c ∈ spaces then (if word = [] then wordsFrom [] s else word :: wordsFrom [] s)
    else wordsFrom (word ++ [c]) s

/-- `s.split()` -/
def words (s : Str) : List Str := wordsFrom [] s

variable {s t w : Str} {c : Char}

theorem wordsFrom_append (hw : ∀ c ∈ w, c ∉ spaces) (word : Str) :
    wordsFrom word (w ++ s) = wordsFrom (word ++ w) s := by
  induction w generalizing word with
  | nil => rw [List.nil_append, List.append_nil]
  | cons c w ih =>
    rw [List.cons_append, wordsFrom, if_neg (hw c (List.mem_cons_self ..)),
      ih (fun c hc => hw c (List.mem_cons_of_mem _ hc)), List.append_assoc, List.singleton_append]

/-- **The first word** ends at the first blank. -/
theorem words_append (hne : w ≠ []) (hw : ∀ c ∈ w, c ∉ spaces) (hc : c ∈ spaces) :
    words (w ++ c :: s) = w :: words s := by
  rw [words, wordsFrom_append hw, List.nil_append, wordsFrom, if_pos hc, if_neg hne]
  rfl

/-! ### The lines of a file -/

theorem universalNewlines_of_notMem (h : '\r' ∉ s) : universalNewlines s = s := by
  induction s with
  | nil => rfl
  | cons c s ih =>
    have hc : c ≠ '\r' := fun hc => h (hc ▸ List.mem_cons_self ..)
    rw [universalNewlines, ih fun hs => h (List.mem_cons_of_mem _ hs)]
    · rintro t rfl
      exact absurd rfl hc
    · exact hc

theorem universalNewlines_lines {lines : List Str} (h : ∀ l ∈ lines, ∀ c ∈ l, c ≠ '\r') :
    universalNewlines (lines.flatMap (· ++ ['\n'])) = lines.flatMap (· ++ ['\n']) := by
  refine universalNewlines_of_notMem fun hmem => ?_
  obtain ⟨l, hl, hc⟩ := List.mem_flatMap.1 hmem
  rcases List.mem_append.1 hc with hc | hc
  · exact h l hl _ hc rfl
  · exact absurd hc (by decide)

theorem splitOn_lines {lines : List Str} (h : ∀ l ∈ lines, '\n' ∉ l) :
    (lines.flatMap (· ++ ['\n'])).splitOn '\n' = lines ++ [[]] := by
  induction lines with
  | nil => rfl
  | cons l lines ih =>
    rw [List.flatMap_cons, List.append_assoc, List.singleton_append, List.splitOn_append_cons_self,
      List.splitOn_eq_singleton (h l (List.mem_cons_self ..)), ih fun l hl => h l (List.mem_cons_of_mem _ hl)]
    rfl

/-! ### Hexadecimal columns -/

/-- The number that a text of hexadecimal digits is. -/
def hexNumber (s : Str) : ℕ := s.foldl (fun n c => 16 * n + hexVal c) 0

theorem digitsVal_hexNumber (hs : ∀ c ∈ s, c ∈ hexDigits) : digitsVal 16 s = some (hexNumber s) := by
  induction s using List.reverseRecOn with
  | nil => rfl
  | append_singleton s c ih =>
    obtain ⟨hval, hlt, -⟩ := hexDigit_spec (hs c (by simp))
    rw [digitsVal_append_one, ih fun c hc => hs c (List.mem_append_left _ hc), Option.bind_some, hval, Option.bind_some,
      if_pos hlt, hexNumber, hexNumber, List.foldl_append]
    rfl

theorem pyInt_of_hexDigits (hne : s ≠ []) (hs : ∀ c ∈ s, c ∈ hexDigits) : pyInt 16 s = some (hexNumber s : ℤ) := by
  have hspec := fun c hc => hexDigit_spec (hs c hc)
  have hstrip : strip intSpaces s = s := strip_eq_self fun c hc => (hspec c hc).2.2.1
  have hnot : ∀ c ∈ ['-', '+', '_', 'x', 'X'], c ∉ s := fun c hc hmem => (hspec c hmem).2.2.2.1 hc
  have hmarker : dropMarker 16 s = s := by
    unfold dropMarker
    split
    · rename_i x s
      refine if_neg fun hx => ?_
      rcases hx.2 with rfl | rfl
      · exact hnot 'x' (by decide) (by simp)
      · exact hnot 'X' (by decide) (by simp)
    · rfl
  have hmag : magnitude 16 s = some (hexNumber s) := by
    rw [magnitude, List.splitOn_eq_singleton (hnot '_' (by decide))]
    simpa [hne] using digitsVal_hexNumber hs
  unfold pyInt
  rw [hstrip]
  split
  · exact absurd (List.mem_cons_self ..) (hnot '-' (by decide))
  · exact absurd (List.mem_cons_self ..) (hnot '+' (by decide))
  · rw [hmarker, hmag]
    rfl

/-- `format(n, "0…X")` of a number, from its bytes. -/
def hexText (bytes : List ℕ) : Str := bytes.flatMap (hexPair true)

theorem mem_hexText {bytes : List ℕ} (hc : c ∈ hexText bytes) : c ∈ hexDigits := by
  obtain ⟨n, -, hc⟩ := List.mem_flatMap.1 hc
  simp only [hexPair, List.mem_cons, List.not_mem_nil, or_false] at hc
  rcases hc with rfl | rfl
  · exact (hexChar_spec _ _).1
  · exact (hexChar_spec _ _).1

theorem hexNumber_hexPair {n : ℕ} (hn : n < 256) : hexNumber (hexPair true n) = n := by
  have hone : hexText [n] = hexPair true n := List.append_nil _
  have hdigits : ∀ c ∈ hexPair true n, c ∈ hexDigits := by
    rw [← hone]
    exact fun c hc => mem_hexText hc
  have h := (pyInt_of_hexDigits (by simp [hexPair]) hdigits).symm.trans (pyInt_hexPair hn)
  exact Int.ofNat.inj (Option.some.inj h)

/-- **A number of two bytes is read back.** -/
theorem pyInt_hexText {m n : ℕ} (hm : m < 256) (hn : n < 256) :
    pyInt 16 (hexText [m, n]) = some ((256 * m + n : ℕ) : ℤ) := by
  rw [pyInt_of_hexDigits (by simp [hexText, hexPair]) fun c hc => mem_hexText hc]
  have hm' := hexNumber_hexPair hm
  have hn' := hexNumber_hexPair hn
  simp only [hexNumber, hexPair, List.foldl_cons, List.foldl_nil] at hm' hn'
  simp only [hexNumber, hexText, hexPair, List.flatMap_cons, List.flatMap_nil, List.append_nil, List.cons_append,
    List.nil_append, List.foldl_cons, List.foldl_nil]
  congr 2
  omega

theorem hexText_inj {l l' : List ℕ} (hl : ∀ n ∈ l, n < 256) (hl' : ∀ n ∈ l', n < 256) (h : hexText l = hexText l') :
    l = l' := by
  induction l generalizing l' with
  | nil =>
    cases l' with
    | nil => rfl
    | cons n l' => simp [hexText, hexPair] at h
  | cons m l ih =>
    cases l' with
    | nil => simp [hexText, hexPair] at h
    | cons n l' =>
      obtain ⟨hpair, hrest⟩ : hexPair true m = hexPair true n ∧ hexText l = hexText l' :=
        List.append_inj (by simpa [hexText] using h) rfl
      have hmn := congrArg hexNumber hpair
      rw [hexNumber_hexPair (hl m (List.mem_cons_self ..)), hexNumber_hexPair (hl' n (List.mem_cons_self ..))] at hmn
      rw [hmn, ih (fun n hn => hl n (List.mem_cons_of_mem _ hn)) (fun n hn => hl' n (List.mem_cons_of_mem _ hn)) hrest]

end AisServer.Lib
