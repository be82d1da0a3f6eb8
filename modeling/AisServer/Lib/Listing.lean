import AisServer.Lib.Text

/-!
# Listings

Text that a program prints line by line, with several fields on a line: the lines as `str.splitlines` finds them, and
fields in which a colon and a backslash are escaped by a backslash.

* `linesFrom_universalNewlines` — the text mode of a pipe leaves the lines as they are;
* `filterMap_linesFrom_append` — what is read from the lines of two texts;
* `linesFrom_escape`, `splitOn_escape` — the lines of an escaped text, and its parts between colons.
-/

namespace AisServer.Lib

/-! ### Lines -/

/-- Where `str.splitlines` breaks a text. -/
def lineBreaks : List Char :=
  ['\n', '\r', '\x0b', '\x0c', '\x1c', '\x1d', '\x1e', '\u0085', '\u2028', '\u2029']

/-- The lines of a text that goes on with `s`, and last what stands behind the last break. -/
def linesFrom (line : Str) : Str → List Str
  | [] => [line]
  | '\r' :: '\n' :: s => line :: linesFrom [] s
  | c :: s => if c ∈ lineBreaks then line :: linesFrom [] s else linesFrom (line ++ [c]) s

/-- `s.splitlines()` -/
def splitlines (s : Str) : List Str :=
  let lines := linesFrom [] s
  if lines.getLast? = some [] then lines.dropLast else lines

/-- What a pipe in text mode makes of the line ends. -/
def universalNewlines : Str → Str
  | [] => []
  | '\r' :: '\n' :: s => '\n' :: universalNewlines s
  | '\r' :: s => '\n' :: universalNewlines s
  | c :: s => c :: universalNewlines s

/-- A text on one line. -/
def OneLine (s : Str) : Prop := ∀ c ∈ s, c ∉ lineBreaks

section Lines

variable {α : Type} {f : Str → Option α} {line s t u : Str} {c : Char}

theorem linesFrom_break (hc : c ∈ lineBreaks) (hs : ¬ (c = '\r' ∧ ∃ t, s = '\n' :: t)) :
    linesFrom line (c :: s) = line :: linesFrom [] s := by
  rw [linesFrom, if_pos hc]
  rintro t rfl rfl
  exact hs ⟨rfl, t, rfl⟩

theorem linesFrom_other (hc : c ∉ lineBreaks) : linesFrom line (c :: s) = linesFrom (line ++ [c]) s := by
  rw [linesFrom, if_neg hc]
  rintro t rfl
  exact absurd (by decide) hc

theorem linesFrom_universalNewlines (line s : Str) : linesFrom line (universalNewlines s) = linesFrom line s := by
  induction s using universalNewlines.induct generalizing line with
  | case1 => rfl
  | case2 s ih =>
    rw [universalNewlines, linesFrom_break (by decide) (by simp), ih, linesFrom]
  | case3 s hs ih =>
    rw [universalNewlines, linesFrom_break (by decide) (by simp), ih, linesFrom_break (by decide) ?_]
    · rintro ⟨-, t, rfl⟩
      exact hs t rfl
    · exact hs
  | case4 c s hrn hr ih =>
    have hne : c ≠ '\r' := by
      rintro rfl
      exact hr rfl
    rw [universalNewlines]
    · by_cases hc : c ∈ lineBreaks
      · rw [linesFrom_break hc fun h => hne h.1, linesFrom_break hc fun h => hne h.1, ih]
      · rw [linesFrom_other hc, linesFrom_other hc, ih]
    · exact hrn
    · exact hr

theorem linesFrom_ne_nil (line s : Str) : linesFrom line s ≠ [] := by
  induction line, s using linesFrom.induct with
  | case1 line => simp [linesFrom]
  | case2 line s ih => simp [linesFrom]
  | case3 line c s hrn hc ih =>
    rw [linesFrom, if_pos hc]
    · simp
    · exact hrn
  | case4 line c s hrn hc ih => rwa [linesFrom_other hc]

theorem filterMap_splitlines (hf : f [] = none) : (splitlines s).filterMap f = (linesFrom [] s).filterMap f := by
  unfold splitlines
  dsimp only
  split
  · rename_i hlast
    obtain ⟨hne, hlast⟩ := List.getLast?_eq_some_iff.1 hlast
    rw [hlast, List.dropLast_concat, List.filterMap_append, List.filterMap_cons_none hf, List.filterMap_nil,
      List.append_nil]
  · rfl

/-- **The lines of two texts.** -/
theorem filterMap_linesFrom_append (hf : f [] = none) (line u s : Str) :
    (linesFrom line (u ++ '\n' :: s)).filterMap f = (linesFrom line u).filterMap f ++ (linesFrom [] s).filterMap f := by
  induction line, u using linesFrom.induct with
  | case1 line =>
    rw [List.nil_append, linesFrom_break (by decide) (by simp), linesFrom, ← List.singleton_append,
      List.filterMap_append]
  | case2 line u ih =>
    rw [List.cons_append, List.cons_append, linesFrom, linesFrom, ← List.singleton_append, List.filterMap_append, ih,
      ← List.append_assoc, ← List.filterMap_append, List.singleton_append]
  | case3 line c u hrn hc ih =>
    by_cases hcr : c = '\r' ∧ u = []
    · obtain ⟨rfl, rfl⟩ := hcr
      rw [List.singleton_append, linesFrom, linesFrom_break hc (by simp), linesFrom, ← List.singleton_append,
        List.filterMap_append, ← List.singleton_append (l := [[]]), List.filterMap_append,
        List.filterMap_cons_none hf, List.filterMap_nil, List.append_nil]
    · rw [List.cons_append, linesFrom_break hc, linesFrom_break hc, ← List.singleton_append, List.filterMap_append, ih,
        ← List.append_assoc, ← List.filterMap_append, List.singleton_append]
      · rintro ⟨rfl, t, rfl⟩
        exact hrn t rfl rfl
      · rintro ⟨rfl, t, ht⟩
        rcases u with _ | ⟨d, u⟩
        · exact hcr ⟨rfl, rfl⟩
        · obtain ⟨rfl, -⟩ := List.cons.inj ht
          exact hrn u rfl rfl
  | case4 line c u hrn hc ih =>
    rw [List.cons_append, linesFrom_other hc, linesFrom_other hc, ih]

theorem linesFrom_append_of_oneLine (hu : OneLine u) (line s : Str) :
    linesFrom line (u ++ s) = linesFrom (line ++ u) s := by
  induction u generalizing line with
  | nil => rw [List.nil_append, List.append_nil]
  | cons c u ih =>
    obtain ⟨hc, hu⟩ := List.forall_mem_cons.1 hu
    rw [List.cons_append, linesFrom_other hc, ih hu, List.append_assoc, List.singleton_append]

theorem linesFrom_of_oneLine (hu : OneLine u) (line : Str) : linesFrom line u = [line ++ u] := by
  have h := linesFrom_append_of_oneLine hu line []
  rwa [List.append_nil, linesFrom] at h

theorem linesFrom_eq_modifyHead (line s : Str) : linesFrom line s = (linesFrom [] s).modifyHead (line ++ ·) := by
  induction s generalizing line with
  | nil => simp [linesFrom]
  | cons c s ih =>
    by_cases hrn : c = '\r' ∧ ∃ t, s = '\n' :: t
    · obtain ⟨rfl, t, rfl⟩ := hrn
      simp [linesFrom]
    · by_cases hc : c ∈ lineBreaks
      · rw [linesFrom_break hc hrn, linesFrom_break hc hrn, List.modifyHead_cons, List.append_nil]
      · rw [linesFrom_other hc, linesFrom_other hc, ih, ih ([] ++ [c]), List.modifyHead_modifyHead]
        refine congrFun (congrArg _ (funext fun t => ?_)) _
        simp

theorem oneLine_of_mem_linesFrom (hl : OneLine line) (ht : t ∈ linesFrom line s) : OneLine t := by
  induction line, s using linesFrom.induct with
  | case1 line => exact List.mem_singleton.1 ht ▸ hl
  | case2 line s ih =>
    rw [linesFrom] at ht
    rcases List.mem_cons.1 ht with rfl | ht
    · exact hl
    · exact ih (by simp [OneLine]) ht
  | case3 line c s hrn hc ih =>
    rw [linesFrom_break hc fun ⟨hcr, t, ht⟩ => hrn t hcr ht] at ht
    rcases List.mem_cons.1 ht with rfl | ht
    · exact hl
    · exact ih (by simp [OneLine]) ht
  | case4 line c s hrn hc ih =>
    rw [linesFrom_other hc] at ht
    refine ih (fun d hd => ?_) ht
    rcases List.mem_append.1 hd with hd | hd
    · exact hl d hd
    · exact List.mem_singleton.1 hd ▸ hc

theorem linesFrom_append_oneLine (ht : OneLine t) (line s : Str) : ∃ before last,
    linesFrom line s = before ++ [last] ∧ linesFrom line (s ++ t) = before ++ [last ++ t] := by
  induction line, s using linesFrom.induct with
  | case1 line => exact ⟨[], line, rfl, linesFrom_of_oneLine ht line⟩
  | case2 line s ih =>
    obtain ⟨before, last, hs, hst⟩ := ih
    refine ⟨line :: before, last, ?_, ?_⟩
    · rw [linesFrom, hs, List.cons_append]
    · rw [List.cons_append, List.cons_append, linesFrom, hst, List.cons_append]
  | case3 line c s hrn hc ih =>
    obtain ⟨before, last, hs, hst⟩ := ih
    refine ⟨line :: before, last, ?_, ?_⟩
    · rw [linesFrom_break hc fun ⟨hcr, t, ht⟩ => hrn t hcr ht, hs, List.cons_append]
    · rw [List.cons_append, linesFrom_break hc ?_, hst, List.cons_append]
      rintro ⟨hcr, u, hu⟩
      rcases s with _ | ⟨d, s⟩
      · exact ht '\n' (by simp [show t = '\n' :: u from hu]) (by decide)
      · exact hrn s hcr (by rw [(List.cons.inj hu).1])
  | case4 line c s hrn hc ih =>
    rw [List.cons_append, linesFrom_other hc, linesFrom_other hc]
    exact ih

end Lines

/-! ### Escaped fields -/

/-- A colon and a backslash inside a field are escaped. -/
def escape (s : Str) : Str := s.flatMap fun c => if c = ':' ∨ c = '\\' then ['\\', c] else [c]

/-- The fields of a line. -/
def terse (fields : List Str) : Str := [':'].intercalate (fields.map escape)

/-- The lines of a listing. -/
def listing (rows : List (List Str)) : Str := rows.flatMap fun fields => terse fields ++ ['\n']

/-- A field that is printed as it is, on one line. -/
def Plain (s : Str) : Prop := ∀ c ∈ s, c ≠ ':' ∧ c ≠ '\\' ∧ c ∉ lineBreaks

instance (s : Str) : Decidable (OneLine s) := List.decidableBAll (· ∉ lineBreaks) s

instance (s : Str) : Decidable (Plain s) := List.decidableBAll (fun c => c ≠ ':' ∧ c ≠ '\\' ∧ c ∉ lineBreaks) s

section Fields

variable {s t u v : Str} {c : Char}

@[simp] theorem escape_nil : escape [] = [] := rfl

@[simp] theorem escape_append (s t : Str) : escape (s ++ t) = escape s ++ escape t := List.flatMap_append

theorem escape_cons (c : Char) (s : Str) :
    escape (c :: s) = (if c = ':' ∨ c = '\\' then ['\\', c] else [c]) ++ escape s := rfl

theorem escape_eq_self (h : ∀ c ∈ s, c ≠ ':' ∧ c ≠ '\\') : escape s = s := by
  induction s with
  | nil => rfl
  | cons c s ih =>
    obtain ⟨hc, hs⟩ := List.forall_mem_cons.1 h
    rw [escape_cons, if_neg (by simp [hc]), ih hs, List.singleton_append]

theorem Plain.escape (h : Plain s) : escape s = s := escape_eq_self fun c hc => ⟨(h c hc).1, (h c hc).2.1⟩

theorem Plain.oneLine (h : Plain s) : OneLine s := fun c hc => (h c hc).2.2

theorem Plain.notMem (h : Plain s) : ':' ∉ s := fun hc => (h _ hc).1 rfl

theorem count_escape (s : Str) : (escape s).count ':' = s.count ':' := by
  induction s with
  | nil => rfl
  | cons c s ih =>
    rw [escape_cons, List.count_append, ih, List.count_cons]
    by_cases hc : c = ':'
    · subst hc
      simp [Nat.add_comm]
    · by_cases hb : c = '\\'
      · subst hb
        simp
      · simp [hc, hb]

theorem mem_escape : c ∈ escape s ↔ c ∈ s ∨ c = '\\' ∧ ∃ d ∈ s, d = ':' ∨ d = '\\' := by
  unfold escape
  rw [List.mem_flatMap]
  constructor
  · rintro ⟨d, hd, hc⟩
    split at hc
    · rename_i hesc
      simp only [List.mem_cons, List.not_mem_nil, or_false] at hc
      rcases hc with rfl | rfl
      · exact Or.inr ⟨rfl, d, hd, hesc⟩
      · exact Or.inl hd
    · exact Or.inl (List.mem_singleton.1 hc ▸ hd)
  · rintro (hc | ⟨rfl, d, hd, hesc⟩)
    · refine ⟨c, hc, ?_⟩
      split <;> simp
    · exact ⟨d, hd, by simp [hesc]⟩

theorem colon_mem_escape : ':' ∈ escape s ↔ ':' ∈ s := by simp [mem_escape]

theorem oneLine_escape : OneLine (escape s) ↔ OneLine s := by
  constructor
  · exact fun h c hc => h c (mem_escape.2 (Or.inl hc))
  · intro h c hc
    rcases mem_escape.1 hc with hc | ⟨rfl, -⟩
    · exact h c hc
    · decide

theorem length_le_escape (s : Str) : s.length ≤ (escape s).length := by
  induction s with
  | nil => exact le_rfl
  | cons c s ih =>
    rw [escape_cons, List.length_append, List.length_cons]
    split <;> simp <;> omega

theorem length_lt_escape (hc : c ∈ s) (hesc : c = ':' ∨ c = '\\') : s.length < (escape s).length := by
  obtain ⟨u, v, rfl⟩ := List.append_of_mem hc
  have hu := length_le_escape u
  have hv := length_le_escape v
  rw [escape_append, escape_cons, if_pos hesc]
  simp
  omega

theorem escape_eq_self_iff : escape s = s ↔ ∀ c ∈ s, c ≠ ':' ∧ c ≠ '\\' := by
  refine ⟨fun h c hc => not_or.1 fun hesc => ?_, escape_eq_self⟩
  have hlt := length_lt_escape hc hesc
  rw [h] at hlt
  exact lt_irrefl _ hlt

/-- **The lines of an escaped text.** -/
theorem linesFrom_escape (line s : Str) : linesFrom (escape line) (escape s) = (linesFrom line s).map escape := by
  induction line, s using linesFrom.induct with
  | case1 line => rfl
  | case2 line s ih => exact congrArg (escape line :: ·) ih
  | case3 line c s hrn hc ih =>
    have hplain : c ≠ ':' ∧ c ≠ '\\' := by
      constructor
      · rintro rfl
        exact absurd hc (by decide)
      · rintro rfl
        exact absurd hc (by decide)
    rw [linesFrom_break hc fun ⟨hcr, t, ht⟩ => hrn t hcr ht, escape_cons, if_neg (by simp [hplain]),
      List.singleton_append, linesFrom_break hc ?_, List.map_cons]
    · exact congrArg (escape line :: ·) ih
    · rintro ⟨rfl, t, ht⟩
      rcases s with _ | ⟨d, s⟩
      · cases ht
      · rw [escape_cons] at ht
        split at ht
        · cases ht
        · rw [List.singleton_append] at ht
          exact hrn s rfl (by rw [(List.cons.inj ht).1])
  | case4 line c s hrn hc ih =>
    rw [linesFrom_other hc, ← ih, escape_cons, escape_append]
    have hone : OneLine (if c = ':' ∨ c = '\\' then ['\\', c] else [c]) := by
      intro d hd
      split at hd
      · simp only [List.mem_cons, List.not_mem_nil, or_false] at hd
        rcases hd with rfl | rfl
        · decide
        · exact hc
      · exact List.mem_singleton.1 hd ▸ hc
    rw [linesFrom_append_of_oneLine hone, escape_cons, escape_nil, List.append_nil]

/-- **The parts of an escaped text**: the first ends with a backslash when there is a colon. -/
theorem splitOn_escape (hu : ':' ∉ u) (v : Str) :
    (escape (u ++ ':' :: v)).splitOn ':' = (escape u ++ ['\\']) :: (escape v).splitOn ':' := by
  have hesc : escape (u ++ ':' :: v) = (escape u ++ ['\\']) ++ ':' :: escape v := by
    rw [escape_append, escape_cons, if_pos (Or.inl rfl)]
    simp
  rw [hesc, List.splitOn_append_cons_self_of_not_mem]
  simpa [colon_mem_escape] using hu

theorem length_splitOn (c : Char) (s : Str) : (s.splitOn c).length = s.count c + 1 := by
  induction s with
  | nil => rfl
  | cons a s ih =>
    rw [List.splitOn_cons_eq_if_modifyHead, List.count_cons]
    split
    · rw [List.length_cons, ih]
    · rw [List.length_modifyHead, ih]

theorem splitOn_eq_cons (c : Char) (s : Str) : ∃ rest, s.splitOn c = upTo c s :: rest := by
  induction s with
  | nil => exact ⟨[], rfl⟩
  | cons a s ih =>
    obtain ⟨rest, hrest⟩ := ih
    rw [List.splitOn_cons_eq_if_modifyHead, upTo, List.takeWhile_cons]
    by_cases ha : a = c
    · exact ⟨s.splitOn c, by simp [ha]⟩
    · refine ⟨rest, ?_⟩
      rw [if_neg (by simpa using ha), if_pos (by simpa using ha), hrest, List.modifyHead_cons]
      rfl

theorem notMem_of_mem_splitOn (ht : t ∈ s.splitOn c) : c ∉ t := by
  induction s generalizing t with
  | nil =>
    rw [List.splitOn_nil, List.mem_singleton] at ht
    simp [ht]
  | cons a s ih =>
    obtain ⟨rest, hrest⟩ := splitOn_eq_cons c s
    rw [List.splitOn_cons_eq_if_modifyHead] at ht
    split at ht
    · rcases List.mem_cons.1 ht with rfl | ht
      · simp
      · exact ih ht
    · rename_i ha
      rw [hrest, List.modifyHead_cons] at ht
      rcases List.mem_cons.1 ht with rfl | ht
      · rw [List.mem_cons, not_or]
        exact ⟨fun h => ha (by simp [h]), ih (hrest ▸ List.mem_cons_self ..)⟩
      · exact ih (hrest ▸ List.mem_cons_of_mem _ ht)

end Fields

end AisServer.Lib
