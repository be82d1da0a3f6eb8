import Mathlib.Data.List.DropRight
import Mathlib.Data.List.Nodup
import Mathlib.Order.Lattice

/-!
# The recent part of a growing list

Values come in increasing order, and only some of the last are kept: with every value at most `cap`, and a cut at a
bound drops those below it from the front.  The record keeps everything that came and every cut that was made.

* `rtake_rtake_concat` — a list of which only the last values are kept after every append;
* `Tail.append` — a list that is cut to its last values when it has grown too long;
* `Recent.Sound` — the invariant: what is lost was crowded out, or was below the bound of a cut;
* `Recent.Sound.count_iff` — when what is kept above a bound is everything above it.
-/

namespace AisServer.Lib

variable {α : Type}

/-! ### Ends of lists -/

theorem rtake_rtake (l : List α) (m n : ℕ) : (l.rtake m).rtake n = l.rtake (min n m) := by
  simp only [List.rtake_eq_reverse_take_reverse, List.reverse_reverse, List.take_take]

/-- What is dropped before an append is dropped after it. -/
theorem rtake_rtake_concat (l : List α) (a : α) (n : ℕ) : (l.rtake n ++ [a]).rtake n = (l ++ [a]).rtake n := by
  cases n with
  | zero => rw [List.rtake_zero, List.rtake_zero]
  | succ n =>
    rw [List.rtake_concat_succ, List.rtake_concat_succ, rtake_rtake, Nat.min_eq_left (Nat.le_succ n)]

theorem rtake_min_length (l : List α) (n : ℕ) : l.rtake (min n l.length) = l.rtake n := by
  unfold List.rtake
  rcases Nat.le_total n l.length with h | h
  · rw [Nat.min_eq_left h]
  · rw [Nat.min_eq_right h, Nat.sub_self, Nat.sub_eq_zero_of_le h]

theorem length_rtake (l : List α) (n : ℕ) : (l.rtake n).length = min n l.length := by
  unfold List.rtake
  rw [List.length_drop]
  omega

theorem rtake_suffix (l : List α) (n : ℕ) : l.rtake n <:+ l := List.drop_suffix _ _

/-! ### Numbered lists -/

theorem zipIdx_concat (l : List α) (a : α) : (l ++ [a]).zipIdx = l.zipIdx ++ [(a, l.length)] := by
  rw [List.zipIdx_append, Nat.zero_add]
  rfl

theorem nodup_zipIdx (l : List α) : l.zipIdx.Nodup := by
  refine List.Nodup.of_map Prod.snd ?_
  rw [List.zipIdx_map_snd]
  exact List.nodup_range'

/-- The last values of a numbered list keep their numbers. -/
theorem zipIdx_rtake (l : List α) (n : ℕ) : (l.rtake n).zipIdx (l.length - (l.rtake n).length) = l.zipIdx.rtake n := by
  have hlength : l.length - (l.rtake n).length = l.length - n := by
    rw [length_rtake]
    omega
  rw [hlength]
  unfold List.rtake
  rw [List.length_zipIdx]
  conv_rhs => rw [← List.take_append_drop (l.length - n) l, List.zipIdx_append]
  rw [List.drop_left' (by simp), List.length_take, Nat.zero_add, Nat.min_eq_left (Nat.sub_le _ _)]

theorem mem_rtake_zipIdx {l : List α} {p : α × ℕ} {n : ℕ} (hp : p ∈ l.zipIdx) (hle : l.length ≤ p.2 + n) :
    p ∈ l.zipIdx.rtake n := by
  have hget : l.zipIdx[p.2]? = some p := by
    rw [List.getElem?_zipIdx, List.mem_zipIdx_iff_getElem?.1 hp]
    simp
  unfold List.rtake
  rw [List.length_zipIdx]
  refine List.mem_of_getElem? (i := p.2 - (l.length - n)) ?_
  rw [List.getElem?_drop, ← hget]
  congr 1
  omega

/-! ### A list that is cut when it has grown too long -/

/-- Of more than `high` values the last `low` are kept. -/
def trim (low high : ℕ) (l : List α) : List α := if high < l.length then l.rtake low else l

/-- What is kept of all that came. -/
structure Tail (low high : ℕ) (all kept : List α) : Prop where
  suffix : kept <:+ all
  length_le : kept.length ≤ high
  whole : kept = all ∨ low ≤ kept.length

variable {low high : ℕ} {all kept : List α}

theorem tail_nil (low high : ℕ) : Tail low high ([] : List α) [] := ⟨List.suffix_rfl, Nat.zero_le _, Or.inl rfl⟩

theorem Tail.append (h : Tail low high all kept) (hle : low ≤ high) (l : List α) :
    Tail low high (all ++ l) (trim low high (kept ++ l)) := by
  have hsuffix : kept ++ l <:+ all ++ l := by
    obtain ⟨gone, rfl⟩ := h.suffix
    exact ⟨gone, (List.append_assoc _ _ _).symm⟩
  unfold trim
  split
  · rename_i hlong
    have hlength := length_rtake (kept ++ l) low
    refine ⟨(rtake_suffix _ _).trans hsuffix, by omega, Or.inr (by omega)⟩
  · rename_i hshort
    refine ⟨hsuffix, Nat.le_of_not_lt hshort, ?_⟩
    rcases h.whole with rfl | hlow
    · exact Or.inl rfl
    · exact Or.inr (hlow.trans (by simp))

/-! ### The record -/

/-- A bounded record of values, with its history. -/
structure Recent (α : Type) where
  kept : List α := []
  all : List α := []
  /-- The bound of every cut, and what had come before it. -/
  cuts : List (α × List α) := []

namespace Recent

variable [LinearOrder α]

def push (cap : ℕ) (r : Recent α) (a : α) : Recent α :=
  { r with kept := (r.kept ++ [a]).rtake cap, all := r.all ++ [a] }

def cut (r : Recent α) (bound : α) : Recent α :=
  { r with kept := r.kept.dropWhile (· < bound), cuts := r.cuts ++ [(bound, r.all)] }

/-- What came and is not below the bound. -/
def window (r : Recent α) (bound : α) : List α := r.all.filter (bound ≤ ·)

/-! ### Sorted lists -/

section Sorted

variable {l : List α} {bound : α}

theorem mem_takeWhile_of_lt (h : l.Pairwise (· ≤ ·)) {a : α} (ha : a ∈ l) (hlt : a < bound) :
    a ∈ l.takeWhile (· < bound) := by
  induction l with
  | nil => exact ha
  | cons x l ih =>
    obtain ⟨hx, hl⟩ := List.pairwise_cons.1 h
    rcases List.mem_cons.1 ha with rfl | ha
    · rw [List.takeWhile_cons_of_pos (by simpa using hlt)]
      exact List.mem_cons_self
    · have hxlt : x < bound := (hx a ha).trans_lt hlt
      rw [List.takeWhile_cons_of_pos (by simpa using hxlt)]
      exact List.mem_cons_of_mem _ (ih hl ha)

theorem dropWhile_eq_filter (h : l.Pairwise (· ≤ ·)) : l.dropWhile (· < bound) = l.filter (bound ≤ ·) := by
  induction l with
  | nil => rfl
  | cons x l ih =>
    obtain ⟨hx, hl⟩ := List.pairwise_cons.1 h
    by_cases hlt : x < bound
    · rw [List.dropWhile_cons_of_pos (by simpa using hlt), List.filter_cons_of_neg (by simpa using hlt), ih hl]
    · rw [List.dropWhile_cons_of_neg (by simpa using hlt), eq_comm, List.filter_eq_self]
      intro a ha
      rcases List.mem_cons.1 ha with rfl | ha
      · simpa using hlt
      · simpa using (not_lt.1 hlt).trans (hx a ha)

end Sorted

/-! ### The invariant -/

/-- The values `lost` are those that came and are not kept. -/
structure SoundWith (cap : ℕ) (r : Recent α) (lost : List α) : Prop where
  sorted : r.all.Pairwise (· ≤ ·)
  all : r.all = lost ++ r.kept
  length : r.kept.length ≤ cap
  /-- What is lost was crowded out, or was below the bound of a cut. -/
  why : ∀ a ∈ lost, cap < (r.window a).length ∨ ∃ c ∈ r.cuts, a ∈ c.2 ∧ a < c.1
  /-- Everything below the bound of a cut is lost. -/
  cut : ∀ c ∈ r.cuts, c.2 <+: r.all ∧ c.2.takeWhile (· < c.1) <+: lost

def Sound (cap : ℕ) (r : Recent α) : Prop := ∃ lost, SoundWith cap r lost

variable {cap : ℕ} {r : Recent α} {lost : List α} {a bound : α}

theorem sound_new (cap : ℕ) : Sound cap (⟨[], [], []⟩ : Recent α) :=
  ⟨[], List.Pairwise.nil, rfl, Nat.zero_le _, by simp, by simp⟩

theorem SoundWith.push (h : SoundWith cap r lost) (ha : ∀ b ∈ r.all, b ≤ a) : Sound cap (r.push cap a) := by
  set excess := (r.kept ++ [a]).length - cap with hexcess
  set gone := (r.kept ++ [a]).take excess with hgone
  have hkept : (r.push cap a).kept = (r.kept ++ [a]).drop excess := rfl
  have hsplit : gone ++ (r.push cap a).kept = r.kept ++ [a] := List.take_append_drop _ _
  have hall : (r.push cap a).all = lost ++ gone ++ (r.push cap a).kept := by
    rw [List.append_assoc, hsplit, ← List.append_assoc, ← h.all]
    rfl
  have hsorted : (r.push cap a).all.Pairwise (· ≤ ·) :=
    List.pairwise_append.2 ⟨h.sorted, List.pairwise_singleton _ _, fun b hb c hc => by
      obtain rfl := List.mem_singleton.1 hc
      exact ha b hb⟩
  refine ⟨lost ++ gone, hsorted, hall, ?_, fun b hb => ?_, fun c hc => ?_⟩
  · rw [hkept, List.length_drop]
    omega
  · rcases List.mem_append.1 hb with hb | hb
    · refine (h.why b hb).imp_left fun hcap => hcap.trans_le ?_
      exact ((List.sublist_append_left r.all [a]).filter _).length_le
    · -- what goes now leaves the record full, and everything in it is later
      left
      have hpos : 0 < excess := by
        rcases Nat.eq_zero_or_pos excess with h0 | h0
        · rw [hgone, h0] at hb
          cases hb
        · exact h0
      have hfull : (r.push cap a).kept.length = cap := by
        rw [hkept, List.length_drop]
        omega
      have hsub : ([b] ++ (r.push cap a).kept).Sublist (r.push cap a).all := by
        rw [hall]
        exact (List.singleton_sublist.2 (List.mem_append_right _ hb)).append (List.Sublist.refl _)
      have hlater : ([b] ++ (r.push cap a).kept).filter (b ≤ ·) = [b] ++ (r.push cap a).kept := by
        rw [List.filter_eq_self]
        have hle := List.pairwise_cons.1 (hsorted.sublist hsub)
        intro c hc
        rcases List.mem_cons.1 hc with rfl | hc
        · simp
        · simpa using hle.1 c hc
      have hlen : _ ≤ ((r.push cap a).window b).length := (hsub.filter (b ≤ ·)).length_le
      rw [hlater, List.length_append, List.length_singleton, hfull] at hlen
      omega
  · obtain ⟨hinit, hlost⟩ := h.cut c hc
    exact ⟨hinit.trans (List.prefix_append _ _), hlost.trans (List.prefix_append _ _)⟩

theorem SoundWith.cutAt (h : SoundWith cap r lost) (bound : α) : Sound cap (r.cut bound) := by
  have hsplit : r.kept.takeWhile (· < bound) ++ (r.cut bound).kept = r.kept := List.takeWhile_append_dropWhile
  have hall : r.all = lost ++ r.kept.takeWhile (· < bound) ++ (r.cut bound).kept := by
    rw [List.append_assoc, hsplit]
    exact h.all
  refine ⟨lost ++ r.kept.takeWhile (· < bound), h.sorted, hall, ?_, fun b hb => ?_, fun c hc => ?_⟩
  · exact ((List.dropWhile_sublist _).length_le).trans h.length
  · rcases List.mem_append.1 hb with hb | hb
    · refine (h.why b hb).imp_right ?_
      rintro ⟨c, hc, hbc⟩
      exact ⟨c, List.mem_append_left _ hc, hbc⟩
    · right
      refine ⟨(bound, r.all), List.mem_append_right _ (List.mem_singleton_self _), ?_, ?_⟩
      · rw [hall]
        exact List.mem_append_left _ (List.mem_append_right _ hb)
      · simpa using List.mem_takeWhile_imp hb
  · rcases List.mem_append.1 hc with hc | hc
    · obtain ⟨hinit, hlost⟩ := h.cut c hc
      exact ⟨hinit, hlost.trans (List.prefix_append _ _)⟩
    · obtain rfl := List.mem_singleton.1 hc
      refine ⟨List.prefix_refl _, ?_⟩
      show r.all.takeWhile (· < bound) <+: lost ++ r.kept.takeWhile (· < bound)
      rw [h.all, List.takeWhile_append]
      split_ifs
      · exact List.prefix_refl _
      · exact (List.takeWhile_prefix _).trans (List.prefix_append _ _)

theorem Sound.length_cut (h : Sound cap r) (bound : α) : (r.cut bound).kept.length ≤ cap := by
  obtain ⟨lost, h⟩ := h
  exact ((List.dropWhile_sublist _).length_le).trans h.length

/-- **What is kept above a bound** is everything above it exactly when it is no more than `cap` values, and no cut
before was at a bound above one of them. -/
theorem Sound.count_iff (h : Sound cap r) (bound : α) :
    (r.cut bound).kept.length = (r.window bound).length ↔
      (r.window bound).length ≤ cap ∧ ∀ c ∈ r.cuts, ∀ a ∈ c.2, bound ≤ a → c.1 ≤ a := by
  have hlength := h.length_cut bound
  obtain ⟨lost, h⟩ := h
  have hkept : (r.cut bound).kept = r.kept.filter (bound ≤ ·) := by
    have hsorted := h.sorted
    rw [h.all] at hsorted
    exact dropWhile_eq_filter (List.pairwise_append.1 hsorted).2.1
  have hwindow : r.window bound = lost.filter (bound ≤ ·) ++ (r.cut bound).kept := by
    rw [hkept, window, h.all, List.filter_append]
  have hiff : (r.cut bound).kept.length = (r.window bound).length ↔ ∀ a ∈ lost, a < bound := by
    rw [hwindow, List.length_append]
    constructor
    · intro heq a ha
      have hnil : lost.filter (bound ≤ ·) = [] := List.length_eq_zero_iff.1 (by omega)
      simpa using List.filter_eq_nil_iff.1 hnil a ha
    · intro hlt
      have hnil : lost.filter (bound ≤ ·) = [] := List.filter_eq_nil_iff.2 fun a ha => by simpa using hlt a ha
      rw [hnil, List.length_nil, Nat.zero_add]
  constructor
  · intro heq
    have hlt := hiff.1 heq
    refine ⟨?_, fun c hc a ha hle => ?_⟩
    · rw [← heq]
      exact hlength
    · by_contra hcut
      obtain ⟨hinit, hlost⟩ := h.cut c hc
      have hmem := mem_takeWhile_of_lt (h.sorted.sublist hinit.sublist) ha (not_le.1 hcut)
      exact absurd (hlt a (hlost.subset hmem)) (not_lt.2 hle)
  · rintro ⟨hcap, hcuts⟩
    rw [hiff]
    intro a ha
    by_contra hle
    have hle : bound ≤ a := not_lt.1 hle
    rcases h.why a ha with hcrowd | ⟨c, hc, hac, hlt⟩
    · have hsub : (r.window a).length ≤ (r.window bound).length := by
        refine (List.monotone_filter_right r.all fun x hx => ?_).length_le
        simp only [decide_eq_true_eq] at hx ⊢
        exact hle.trans hx
      omega
    · exact absurd (hcuts c hc a hac hle) (not_le.2 hlt)

end Recent

end AisServer.Lib
