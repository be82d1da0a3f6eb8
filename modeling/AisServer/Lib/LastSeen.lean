import Mathlib.Data.Finset.Card
import Mathlib.Data.Finset.Image
import Mathlib.Data.List.AList
import Mathlib.Order.Lattice

/-!
# A table of last sightings

Every sighting of a key overwrites its time in the table, and a sweep at a bound deletes the entries with an earlier
time.

* `lookup_sweep` — what a sweep leaves;
* `Sightings.card_sweep` — after a sweep at a bound no earlier than those before it, the keys of the table are those
  seen since the bound.
-/

namespace AisServer.Lib

variable {κ τ : Type} [DecidableEq κ] [LinearOrder τ]

/-- `if table[k] < bound: del table[k]` -/
def sweepKey (bound : τ) (table : AList fun _ : κ => τ) (k : κ) : AList fun _ : κ => τ :=
  if ∃ t ∈ table.lookup k, t < bound then table.erase k else table

/-- `for k in list(table): if table[k] < bound: del table[k]` -/
def sweep (bound : τ) (table : AList fun _ : κ => τ) : AList fun _ : κ => τ :=
  table.keys.foldl (sweepKey bound) table

section Sweep

variable {bound : τ} {table : AList fun _ : κ => τ} {k k' : κ}

theorem lookup_sweepKey : (sweepKey bound table k).lookup k' =
    if k = k' then (table.lookup k').filter (bound ≤ ·) else table.lookup k' := by
  unfold sweepKey
  by_cases hk : k = k'
  · subst hk
    rw [if_pos rfl]
    rcases h : table.lookup k with _ | t
    · simp [h]
    · by_cases hlt : t < bound
      · simp [hlt, Option.filter, not_le.2 hlt]
      · simp [h, hlt, Option.filter, not_lt.1 hlt]
  · rw [if_neg hk]
    split_ifs
    · exact AList.lookup_erase_ne (Ne.symm hk)
    · rfl

theorem lookup_foldl_sweepKey (ks : List κ) : (ks.foldl (sweepKey bound) table).lookup k =
    if k ∈ ks then (table.lookup k).filter (bound ≤ ·) else table.lookup k := by
  induction ks generalizing table with
  | nil => simp
  | cons k' ks ih =>
    rw [List.foldl_cons, ih, lookup_sweepKey]
    by_cases hk : k' = k
    · subst hk
      rw [if_pos rfl, if_pos List.mem_cons_self]
      split_ifs
      · rw [Option.filter_filter]
        simp
      · rfl
    · simp [hk, Ne.symm hk]

/-- **A sweep** leaves the entries that are not too old. -/
theorem lookup_sweep : (sweep bound table).lookup k = (table.lookup k).filter (bound ≤ ·) := by
  rw [sweep, lookup_foldl_sweepKey]
  split_ifs with h
  · rfl
  · rw [AList.lookup_eq_none.2 fun hk => h (AList.mem_keys.1 hk)]
    rfl

end Sweep

/-- The table holds the last sighting of a key, unless all of them were too old for a sweep. -/
structure Sightings (table : AList fun _ : κ => τ) (seen : List (κ × τ)) (bounds : List τ) : Prop where
  last : ∀ k t, table.lookup k = some t → (k, t) ∈ seen ∧ ∀ t', (k, t') ∈ seen → t' ≤ t
  gone : ∀ k, table.lookup k = none → ∀ t, (k, t) ∈ seen → ∃ bound ∈ bounds, t < bound

namespace Sightings

variable {table : AList fun _ : κ => τ} {seen : List (κ × τ)} {bounds : List τ} {bound t : τ} {k : κ}

theorem nil : Sightings (∅ : AList fun _ : κ => τ) [] [] where
  last k t h := by simp at h
  gone := by simp

theorem insert (h : Sightings table seen bounds) (k : κ) (hle : ∀ s ∈ seen, s.2 ≤ t) :
    Sightings (table.insert k t) (seen ++ [(k, t)]) bounds where
  last k' t' hl := by
    by_cases hk : k' = k
    · subst hk
      rw [AList.lookup_insert, Option.some.injEq] at hl
      subst hl
      refine ⟨List.mem_append_right _ (List.mem_singleton_self _), fun t' ht' => ?_⟩
      rcases List.mem_append.1 ht' with ht' | ht'
      · exact hle _ ht'
      · exact (congrArg Prod.snd (List.mem_singleton.1 ht')).le
    · rw [AList.lookup_insert_ne hk] at hl
      obtain ⟨hmem, hlast⟩ := h.last k' t' hl
      refine ⟨List.mem_append_left _ hmem, fun t'' ht'' => ?_⟩
      rcases List.mem_append.1 ht'' with ht'' | ht''
      · exact hlast _ ht''
      · exact absurd (congrArg Prod.fst (List.mem_singleton.1 ht'')) hk
  gone k' hl t' ht' := by
    by_cases hk : k' = k
    · subst hk
      rw [AList.lookup_insert] at hl
      cases hl
    · rw [AList.lookup_insert_ne hk] at hl
      rcases List.mem_append.1 ht' with ht' | ht'
      · exact h.gone k' hl t' ht'
      · exact absurd (congrArg Prod.fst (List.mem_singleton.1 ht')) hk

theorem sweep (h : Sightings table seen bounds) (bound : τ) :
    Sightings (Lib.sweep bound table) seen (bounds ++ [bound]) where
  last k t hl := by
    rw [lookup_sweep] at hl
    exact h.last k t (Option.mem_filter_iff.1 hl).1
  gone k hl t ht := by
    rw [lookup_sweep] at hl
    rcases htable : table.lookup k with _ | t'
    · obtain ⟨b, hb, hlt⟩ := h.gone k htable t ht
      exact ⟨b, List.mem_append_left _ hb, hlt⟩
    · refine ⟨bound, List.mem_append_right _ (List.mem_singleton_self _), ?_⟩
      rw [htable] at hl
      have hlt : t' < bound := by simpa [Option.filter] using hl
      exact ((h.last k t' htable).2 t ht).trans_lt hlt

/-- **The keys after a sweep** are those seen since the bound. -/
theorem mem_sweep (h : Sightings table seen bounds) (hle : ∀ b ∈ bounds, b ≤ bound) :
    k ∈ Lib.sweep bound table ↔ ∃ t, (k, t) ∈ seen ∧ bound ≤ t := by
  rw [← AList.lookup_isSome, lookup_sweep]
  constructor
  · intro hk
    obtain ⟨t, ht⟩ := Option.isSome_iff_exists.1 hk
    obtain ⟨hmem, hge⟩ := Option.mem_filter_iff.1 ht
    exact ⟨t, (h.last k t hmem).1, by simpa using hge⟩
  · rintro ⟨t, ht, hge⟩
    rcases htable : table.lookup k with _ | t'
    · obtain ⟨b, hb, hlt⟩ := h.gone k htable t ht
      exact absurd (hlt.trans_le (hle b hb)) (not_lt.2 hge)
    · have hge' : bound ≤ t' := hge.trans ((h.last k t' htable).2 t ht)
      simp [Option.filter, hge']

theorem card_sweep (h : Sightings table seen bounds) (hle : ∀ b ∈ bounds, b ≤ bound) :
    (Lib.sweep bound table).keys.length = ((seen.filter (bound ≤ ·.2)).map Prod.fst).toFinset.card := by
  rw [← List.toFinset_card_of_nodup (Lib.sweep bound table).keys_nodup]
  congr 1
  ext k
  rw [List.mem_toFinset, ← AList.mem_keys, h.mem_sweep hle]
  simp

end Sightings

end AisServer.Lib
