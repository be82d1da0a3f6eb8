import Mathlib.Data.List.Basic

/-!
# Dictionaries in the order of their keys

A Python `dict` is the list of its items.  A key that is set again keeps its place.

* `getItem_setItem`, `getItem_adjust`, `getItem_ofItems` — what a dictionary holds under a key;
* `keys_setItem`, `keys_adjust` — the keys, where no new one is set.
-/

namespace AisServer.Lib

abbrev Dict (κ α : Type) := List (κ × α)

namespace Dict

variable {κ α : Type} [DecidableEq κ]

/-- `d.get(k)` -/
def getItem : Dict κ α → κ → Option α
  | [], _ => none
  | (k', a) :: d, k => if k' = k then some a else getItem d k

/-- `d[k] = a` -/
def setItem : Dict κ α → κ → α → Dict κ α
  | [], k, a => [(k, a)]
  | (k', b) :: d, k, a => if k' = k then (k, a) :: d else (k', b) :: setItem d k a

/-- `if k in d: d[k] = f(d[k])` -/
def adjust (d : Dict κ α) (k : κ) (f : α → α) : Dict κ α :=
  match getItem d k with
  | none => d
  | some a => setItem d k (f a)

/-- `dict(items)`, or a dictionary that is written out or comprehended. -/
def ofItems (items : List (κ × α)) : Dict κ α := items.foldl (fun d i => setItem d i.1 i.2) []

variable {d : Dict κ α} {items : List (κ × α)} {k k' : κ} {a : α}

theorem getItem_singleton {b : α} : getItem [(k, a)] k' = some b ↔ k = k' ∧ a = b := by
  rw [getItem, getItem, Option.ite_none_right_eq_some, Option.some.injEq]

theorem getItem_setItem : getItem (setItem d k a) k' = if k = k' then some a else getItem d k' := by
  induction d with
  | nil => rfl
  | cons i d ih =>
    obtain ⟨k₀, b⟩ := i
    rw [setItem, getItem]
    by_cases hk : k₀ = k
    · subst hk
      rw [if_pos rfl, getItem]
      by_cases hk' : k₀ = k' <;> simp [hk']
    · rw [if_neg hk, getItem, ih]
      by_cases hk' : k₀ = k'
      · subst hk'
        simp [Ne.symm hk]
      · simp [hk']

theorem mem_setItem {i : κ × α} (h : i ∈ setItem d k a) : i = (k, a) ∨ i ∈ d := by
  induction d with
  | nil => exact Or.inl (List.mem_singleton.1 h)
  | cons j d ih =>
    obtain ⟨k₀, b⟩ := j
    rw [setItem] at h
    split at h
    · rcases List.mem_cons.1 h with h | h
      · exact Or.inl h
      · exact Or.inr (List.mem_cons_of_mem _ h)
    · rcases List.mem_cons.1 h with h | h
      · exact Or.inr (h ▸ List.mem_cons_self)
      · exact (ih h).imp_right (List.mem_cons_of_mem _)

theorem mem_ofItems {i : κ × α} (h : i ∈ ofItems items) : i ∈ items := by
  have hfold : ∀ (items d : List (κ × α)), i ∈ items.foldl (fun d i => setItem d i.1 i.2) d →
      i ∈ d ∨ i ∈ items := by
    intro items
    induction items with
    | nil => exact fun d h => Or.inl h
    | cons j items ih =>
      intro d h
      rcases ih _ h with h | h
      · rcases mem_setItem h with rfl | h
        · exact Or.inr List.mem_cons_self
        · exact Or.inl h
      · exact Or.inr (List.mem_cons_of_mem _ h)
  exact (hfold items [] h).resolve_left List.not_mem_nil

theorem keys_setItem (h : getItem d k ≠ none) : (setItem d k a).map (·.1) = d.map (·.1) := by
  induction d with
  | nil => exact absurd rfl h
  | cons i d ih =>
    obtain ⟨k₀, b⟩ := i
    rw [getItem] at h
    rw [setItem]
    by_cases hk : k₀ = k
    · subst hk
      simp
    · rw [if_neg hk] at h
      simp [if_neg hk, ih h]

theorem keys_adjust {f : α → α} : (adjust d k f).map (·.1) = d.map (·.1) := by
  unfold adjust
  split
  · rfl
  · rename_i a ha
    exact keys_setItem (by simp [ha])

theorem getItem_adjust {f : α → α} :
    getItem (adjust d k f) k' = if k = k' then (getItem d k').map f else getItem d k' := by
  unfold adjust
  split
  · rename_i hnone
    by_cases hk : k = k'
    · subst hk
      simp [hnone]
    · simp [hk]
  · rename_i a ha
    rw [getItem_setItem]
    by_cases hk : k = k'
    · subst hk
      simp [ha]
    · simp [hk]

theorem getItem_append {d' : Dict κ α} :
    getItem (d ++ d') k = (getItem d k).or (getItem d' k) := by
  induction d with
  | nil => rfl
  | cons i d ih =>
    obtain ⟨k₀, b⟩ := i
    rw [List.cons_append, getItem, getItem, ih]
    by_cases hk : k₀ = k <;> simp [hk]

theorem getItem_foldl : getItem (items.foldl (fun d i => setItem d i.1 i.2) d) k =
    (getItem items.reverse k).or (getItem d k) := by
  induction items generalizing d with
  | nil => rfl
  | cons i items ih =>
    obtain ⟨k₀, b⟩ := i
    rw [List.foldl_cons, ih, getItem_setItem, List.reverse_cons, getItem_append, Option.or_assoc]
    by_cases hk : k₀ = k <;> simp [getItem, hk]

theorem getItem_ofItems : getItem (ofItems items) k = getItem items.reverse k := by
  unfold ofItems
  rw [getItem_foldl]
  exact Option.or_none

theorem getItem_eq_none : getItem d k = none ↔ k ∉ d.map (·.1) := by
  induction d with
  | nil => simp [getItem]
  | cons i d ih =>
    obtain ⟨k₀, b⟩ := i
    rw [getItem, List.map_cons, List.mem_cons, not_or, ← ih]
    by_cases hk : k₀ = k
    · simp [hk]
    · simp [hk, Ne.symm hk]

theorem getItem_ne_none (h : (k, a) ∈ d) : getItem d k ≠ none := fun hnone =>
  getItem_eq_none.1 hnone (List.mem_map_of_mem h)

theorem getItem_eq_some (hnd : (d.map (·.1)).Nodup) : getItem d k = some a ↔ (k, a) ∈ d := by
  induction d with
  | nil => simp [getItem]
  | cons i d ih =>
    obtain ⟨k₀, b⟩ := i
    obtain ⟨hk₀, hnd⟩ := List.nodup_cons.1 hnd
    rw [getItem, List.mem_cons]
    by_cases hk : k₀ = k
    · subst hk
      have hnot : (k₀, a) ∉ d := fun h => hk₀ (List.mem_map.2 ⟨_, h, rfl⟩)
      simp [hnot, eq_comm]
    · rw [if_neg hk, ih hnd]
      simp [Ne.symm hk]

end Dict

end AisServer.Lib
