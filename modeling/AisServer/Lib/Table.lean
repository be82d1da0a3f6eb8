import Mathlib.Algebra.GroupWithZero.Nat
import Mathlib.Data.List.AList
import Mathlib.Data.List.Basic

/-!
# Objects behind a dictionary

A `Table` is a dictionary whose values are objects that others hold too: `objs` are the objects that
were ever made, a reference is a position in it, and `refs` is the dictionary.  An object that is
taken out of the dictionary stays where it is, for those who still hold a reference to it.

* `get_add`, `get_modify`, `get_update`, `get_erase`, `get_rename` — the object under a key after each operation;
* `total_add`, `total_update` — a sum over all objects, those that were taken out of the dictionary too;
* `listed_add`, `listed_update`, `listed_rename` — no other operation takes an object out;
* `Dropped.add`, `Dropped.update`, `Dropped.erase`, `Dropped.clear` — what holds of the objects that were taken out.
-/

namespace AisServer.Lib

/-- A position in the list of objects. -/
abbrev Ref := ℕ

/-- A dictionary of objects: every reference in it is to an object, and no two keys share one. -/
structure Table (κ α : Type) [DecidableEq κ] where
  objs : List α
  refs : AList fun _ : κ => Ref
  valid : ∀ {k r}, refs.lookup k = some r → r < objs.length
  inj : ∀ {k k' r}, refs.lookup k = some r → refs.lookup k' = some r → k = k'

namespace Table

variable {κ α : Type} [DecidableEq κ]

def empty : Table κ α where
  objs := []
  refs := ∅
  valid h := by simp at h
  inj h := by simp at h

/-- `d.get(k)` -/
def get (d : Table κ α) (k : κ) : Option α := (d.refs.lookup k).bind (d.objs[·]?)

theorem lookup_insert_cases {refs : AList fun _ : κ => Ref} {k k' : κ} {r r' : Ref}
    (h : (refs.insert k r).lookup k' = some r') :
    k' = k ∧ r' = r ∨ k' ≠ k ∧ refs.lookup k' = some r' := by
  by_cases hk : k' = k
  · subst hk
    rw [AList.lookup_insert] at h
    exact Or.inl ⟨rfl, (Option.some.inj h).symm⟩
  · rw [AList.lookup_insert_ne hk] at h
    exact Or.inr ⟨hk, h⟩

theorem lookup_erase_cases {refs : AList fun _ : κ => Ref} {k k' : κ} {r : Ref}
    (h : (refs.erase k).lookup k' = some r) : k' ≠ k ∧ refs.lookup k' = some r := by
  have hk : k' ≠ k := by
    rintro rfl
    rw [AList.lookup_erase] at h
    cases h
  rw [AList.lookup_erase_ne hk] at h
  exact ⟨hk, h⟩

/-- `d[k] = a` for a new object `a`. -/
def add (d : Table κ α) (k : κ) (a : α) : Table κ α where
  objs := d.objs ++ [a]
  refs := d.refs.insert k d.objs.length
  valid h := by
    rw [List.length_append, List.length_singleton]
    rcases lookup_insert_cases h with ⟨-, rfl⟩ | ⟨-, h⟩
    · exact Nat.lt_succ_self _
    · exact Nat.lt_succ_of_lt (d.valid h)
  inj h h' := by
    rcases lookup_insert_cases h with ⟨rfl, rfl⟩ | ⟨-, h1⟩ <;>
      rcases lookup_insert_cases h' with ⟨rfl, hr⟩ | ⟨-, h2⟩
    · rfl
    · exact absurd (d.valid h2) (lt_irrefl _)
    · subst hr
      exact absurd (d.valid h1) (lt_irrefl _)
    · exact d.inj h1 h2

/-- A change of the object behind a reference. -/
def modify (d : Table κ α) (r : Ref) (f : α → α) : Table κ α where
  objs := d.objs.modify r f
  refs := d.refs
  valid h := by
    rw [List.length_modify]
    exact d.valid h
  inj := d.inj

/-- A change of the object under a key, nothing when there is none. -/
def update (d : Table κ α) (k : κ) (f : α → α) : Table κ α :=
  match d.refs.lookup k with
  | none => d
  | some r => d.modify r f

/-- `del d[k]` -/
def erase (d : Table κ α) (k : κ) : Table κ α where
  objs := d.objs
  refs := d.refs.erase k
  valid h := d.valid (lookup_erase_cases h).2
  inj h h' := d.inj (lookup_erase_cases h).2 (lookup_erase_cases h').2

/-- `d.clear()` -/
def clear (d : Table κ α) : Table κ α where
  objs := d.objs
  refs := ∅
  valid h := by simp at h
  inj h := by simp at h

/-- `d[new] = d.pop(old)` -/
def rename (d : Table κ α) {old : κ} {r : Ref} (h : d.refs.lookup old = some r) (new : κ) :
    Table κ α where
  objs := d.objs
  refs := (d.refs.erase old).insert new r
  valid h' := by
    rcases lookup_insert_cases h' with ⟨-, rfl⟩ | ⟨-, h'⟩
    · exact d.valid h
    · exact d.valid (lookup_erase_cases h').2
  inj h1 h2 := by
    rcases lookup_insert_cases h1 with ⟨rfl, rfl⟩ | ⟨-, h1'⟩ <;>
      rcases lookup_insert_cases h2 with ⟨rfl, hr⟩ | ⟨-, h2'⟩
    · rfl
    · exact absurd (d.inj (lookup_erase_cases h2').2 h) (lookup_erase_cases h2').1
    · subst hr
      exact absurd (d.inj (lookup_erase_cases h1').2 h) (lookup_erase_cases h1').1
    · exact d.inj (lookup_erase_cases h1').2 (lookup_erase_cases h2').2

variable {d : Table κ α} {k k' : κ} {a : α} {r : Ref} {f : α → α}

@[simp] theorem get_empty : (empty : Table κ α).get k = none := by
  simp [get, empty]

theorem get_eq_none : d.get k = none ↔ d.refs.lookup k = none := by
  unfold get
  rcases h : d.refs.lookup k with _ | r
  · simp
  · simp [d.valid h]

theorem get_add : (d.add k a).get k' = if k' = k then some a else d.get k' := by
  unfold get add
  by_cases hk : k' = k
  · subst hk
    simp
  · rw [if_neg hk]
    simp only [AList.lookup_insert_ne hk]
    rcases h : d.refs.lookup k' with _ | r
    · rfl
    · simp only [Option.bind_some]
      rw [List.getElem?_append_left (d.valid h)]

theorem get_modify : (d.modify r f).get k =
    if d.refs.lookup k = some r then (d.get k).map f else d.get k := by
  unfold get modify
  rcases h : d.refs.lookup k with _ | r'
  · simp
  · by_cases hr : r' = r
    · subst hr
      simp
    · simp [hr, Ne.symm hr]

theorem get_update : (d.update k f).get k' = if k' = k then (d.get k).map f else d.get k' := by
  unfold update
  rcases h : d.refs.lookup k with _ | r
  · by_cases hk : k' = k
    · subst hk
      simp [get_eq_none.2 h]
    · rw [if_neg hk]
  · show (d.modify r f).get k' = _
    rw [get_modify]
    by_cases hk : k' = k
    · subst hk
      rw [if_pos h, if_pos rfl]
    · rw [if_neg hk, if_neg fun h' => hk (d.inj h' h)]

theorem get_erase : (d.erase k).get k' = if k' = k then none else d.get k' := by
  unfold get erase
  by_cases hk : k' = k
  · subst hk
    simp
  · simp [hk]

theorem get_rename (h : d.refs.lookup k = some r) {new : κ} : (d.rename h new).get k' =
    if k' = new then d.get k else if k' = k then none else d.get k' := by
  unfold get rename
  by_cases hn : k' = new
  · subst hn
    simp [h]
  · rw [if_neg hn]
    simp only [AList.lookup_insert_ne hn]
    by_cases hk : k' = k
    · subst hk
      simp
    · simp [hk]

/-! ### Sums over the objects -/

/-- The sum of `n` over every object that was ever made. -/
def total (n : α → ℕ) (d : Table κ α) : ℕ := (d.objs.map n).sum

variable {n : α → ℕ} {m : ℕ}

theorem total_add : (d.add k a).total n = d.total n + n a := by
  simp [total, add]

theorem sum_modify {l : List α} (hn : ∀ a, n (f a) = n a + m) (hr : r < l.length) :
    ((l.modify r f).map n).sum = (l.map n).sum + m := by
  induction l generalizing r with
  | nil => cases hr
  | cons a l ih =>
    rcases r with _ | r
    · simp only [List.modify_zero_cons, List.map_cons, List.sum_cons, hn]
      omega
    · have hr' : r < l.length := Nat.lt_of_succ_lt_succ hr
      simp only [List.modify_succ_cons, List.map_cons, List.sum_cons, ih hr']
      omega

theorem total_modify (hn : ∀ a, n (f a) = n a + m) (hr : r < d.objs.length) :
    (d.modify r f).total n = d.total n + m := sum_modify hn hr

theorem total_update (hn : ∀ a, n (f a) = n a + m) (hk : d.get k ≠ none) :
    (d.update k f).total n = d.total n + m := by
  unfold update
  rcases h : d.refs.lookup k with _ | r
  · exact absurd (get_eq_none.2 h) hk
  · exact total_modify hn (d.valid h)

theorem total_update_same (hn : ∀ a, n (f a) = n a) : (d.update k f).total n = d.total n := by
  unfold update
  rcases h : d.refs.lookup k with _ | r
  · rfl
  · exact total_modify (m := 0) hn (d.valid h)

/-! ### The objects in the dictionary -/

/-- The dictionary has the object. -/
def Listed (d : Table κ α) (r : Ref) : Prop := ∃ k, d.refs.lookup k = some r

theorem listed_add (hk : d.refs.lookup k = none) :
    (d.add k a).Listed r ↔ d.Listed r ∨ r = d.objs.length := by
  constructor
  · rintro ⟨k', h⟩
    rcases lookup_insert_cases h with ⟨-, hr⟩ | ⟨-, h⟩
    · exact Or.inr hr
    · exact Or.inl ⟨k', h⟩
  · rintro (⟨k', h⟩ | rfl)
    · have hne : k' ≠ k := by
        rintro rfl
        rw [hk] at h
        cases h
      exact ⟨k', (AList.lookup_insert_ne hne).trans h⟩
    · exact ⟨k, AList.lookup_insert _⟩

@[simp] theorem refs_update : (d.update k f).refs = d.refs := by
  unfold update
  split <;> rfl

@[simp] theorem length_update : (d.update k f).objs.length = d.objs.length := by
  unfold update
  split
  · rfl
  · exact List.length_modify ..

theorem listed_update : (d.update k f).Listed r ↔ d.Listed r := by
  unfold Listed
  rw [refs_update]

theorem listed_rename (h : d.refs.lookup k = some r) {new : κ} (hnew : d.refs.lookup new = none)
    {r' : Ref} : (d.rename h new).Listed r' ↔ d.Listed r' := by
  constructor
  · rintro ⟨k', h'⟩
    rcases lookup_insert_cases h' with ⟨-, rfl⟩ | ⟨-, h'⟩
    · exact ⟨k, h⟩
    · exact ⟨k', (lookup_erase_cases h').2⟩
  · rintro ⟨k', h'⟩
    by_cases hk : k' = k
    · subst hk
      rw [h] at h'
      obtain rfl := Option.some.inj h'
      exact ⟨new, AList.lookup_insert _⟩
    · have hne : k' ≠ new := by
        rintro rfl
        rw [hnew] at h'
        cases h'
      refine ⟨k', ?_⟩
      show ((d.refs.erase k).insert new r).lookup k' = some r'
      rw [AList.lookup_insert_ne hne, AList.lookup_erase_ne hk, h']

/-! ### The objects that were taken out -/

/-- Every object that is no longer in the dictionary is one of `p`. -/
def Dropped (p : α → Prop) (d : Table κ α) : Prop := ∀ r a, d.objs[r]? = some a → ¬ d.Listed r → p a

variable {p : α → Prop}

theorem dropped_empty : (empty : Table κ α).Dropped p := fun r a h => by simp [empty] at h

theorem Dropped.add (hd : d.Dropped p) (hk : d.refs.lookup k = none) : (d.add k a).Dropped p := by
  intro r b hb hr
  rw [listed_add hk, not_or] at hr
  have hlt : r < d.objs.length := by
    have hle := (List.getElem?_eq_some_iff.1 hb).1
    simp only [Table.add, List.length_append, List.length_singleton] at hle
    exact lt_of_le_of_ne (Nat.lt_succ_iff.1 hle) hr.2
  refine hd r b ?_ hr.1
  rw [← hb]
  exact (List.getElem?_append_left hlt).symm

theorem Dropped.modify (hd : d.Dropped p) (hf : ∀ a, p a → p (f a)) : (d.modify r f).Dropped p := by
  intro r' b hb hr
  rw [Table.modify, List.getElem?_modify] at hb
  obtain ⟨a, ha, rfl⟩ := Option.map_eq_some_iff.1 hb
  have hpa : p a := hd r' a ha hr
  split
  · exact hf a hpa
  · exact hpa

theorem Dropped.update (hd : d.Dropped p) (hf : ∀ a, p a → p (f a)) : (d.update k f).Dropped p := by
  unfold Table.update
  split
  · exact hd
  · exact hd.modify hf

theorem Dropped.erase (hd : d.Dropped p) (ha : ∀ a ∈ d.get k, p a) : (d.erase k).Dropped p := by
  intro r b hb hr
  by_cases hlisted : d.Listed r
  · obtain ⟨k', hk'⟩ := hlisted
    by_cases hk : k' = k
    · subst hk
      refine ha b ?_
      rw [Option.mem_def, get, hk']
      exact hb
    · exact absurd ⟨k', (AList.lookup_erase_ne hk).trans hk'⟩ hr
  · exact hd r b hb hlisted

theorem Dropped.clear (hd : d.Dropped p) (ha : ∀ k, ∀ a ∈ d.get k, p a) : ∀ a ∈ d.clear.objs, p a := by
  intro a hmem
  obtain ⟨r, hr⟩ := List.mem_iff_getElem?.1 hmem
  by_cases hlisted : d.Listed r
  · obtain ⟨k, hk⟩ := hlisted
    refine ha k a ?_
    rw [Option.mem_def, get, hk]
    exact hr
  · exact hd r a hr hlisted

end Table

end AisServer.Lib
