import AisServer.Store.Database
import Mathlib.Data.List.Nodup

/-!
# The ids of the rows

`AUTOINCREMENT`: an id that was given to a row once is given to no other, also when the row is gone.

* `Numbered.apply` — every statement keeps the ids distinct and below the counter;
* `Later.apply` — a row with an id that was given before is the row that had it, edited.
-/

namespace AisServer.Store.Tables

variable {Q : Sqlite} {t t' t'' : Tables} {st : Statement} {sts : List Statement}

/-- `PRIMARY KEY AUTOINCREMENT` -/
structure Numbered (t : Tables) : Prop where
  ids : (t.endpoints.map (·.id)).Nodup
  last : ∀ e ∈ t.endpoints, e.id ≤ t.lastEndpoint

/-- The tables at a later time: a row with an old id is the old row, whatever was assigned to it. -/
structure Later (t t' : Tables) : Prop where
  last : t.lastEndpoint ≤ t'.lastEndpoint
  rows : ∀ e' ∈ t'.endpoints, e'.id ≤ t.lastEndpoint → ∃ e ∈ t.endpoints, e.id = e'.id ∧ e.createdAt = e'.createdAt

theorem Later.refl (t : Tables) : Later t t := ⟨le_rfl, fun e he _ => ⟨e, he, rfl, rfl⟩⟩

theorem Later.trans (h : Later t t') (h' : Later t' t'') : Later t t'' := by
  refine ⟨h.last.trans h'.last, fun e'' he'' hid => ?_⟩
  obtain ⟨e', he', hid', hcreated'⟩ := h'.rows e'' he'' (hid.trans h.last)
  obtain ⟨e, he, hid, hcreated⟩ := h.rows e' he' (hid' ▸ hid)
  exact ⟨e, he, hid.trans hid', hcreated.trans hcreated'⟩

theorem Later.of_eq (he : t'.endpoints = t.endpoints) (hl : t'.lastEndpoint = t.lastEndpoint) : Later t t' :=
  ⟨hl.ge, fun e h _ => ⟨e, he ▸ h, rfl, rfl⟩⟩

theorem Numbered.of_eq (ht : Numbered t) (he : t'.endpoints = t.endpoints) (hl : t'.lastEndpoint = t.lastEndpoint) :
    Numbered t' :=
  ⟨he ▸ ht.ids, he ▸ hl ▸ ht.last⟩

theorem foldl_assign_frame (sets : List Assignment) (e : Endpoint) :
    (sets.foldl (Endpoint.assign Q) e).id = e.id ∧ (sets.foldl (Endpoint.assign Q) e).createdAt = e.createdAt := by
  induction sets generalizing e with
  | nil => exact ⟨rfl, rfl⟩
  | cons a sets ih =>
    obtain ⟨hid, hcreated⟩ := ih (e.assign Q a)
    rw [List.foldl_cons, hid, hcreated]
    cases a <;> exact ⟨rfl, rfl⟩

/-- What one statement does to the rows of the endpoints. -/
inductive RowsStep (t t' : Tables) : Prop
  | same (he : t'.endpoints = t.endpoints) (hl : t'.lastEndpoint = t.lastEndpoint)
  | insert (e : Endpoint) (he : t'.endpoints = t.endpoints ++ [e]) (hid : e.id = t.lastEndpoint + 1)
      (hl : t'.lastEndpoint = t.lastEndpoint + 1)
  | update (e e' : Endpoint) (hmem : e ∈ t.endpoints) (hid : e'.id = e.id) (hcreated : e'.createdAt = e.createdAt)
      (he : t'.endpoints = t.endpoints.map fun o => if o.id = e.id then e' else o)
      (hl : t'.lastEndpoint = t.lastEndpoint)
  | delete (id : ℕ) (he : t'.endpoints = t.endpoints.filter fun e => e.id ≠ id)
      (hl : t'.lastEndpoint = t.lastEndpoint)

theorem exec_rowsStep (h : st.exec Q t = some t') : RowsStep t t' := by
  cases st with
  | insertUser username pwHash mustChange now =>
    simp only [Statement.exec] at h
    split at h
    · cases h
    · obtain rfl := Option.some.inj h
      exact .same rfl rfl
  | updateLastLogin id now =>
    obtain rfl := Option.some.inj h
    exact .same rfl rfl
  | updatePassword username pwHash clear =>
    obtain rfl := Option.some.inj h
    exact .same rfl rfl
  | insertEndpoint name protocol host port path enabled broadcast now =>
    simp only [Statement.exec] at h
    split at h
    · obtain rfl := Option.some.inj h
      exact .insert _ rfl rfl rfl
    · cases h
  | updateEndpoint id sets now =>
    simp only [Statement.exec] at h
    split at h
    · obtain rfl := Option.some.inj h
      exact .same rfl rfl
    · rename_i e hfind
      obtain rfl : e.id = id := by simpa using List.find?_some hfind
      split at h
      · obtain rfl := Option.some.inj h
        obtain ⟨hid, hcreated⟩ := @foldl_assign_frame Q sets e
        exact .update e { sets.foldl (Endpoint.assign Q) e with updatedAt := now }
          (List.mem_of_find?_eq_some hfind) hid hcreated rfl rfl
      · cases h
  | deleteEndpoint id =>
    obtain rfl := Option.some.inj h
    exact .delete id rfl rfl
  | upsertKv k v =>
    obtain rfl := Option.some.inj h
    exact .same rfl rfl

theorem Numbered.rowsStep (ht : Numbered t) (h : RowsStep t t') : Numbered t' := by
  cases h with
  | same he hl => exact ht.of_eq he hl
  | insert e he hid hl =>
    constructor
    · rw [he, List.map_append, List.nodup_append]
      refine ⟨ht.ids, by simp, fun a ha b hb => ?_⟩
      obtain ⟨o, ho, rfl⟩ := List.mem_map.1 ha
      obtain rfl : b = e.id := by simpa using hb
      exact ne_of_lt (lt_of_le_of_lt (ht.last o ho) (hid ▸ Nat.lt_succ_self _))
    · intro o ho
      rw [he] at ho
      rcases List.mem_append.1 ho with ho | ho
      · exact (ht.last o ho).trans (hl ▸ Nat.le_succ _)
      · obtain rfl := List.mem_singleton.1 ho
        exact (hid.trans hl.symm).le
  | update e e' hmem hid hcreated he hl =>
    have hids : t'.endpoints.map (·.id) = t.endpoints.map (·.id) := by
      rw [he, List.map_map]
      refine List.map_congr_left fun o _ => ?_
      by_cases ho : o.id = e.id
      · simp [ho, hid]
      · simp [ho]
    refine ⟨hids ▸ ht.ids, fun o ho => ?_⟩
    have hmem' : o.id ∈ t.endpoints.map (·.id) := hids ▸ List.mem_map_of_mem ho
    obtain ⟨o', ho', hid'⟩ := List.mem_map.1 hmem'
    rw [hl, ← hid']
    exact ht.last o' ho'
  | delete id he hl =>
    refine ⟨?_, fun o ho => ?_⟩
    · rw [he]
      exact ht.ids.sublist (List.filter_sublist.map _)
    · rw [he] at ho
      rw [hl]
      exact ht.last o (List.mem_filter.1 ho).1

theorem RowsStep.later (h : RowsStep t t') : Later t t' := by
  cases h with
  | same he hl => exact .of_eq he hl
  | insert e he hid hl =>
    refine ⟨hl ▸ Nat.le_succ _, fun o ho hle => ?_⟩
    rw [he] at ho
    rcases List.mem_append.1 ho with ho | ho
    · exact ⟨o, ho, rfl, rfl⟩
    · obtain rfl := List.mem_singleton.1 ho
      omega
  | update e e' hmem hid hcreated he hl =>
    refine ⟨hl.ge, fun o ho _ => ?_⟩
    rw [he] at ho
    obtain ⟨o', ho', rfl⟩ := List.mem_map.1 ho
    by_cases hid' : o'.id = e.id
    · rw [if_pos hid']
      exact ⟨e, hmem, hid.symm, hcreated.symm⟩
    · rw [if_neg hid']
      exact ⟨o', ho', rfl, rfl⟩
  | delete id he hl =>
    refine ⟨hl.ge, fun o ho _ => ?_⟩
    rw [he] at ho
    exact ⟨o, (List.mem_filter.1 ho).1, rfl, rfl⟩

theorem apply_rowsStep (Q : Sqlite) (t : Tables) (st : Statement) : RowsStep t (st.apply Q t) := by
  unfold Statement.apply
  rcases h : st.exec Q t with _ | t'
  · exact .same rfl rfl
  · exact exec_rowsStep h

theorem Numbered.apply (ht : Numbered t) : Numbered (sts.foldl (Statement.apply Q) t) := by
  induction sts generalizing t with
  | nil => exact ht
  | cons st sts ih => exact ih (ht.rowsStep (apply_rowsStep Q t st))

theorem Later.apply : Later t (sts.foldl (Statement.apply Q) t) := by
  induction sts generalizing t with
  | nil => exact .refl t
  | cons st sts ih => exact (apply_rowsStep Q t st).later.trans ih

end AisServer.Store.Tables
