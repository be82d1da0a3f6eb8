import Mathlib.Data.List.Basic
import Mathlib.Data.List.Perm.Subperm

/-!
# Threads inside calls

A number of threads call a function whose work is cut into steps, and each is inside one call at a time.  `Turns` keeps
the threads and the calls together through the steps of a call.

* `Turns.enter`, `Turns.leave`, `Turns.advance`, `Turns.finish` — a thread calls, its call is over at once, goes on, or
  ends;
* `Turns.length_le` — there are no more calls than threads.
-/

namespace AisServer.Lib

/-- Some threads are about to begin a call and some are inside one, no thread twice, and `flights` are the calls that
these are inside of. -/
structure Turns (threads called : List ℕ) (inside : List (ℕ × ℕ)) (flights : List ℕ) : Prop where
  nodup : (called ++ inside.map Prod.fst).Nodup
  mem : ∀ i ∈ called ++ inside.map Prod.fst, i ∈ threads
  flights : flights.Perm (inside.map Prod.snd)

namespace Turns

variable {i k : ℕ} {threads threads' called called' : List ℕ} {inside : List (ℕ × ℕ)} {flights flights' : List ℕ}

theorem length_le (h : Turns threads called inside flights) : called.length + flights.length ≤ threads.length := by
  have hlen := (h.nodup.subperm h.mem).length_le
  rwa [List.length_append, List.length_map, ← List.length_map (f := Prod.snd), ← h.flights.length_eq] at hlen

theorem mono (h : Turns threads called inside flights)
    (ht : ∀ i ∈ called ++ inside.map Prod.fst, i ∈ threads → i ∈ threads') :
    Turns threads' called inside flights :=
  ⟨h.nodup, fun i hi => ht i hi (h.mem i hi), h.flights⟩

theorem perm (h : Turns threads called inside flights) (hp : flights'.Perm flights) :
    Turns threads called inside flights' :=
  ⟨h.nodup, h.mem, hp.trans h.flights⟩

/-- A thread that is in no call begins one. -/
theorem enter (h : Turns threads called inside flights) (hi : i ∈ threads) (hnot : i ∉ called ++ inside.map Prod.fst) :
    Turns threads (called ++ [i]) inside flights := by
  have hperm : (called ++ [i] ++ inside.map Prod.fst).Perm (i :: (called ++ inside.map Prod.fst)) := by
    rw [List.append_assoc]
    exact List.perm_middle
  refine ⟨hperm.nodup_iff.2 (List.nodup_cons.2 ⟨hnot, h.nodup⟩), fun j hj => ?_, h.flights⟩
  rcases List.mem_cons.1 (hperm.subset hj) with rfl | hj
  · exact hi
  · exact h.mem j hj

/-- A call that is over at once. -/
theorem leave (h : Turns threads called inside flights) (hp : called.Perm (i :: called')) :
    Turns threads called' inside flights := by
  have hperm := hp.append_right (inside.map Prod.fst)
  have hnodup := hperm.nodup_iff.1 h.nodup
  exact ⟨(List.nodup_cons.1 hnodup).2, fun j hj => h.mem j (hperm.symm.subset (List.mem_cons_of_mem _ hj)), h.flights⟩

/-- A call that goes on. -/
theorem advance (h : Turns threads called inside flights) (hp : called.Perm (i :: called'))
    (hf : flights'.Perm (k :: flights)) : Turns threads called' (inside ++ [(i, k)]) flights' := by
  have hperm : (called' ++ (inside ++ [(i, k)]).map Prod.fst).Perm (called ++ inside.map Prod.fst) := by
    rw [List.map_append, List.map_singleton, ← List.append_assoc]
    exact List.perm_append_comm.trans (hp.symm.append_right _)
  refine ⟨hperm.nodup_iff.2 h.nodup, fun j hj => h.mem j (hperm.subset hj), hf.trans ?_⟩
  rw [List.map_append, List.map_singleton]
  exact (h.flights.cons k).trans (List.perm_append_singleton k _).symm

theorem perm_filter (hl : (inside.map Prod.fst).Nodup) (hmem : (i, k) ∈ inside) :
    inside.Perm ((i, k) :: inside.filter fun c => c.1 ≠ i) := by
  induction inside with
  | nil => cases hmem
  | cons x l ih =>
    rw [List.map_cons, List.nodup_cons] at hl
    obtain ⟨hnot, hl⟩ := hl
    rcases List.mem_cons.1 hmem with rfl | hmem
    · have hall : l.filter (fun c => c.1 ≠ i) = l := by
        refine List.filter_eq_self.2 fun c hc => ?_
        have hne : c.1 ≠ i := fun heq => hnot (List.mem_map.2 ⟨c, hc, heq⟩)
        simpa using hne
      rw [List.filter_cons_of_neg (by simp), hall]
    · have hne : x.1 ≠ i := fun heq => hnot (heq ▸ List.mem_map_of_mem hmem)
      rw [List.filter_cons_of_pos (by simpa using hne)]
      exact ((ih hl hmem).cons x).trans (List.Perm.swap ..)

/-- A call ends. -/
theorem finish (h : Turns threads called inside flights) (hmem : (i, k) ∈ inside) (hf : flights.Perm (k :: flights')) :
    Turns threads called (inside.filter fun c => c.1 ≠ i) flights' := by
  have hperm := perm_filter (List.nodup_append.1 h.nodup).2.1 hmem
  have hsub : (called ++ (inside.filter fun c => c.1 ≠ i).map Prod.fst).Sublist (called ++ inside.map Prod.fst) :=
    (List.Sublist.refl _).append (List.filter_sublist.map _)
  refine ⟨h.nodup.sublist hsub, fun j hj => h.mem j (hsub.subset hj), ?_⟩
  have hids := (hf.symm.trans h.flights).trans (hperm.map Prod.snd)
  exact (List.perm_cons k).1 hids

end Turns

theorem perm_of_findIdx? {α : Type} {l : List α} {p : α → Bool} {k : ℕ} {a : α} (hk : l.findIdx? p = some k)
    (ha : l[k]? = some a) : p a = true ∧ l.Perm (a :: l.eraseIdx k) := by
  obtain ⟨hlt, hget⟩ := List.getElem?_eq_some_iff.1 ha
  obtain ⟨hlt', hp, -⟩ := List.findIdx?_eq_some_iff_getElem.1 hk
  exact ⟨hget ▸ hp, hget ▸ (List.getElem_cons_eraseIdx_perm hlt).symm⟩

end AisServer.Lib
