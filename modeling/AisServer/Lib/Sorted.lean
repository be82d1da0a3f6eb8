import Mathlib.Data.List.Sort
import Mathlib.Order.Defs.LinearOrder

/-!
# Lists by a key

`sorted(l, key=key, reverse=True)` of Python, which keeps the order of elements with the same key, and the loop that
passes over an element whose key it has seen.

* `sortDesc_perm`, `pairwise_sortDesc` — the elements, in the order of their keys;
* `sortDesc_split` — what comes to stand in front of an element;
* `mem_drop_sortDesc` — the elements behind the first ones;
* `mem_firsts`, `nodup_firsts` — the first element of every key.
-/

namespace AisServer.Lib

section Sorting

variable {α κ : Type} [LinearOrder κ] (key : α → κ) {a b x : α} {l pre post : List α}

/-- `sorted(l, key=key, reverse=True)` -/
def sortDesc (l : List α) : List α := l.mergeSort fun a b => decide (key b ≤ key a)

theorem sortDesc_perm (l : List α) : (sortDesc key l).Perm l := List.mergeSort_perm ..

@[simp] theorem mem_sortDesc : a ∈ sortDesc key l ↔ a ∈ l := (sortDesc_perm key l).mem_iff

theorem sortDesc_trans (a b c : α) (hab : decide (key b ≤ key a) = true) (hbc : decide (key c ≤ key b) = true) :
    decide (key c ≤ key a) = true := by
  rw [decide_eq_true_eq] at *
  exact hbc.trans hab

theorem sortDesc_total (a b : α) : (decide (key b ≤ key a) || decide (key a ≤ key b)) = true := by
  rw [Bool.or_eq_true, decide_eq_true_eq, decide_eq_true_eq]
  exact le_total ..

theorem pairwise_sortDesc (l : List α) : (sortDesc key l).Pairwise fun a b => key b ≤ key a :=
  (List.pairwise_mergeSort (sortDesc_trans key) (sortDesc_total key) l).imp fun h => of_decide_eq_true h

/-- The first element comes to stand behind those with a greater key, and nothing else moves. -/
theorem sortDesc_cons (a : α) (l : List α) : ∃ front back, sortDesc key (a :: l) = front ++ a :: back ∧
    sortDesc key l = front ++ back ∧ ∀ b ∈ front, key a < key b := by
  obtain ⟨front, back, hcons, hl, hfront⟩ := List.mergeSort_cons (sortDesc_trans key) (sortDesc_total key) a l
  refine ⟨front, back, hcons, hl, fun b hb => ?_⟩
  simpa using hfront b hb

/-- **What comes to stand in front of an element**: those with a greater key, and the earlier ones with the same. -/
theorem sortDesc_split (pre : List α) (x : α) (post : List α) :
    ∃ front back, sortDesc key (pre ++ x :: post) = front ++ x :: back ∧
      front.Perm (pre.filter (key x ≤ key ·) ++ post.filter (key x < key ·)) := by
  induction pre with
  | nil =>
    obtain ⟨front, back, hcons, hpost, hfront⟩ := sortDesc_cons key x post
    refine ⟨front, back, hcons, ?_⟩
    have hsorted := pairwise_sortDesc key (x :: post)
    rw [hcons] at hsorted
    have hback : ∀ b ∈ back, key b ≤ key x :=
      (List.pairwise_cons.1 (hsorted.sublist (List.sublist_append_right ..))).1
    have hfilter : (sortDesc key post).filter (key x < key ·) = front := by
      rw [hpost, List.filter_append, List.filter_eq_self.2 fun b hb => decide_eq_true (hfront b hb),
        List.filter_eq_nil_iff.2 fun b hb => by simpa using hback b hb, List.append_nil]
    rw [← hfilter]
    exact (sortDesc_perm key post).filter _
  | cons a pre ih =>
    obtain ⟨front, back, hsplit, hfront⟩ := ih
    obtain ⟨front', back', hcons, hl, hgreater⟩ := sortDesc_cons key a (pre ++ x :: post)
    have hsorted := pairwise_sortDesc key (a :: (pre ++ x :: post))
    rw [hsplit] at hl
    rw [List.cons_append, List.filter_cons]
    rw [hcons] at hsorted
    rcases List.append_eq_append_iff.1 hl with ⟨mid, hfront', hmid⟩ | ⟨mid, hfront', hmid⟩
    · rcases mid with _ | ⟨m, mid⟩
      · -- `a` comes to stand right in front of `x`
        rw [List.nil_append] at hmid
        rw [List.append_nil] at hfront'
        subst hfront'
        rw [← hmid] at hsorted
        have hle : key x ≤ key a :=
          (List.pairwise_cons.1 (hsorted.sublist (List.sublist_append_right ..))).1 x (List.mem_cons_self ..)
        refine ⟨front' ++ [a], back, by rw [hcons, ← hmid]; simp, ?_⟩
        rw [if_pos (decide_eq_true hle), List.cons_append]
        exact (List.perm_append_singleton ..).trans (hfront.cons a)
      · -- `a` comes to stand behind `x`
        obtain ⟨rfl, rfl⟩ := List.cons.inj hmid
        have hlt := hgreater x (by simp [hfront'])
        refine ⟨front, mid ++ a :: back', by rw [hcons, hfront']; simp, ?_⟩
        rwa [if_neg (by simpa using hlt)]
    · -- `a` comes to stand in front of `x`
      rw [hmid] at hsorted
      have hle : key x ≤ key a :=
        (List.pairwise_cons.1 (hsorted.sublist (List.sublist_append_right ..))).1 x (by simp)
      refine ⟨front' ++ a :: mid, back, by rw [hcons, hmid]; simp, ?_⟩
      rw [if_pos (decide_eq_true hle), List.cons_append]
      rw [hfront'] at hfront
      exact List.perm_middle.trans (hfront.cons a)

/-- An element that occurs once is behind the first `n` exactly when so many come to stand in front of it. -/
theorem mem_drop_sortDesc (hnd : (pre ++ x :: post).Nodup) (n : ℕ) :
    x ∈ (sortDesc key (pre ++ x :: post)).drop n ↔
      n ≤ pre.countP (key x ≤ key ·) + post.countP (key x < key ·) := by
  obtain ⟨front, back, hsplit, hfront⟩ := sortDesc_split key pre x post
  have hlen : front.length = pre.countP (key x ≤ key ·) + post.countP (key x < key ·) := by
    rw [hfront.length_eq, List.length_append, List.countP_eq_length_filter, List.countP_eq_length_filter]
  have hnd' := (sortDesc_perm key _).nodup_iff.2 hnd
  rw [hsplit] at hnd' ⊢
  rw [← hlen]
  have hback : x ∉ back := (List.nodup_cons.1 (hnd'.sublist (List.sublist_append_right ..))).1
  rcases Nat.lt_or_ge front.length n with hlt | hle
  · refine iff_of_false (fun hmem => hback ?_) (Nat.not_le.2 hlt)
    rw [List.drop_append, List.drop_eq_nil_of_le hlt.le, List.nil_append] at hmem
    obtain ⟨k, hk⟩ := Nat.exists_eq_add_of_lt hlt
    rw [show n - front.length = k + 1 by omega, List.drop_succ_cons] at hmem
    exact List.mem_of_mem_drop hmem
  · refine iff_of_true ?_ hle
    rw [List.drop_append_of_le_length hle]
    exact List.mem_append_right _ (List.mem_cons_self ..)

end Sorting

/-! ### The first of every key -/

section Firsts

variable {α κ : Type} [DecidableEq κ] {key : α → κ} {a b : α} {l : List α} {seen : List κ}

/-- The elements whose keys are not among those seen before. -/
def firsts (key : α → κ) : List κ → List α → List α
  | _, [] => []
  | seen, a :: l => if key a ∈ seen then firsts key seen l else a :: firsts key (key a :: seen) l

/-- The first element with its key. -/
def IsFirst (key : α → κ) (l : List α) (a : α) : Prop :=
  ∃ before after, l = before ++ a :: after ∧ ∀ b ∈ before, key b ≠ key a

omit [DecidableEq κ] in
theorem isFirst_cons : IsFirst key (b :: l) a ↔ a = b ∨ key a ≠ key b ∧ IsFirst key l a := by
  constructor
  · rintro ⟨_ | ⟨c, before⟩, after, hl, hkey⟩
    · exact Or.inl (List.cons.inj hl).1.symm
    · obtain ⟨rfl, rfl⟩ := List.cons.inj hl
      obtain ⟨hb, hkey⟩ := List.forall_mem_cons.1 hkey
      exact Or.inr ⟨hb.symm, before, after, rfl, hkey⟩
  · rintro (rfl | ⟨hb, before, after, rfl, hkey⟩)
    · exact ⟨[], l, rfl, by simp⟩
    · exact ⟨b :: before, after, rfl, List.forall_mem_cons.2 ⟨hb.symm, hkey⟩⟩

omit [DecidableEq κ] in
theorem IsFirst.mem (h : IsFirst key l a) : a ∈ l := by
  obtain ⟨before, after, rfl, -⟩ := h
  simp

omit [DecidableEq κ] in
theorem IsFirst.unique (ha : IsFirst key l a) (hb : IsFirst key l b) (hkey : key a = key b) : a = b := by
  induction l with
  | nil => cases ha.mem
  | cons c l ih =>
    rcases isFirst_cons.1 ha with rfl | ⟨hac, ha⟩
    · rcases isFirst_cons.1 hb with rfl | ⟨hbc, -⟩
      · rfl
      · exact absurd hkey.symm hbc
    · rcases isFirst_cons.1 hb with rfl | ⟨-, hb⟩
      · exact absurd hkey hac
      · exact ih ha hb

theorem exists_isFirst (key : α → κ) (h : a ∈ l) : ∃ b, IsFirst key l b ∧ key b = key a := by
  induction l with
  | nil => cases h
  | cons c l ih =>
    by_cases hc : key a = key c
    · exact ⟨c, isFirst_cons.2 (Or.inl rfl), hc.symm⟩
    · obtain ⟨b, hb, hkey⟩ := ih ((List.mem_cons.1 h).resolve_left fun hac => hc (hac ▸ rfl))
      exact ⟨b, isFirst_cons.2 (Or.inr ⟨hkey ▸ hc, hb⟩), hkey⟩

theorem mem_firsts : a ∈ firsts key seen l ↔ key a ∉ seen ∧ IsFirst key l a := by
  induction l generalizing seen with
  | nil =>
    simp only [firsts, List.not_mem_nil, false_iff]
    exact fun h => by cases h.2.mem
  | cons b l ih =>
    rw [firsts, isFirst_cons]
    split
    · rename_i hb
      rw [ih]
      refine and_congr_right fun ha => ⟨fun h => Or.inr ⟨fun hkey => ha (hkey ▸ hb), h⟩, ?_⟩
      rintro (rfl | h)
      · exact absurd hb ha
      · exact h.2
    · rename_i hb
      rw [List.mem_cons, ih, List.mem_cons, not_or]
      constructor
      · rintro (rfl | ⟨⟨hkey, ha⟩, h⟩)
        · exact ⟨hb, Or.inl rfl⟩
        · exact ⟨ha, Or.inr ⟨hkey, h⟩⟩
      · rintro ⟨ha, rfl | ⟨hkey, h⟩⟩
        · exact Or.inl rfl
        · exact Or.inr ⟨⟨hkey, ha⟩, h⟩

theorem nodup_firsts (key : α → κ) (seen : List κ) (l : List α) : ((firsts key seen l).map key).Nodup := by
  induction l generalizing seen with
  | nil => exact List.nodup_nil
  | cons b l ih =>
    rw [firsts]
    split
    · exact ih seen
    · rw [List.map_cons, List.nodup_cons]
      refine ⟨fun hmem => ?_, ih _⟩
      obtain ⟨a, ha, hkey⟩ := List.mem_map.1 hmem
      exact (mem_firsts.1 ha).1 (hkey ▸ List.mem_cons_self ..)

end Firsts

end AisServer.Lib
