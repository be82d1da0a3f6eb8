import AisServer.Lib.Text

/-!
# Records that end with a separator

`Framed c bytes records rest` says that `bytes` is the records, each with its separator `c`, and a rest.  A
reader that holds what it has read of a stream and takes records off the front keeps it
(`Framed.append`, `Framed.take`), and the records of a stream are determined once the rest is without a
separator (`Framed.unique`).
-/

namespace AisServer.Lib

variable {α : Type} {c : α} {bytes bytes' rest rest' record : List α} {records records' : List (List α)}

structure Framed (c : α) (bytes : List α) (records : List (List α)) (rest : List α) : Prop where
  eq : bytes = (records.map (· ++ [c])).flatten ++ rest
  ended : ∀ r ∈ records, c ∉ r

namespace Framed

theorem nil (c : α) : Framed c [] [] [] where
  eq := rfl
  ended := by simp

theorem append (h : Framed c bytes records rest) (more : List α) :
    Framed c (bytes ++ more) records (rest ++ more) where
  eq := by rw [h.eq, List.append_assoc]
  ended := h.ended

theorem take [DecidableEq α] (h : Framed c bytes records rest)
    (hs : split1 c rest = some (record, rest')) : Framed c bytes (records ++ [record]) rest' := by
  obtain ⟨rfl, hrecord⟩ := split1_eq_some.1 hs
  constructor
  · rw [h.eq]
    simp
  · intro r hr
    rcases List.mem_append.1 hr with hr | hr
    · exact h.ended r hr
    · obtain rfl := List.mem_singleton.1 hr
      exact hrecord

theorem append_cons_inj {a b s t : List α} (ha : c ∉ a) (hb : c ∉ b) (h : a ++ c :: s = b ++ c :: t) :
    a = b ∧ s = t := by
  induction a generalizing b with
  | nil =>
    cases b with
    | nil => exact ⟨rfl, (List.cons.inj h).2⟩
    | cons y b => exact absurd (List.mem_cons.2 (Or.inl (List.cons.inj h).1)) hb
  | cons x a ih =>
    cases b with
    | nil => exact absurd (List.mem_cons.2 (Or.inl (List.cons.inj h).1.symm)) ha
    | cons y b =>
      obtain ⟨rfl, htail⟩ := List.cons.inj h
      obtain ⟨rfl, rfl⟩ := ih (fun hc => ha (List.mem_cons_of_mem _ hc))
        (fun hc => hb (List.mem_cons_of_mem _ hc)) htail
      exact ⟨rfl, rfl⟩

/-- **One reading only.**  Two readings of one stream whose rests are without a separator agree. -/
theorem unique (h : Framed c bytes records rest) (h' : Framed c bytes records' rest') (hr : c ∉ rest)
    (hr' : c ∉ rest') : records = records' ∧ rest = rest' := by
  have heq := h.eq.symm.trans h'.eq
  have hc := h.ended
  have hc' := h'.ended
  clear h h'
  induction records generalizing records' with
  | nil =>
    cases records' with
    | nil => exact ⟨rfl, by simpa using heq⟩
    | cons r' records' =>
      have hrest : rest = ((r' :: records').map (· ++ [c])).flatten ++ rest' := heq
      exact absurd (by simp [hrest]) hr
  | cons r records ih =>
    cases records' with
    | nil =>
      have hrest : ((r :: records).map (· ++ [c])).flatten ++ rest = rest' := heq
      exact absurd (by simp [← hrest]) hr'
    | cons r' records' =>
      simp only [List.map_cons, List.flatten_cons, List.append_assoc, List.singleton_append] at heq
      obtain ⟨rfl, htail⟩ :=
        append_cons_inj (hc r (List.mem_cons_self ..)) (hc' r' (List.mem_cons_self ..)) heq
      obtain ⟨rfl, rfl⟩ := ih htail (fun x hx => hc x (List.mem_cons_of_mem _ hx))
        (fun x hx => hc' x (List.mem_cons_of_mem _ hx))
      exact ⟨rfl, rfl⟩

theorem count_eq [DecidableEq α] (h : Framed c bytes records rest) :
    bytes.count c = records.length + rest.count c := by
  have hrecords : ∀ rs : List (List α), (∀ r ∈ rs, c ∉ r) →
      ((rs.map (· ++ [c])).flatten).count c = rs.length := by
    intro rs
    induction rs with
    | nil => simp
    | cons r rs ih =>
      intro hr
      rw [List.map_cons, List.flatten_cons, List.count_append, List.count_append,
        List.count_eq_zero_of_not_mem (hr r List.mem_cons_self), ih fun r' hr' => hr r' (List.mem_cons_of_mem _ hr')]
      simp
      omega
  rw [h.eq, List.count_append, hrecords records h.ended]

end Framed

end AisServer.Lib
