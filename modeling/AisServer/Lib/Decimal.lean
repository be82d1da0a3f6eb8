import AisServer.Lib.Text

/-!
# Printed numbers

`pyStr` is `str` of an integer, `hexPair` prints a byte with two hexadecimal digits; `int` reads both
back (`pyInt_pyStr`, `pyInt_hexPair`).
-/

namespace AisServer.Lib

/-- `str(n)` of a natural number. -/
def decimal (n : ℕ) : Str := Nat.toDigits 10 n

/-- `str(n)` -/
def pyStr (n : ℤ) : Str := if n < 0 then '-' :: decimal n.natAbs else decimal n.natAbs

/-! ### Decimal digits -/

/-- A printed digit is read with its value, and is nothing that `int` or the format treats in a special
way. -/
theorem digitChar_spec : ∀ d < 10, decimalVal (Nat.digitChar d) = some d ∧
    digitVal (Nat.digitChar d) = some d ∧
    Nat.digitChar d ∉ intSpaces ∧ Nat.digitChar d ∉ ['-', '+', '_', ',', '*'] ∧
    (Nat.digitChar d).toNat < 128 := by decide

theorem exists_of_mem_decimal {n : ℕ} {c : Char} (h : c ∈ decimal n) :
    ∃ d < 10, c = Nat.digitChar d := by
  induction n using Nat.strong_induction_on with
  | _ n ih =>
    rw [decimal, Nat.toDigits_eq_if (by decide)] at h
    split at h
    · rename_i hn
      exact ⟨n, hn, List.mem_singleton.1 h⟩
    · rename_i hn
      rcases List.mem_append.1 h with h | h
      · exact ih (n / 10) (by omega) h
      · exact ⟨n % 10, by omega, List.mem_singleton.1 h⟩

theorem digitsVal_append_one (base : ℕ) (s : Str) (c : Char) : digitsVal base (s ++ [c]) =
    (digitsVal base s).bind fun n => (digitVal c).bind fun d =>
      if d < base then some (base * n + d) else none := by
  simp [digitsVal, List.foldlM_append]

theorem digitsVal_decimal (n : ℕ) : digitsVal 10 (decimal n) = some n := by
  induction n using Nat.strong_induction_on with
  | _ n ih =>
    rw [decimal, Nat.toDigits_eq_if (by decide)]
    split
    · rename_i hn
      obtain ⟨-, hv, -⟩ := digitChar_spec n hn
      simp [digitsVal, hv, hn]
    · rename_i hn
      have hlt : n % 10 < 10 := by omega
      obtain ⟨-, hv, -⟩ := digitChar_spec (n % 10) hlt
      rw [digitsVal_append_one, show Nat.toDigits 10 (n / 10) = decimal (n / 10) from rfl,
        ih (n / 10) (by omega), Option.bind_some, hv, Option.bind_some, if_pos hlt]
      congr 1
      omega

theorem magnitude_decimal (n : ℕ) :
    magnitude 10 (decimal n) = if (decimal n).length ≤ maxStrDigits then some n else none := by
  have hsplit : (decimal n).splitOn '_' = [decimal n] :=
    List.splitOn_eq_singleton Nat.underscore_not_in_toDigits
  have hne : (decimal n).isEmpty = false := by simp [decimal]
  unfold magnitude
  simp only [hsplit, List.any_cons, hne, List.any_nil, Bool.or_false, Bool.false_eq_true, if_false,
    List.flatten_singleton, digitsVal_decimal, true_and]
  split
  · rename_i hlt
    rw [if_neg (Nat.not_le.2 hlt)]
  · rename_i hle
    rw [if_pos (Nat.not_lt.1 hle)]

theorem isDigit_decimal (n : ℕ) : isDigit (decimal n) = true := by
  have hne : (decimal n).isEmpty = false := by simp [decimal]
  rw [isDigit, hne, Bool.not_false, Bool.true_and, List.all_eq_true]
  intro c hc
  obtain ⟨d, hd, rfl⟩ := exists_of_mem_decimal hc
  rw [(digitChar_spec d hd).1]
  rfl

/-! ### Reading a printed integer -/

theorem strip_eq_self {cs : List Char} {s : Str} (h : ∀ c ∈ s, c ∉ cs) : strip cs s = s := by
  have hl : lstrip cs s = s := lstrip_eq_self.2 fun a ha => h a (List.mem_of_mem_head? ha)
  rw [strip_eq, hl]
  exact rstrip_eq_self.2 fun a ha => h a (List.mem_of_mem_getLast? ha)

theorem dropMarker_ten (s : Str) : dropMarker 10 s = s := by
  unfold dropMarker
  split
  · simp
  · rfl

theorem mem_pyStr {n : ℤ} {c : Char} (h : c ∈ pyStr n) : c = '-' ∨ ∃ d < 10, c = Nat.digitChar d := by
  unfold pyStr at h
  split at h
  · rcases List.mem_cons.1 h with h | h
    · exact Or.inl h
    · exact Or.inr (exists_of_mem_decimal h)
  · exact Or.inr (exists_of_mem_decimal h)

theorem pyStr_spec {n : ℤ} {c : Char} (h : c ∈ pyStr n) :
    c ∉ intSpaces ∧ c ≠ ',' ∧ c ≠ '*' ∧ c.toNat < 128 := by
  rcases mem_pyStr h with rfl | ⟨d, hd, rfl⟩
  · decide
  · obtain ⟨-, -, hsp, hs, hasc⟩ := digitChar_spec d hd
    simp only [List.mem_cons, List.not_mem_nil, or_false, not_or] at hs
    exact ⟨hsp, hs.2.2.2.1, hs.2.2.2.2, hasc⟩

theorem pyInt_pyStr_eq (n : ℤ) :
    pyInt 10 (pyStr n) = if (decimal n.natAbs).length ≤ maxStrDigits then some n else none := by
  have hstrip : strip intSpaces (pyStr n) = pyStr n := strip_eq_self fun c hc => (pyStr_spec hc).1
  have hmag := magnitude_decimal n.natAbs
  rw [pyInt, hstrip]
  unfold pyStr
  by_cases hn : n < 0
  · simp only [if_pos hn, dropMarker_ten, hmag]
    split
    · refine congrArg some ?_
      show -(n.natAbs : ℤ) = n
      omega
    · rfl
  · obtain ⟨a, s, hs⟩ := List.exists_cons_of_ne_nil (show decimal n.natAbs ≠ [] from Nat.toDigits_ne_nil)
    obtain ⟨d, hd, ha⟩ := exists_of_mem_decimal (hs ▸ List.mem_cons_self : a ∈ decimal n.natAbs)
    obtain ⟨-, -, -, hsign, -⟩ := digitChar_spec d hd
    simp only [List.mem_cons, List.not_mem_nil, or_false, not_or, ← ha] at hsign
    rw [hs] at hmag
    simp only [if_neg hn, hs]
    split
    · rename_i heq
      exact absurd (List.cons.inj heq).1 hsign.1
    · rename_i heq
      exact absurd (List.cons.inj heq).1 hsign.2.1
    · rw [dropMarker_ten, hmag]
      split
      · refine congrArg some ?_
        show (n.natAbs : ℤ) = n
        omega
      · rfl

/-- **An integer is read back** when its digits are not too many for `int`. -/
theorem pyInt_pyStr {n : ℤ} (h : (decimal n.natAbs).length ≤ maxStrDigits) : pyInt 10 (pyStr n) = some n := by
  rw [pyInt_pyStr_eq, if_pos h]

theorem pyStr_natCast (n : ℕ) : pyStr n = decimal n := by
  rw [pyStr, if_neg (by omega), Int.natAbs_natCast]

/-! ### Two hexadecimal digits -/

/-- A hexadecimal digit, upper or lower case. -/
def hexChar (upper : Bool) (v : Fin 16) : Char :=
  if upper ∧ 10 ≤ v.val then Char.ofNat (v.val + 55) else Nat.digitChar v

/-- `format(n, "02X")` and `format(n, "02x")` of a byte -/
def hexPair (upper : Bool) (n : ℕ) : Str :=
  [hexChar upper (Fin.ofNat 16 (n / 16)), hexChar upper (Fin.ofNat 16 n)]

theorem hexChar_spec : ∀ upper v, hexChar upper v ∈ hexDigits ∧ hexVal (hexChar upper v) = v := by decide

/-- **A byte is read back.** -/
theorem pyInt_hexPair {upper : Bool} {n : ℕ} (h : n < 256) : pyInt 16 (hexPair upper n) = some (n : ℤ) := by
  obtain ⟨ha, hva⟩ := hexChar_spec upper (Fin.ofNat 16 (n / 16))
  obtain ⟨hb, hvb⟩ := hexChar_spec upper (Fin.ofNat 16 n)
  rw [hexPair, pyInt_hexDigits ha hb, hva, hvb, Fin.val_ofNat, Fin.val_ofNat]
  congr 2
  omega

theorem star_notMem_hexPair {upper : Bool} {n : ℕ} : '*' ∉ hexPair upper n := by
  have hstar : '*' ∉ hexDigits := by decide
  have hne : ∀ v, '*' ≠ hexChar upper v := fun v h => hstar (h ▸ (hexChar_spec upper v).1)
  simp [hexPair, hne]

end AisServer.Lib
