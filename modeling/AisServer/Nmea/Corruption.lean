import AisServer.Nmea.Sentence
import Mathlib.Data.Nat.Bitwise

/-!
# A corrupted character

The exclusive or of a text tells any two texts apart that differ in one character (`xorOf_set_ne`).  What
the checksum covers is the text between the leading `!` and the last `*`, before and after a corruption of
that text, so a corrupted sentence is not accepted (`corruption_caught`).
-/

namespace AisServer.Nmea

open AisServer.Lib

theorem xorOf_append (a b : Str) : xorOf (a ++ b) = xorOf a ^^^ xorOf b := by
  have acc : ∀ (b : Str) (n : ℕ), b.foldl (fun cs ch => cs ^^^ ch.toNat) n = n ^^^ xorOf b := by
    intro b
    induction b with
    | nil => exact fun n => (Nat.xor_zero n).symm
    | cons c b ih =>
      intro n
      rw [xorOf, List.foldl_cons, List.foldl_cons, ih, ih, Nat.zero_xor, Nat.xor_assoc]
  rw [xorOf, List.foldl_append, acc]
  rfl

theorem xorOf_cons (a : Char) (b : Str) : xorOf (a :: b) = a.toNat ^^^ xorOf b := by
  rw [← List.singleton_append, xorOf_append]
  congr 1
  exact Nat.zero_xor _

theorem xorOf_set_ne {s : Str} {i : ℕ} {c : Char} (hi : i < s.length) (hc : s[i]? ≠ some c) :
    xorOf (s.set i c) ≠ xorOf s := by
  intro h
  obtain ⟨a, x, b, rfl, ha, hx⟩ : ∃ a x b, s = a ++ x :: b ∧ a.length = i ∧ s[i]? = some x :=
    ⟨s.take i, s[i], s.drop (i + 1),
      by rw [← List.drop_eq_getElem_cons hi, List.take_append_drop],
      List.length_take_of_le hi.le, List.getElem?_eq_getElem hi⟩
  subst ha
  rw [List.set_append_right _ _ le_rfl, Nat.sub_self, List.set_cons_zero, xorOf_append, xorOf_append,
    xorOf_cons, xorOf_cons, Nat.xor_right_inj, Nat.xor_left_inj, Char.toNat_inj] at h
  exact hc (hx.trans (congrArg some h.symm))

/-- **Every corruption of one character is caught**, between the leading `!` and the last `*`. -/
theorem corruption_caught {s : Str} {p : NmeaParse} {i : ℕ} {c : Char} (h : parse s = some p)
    (hok : p.checksumOk = true) (hi : 0 < i) (hstar : ∃ j, i < j ∧ s[j]? = some '*')
    (hc : s[i]? ≠ some c) :
    parse (s.set i c) = none ∨ ∃ q, parse (s.set i c) = some q ∧ q.checksumOk = false := by
  obtain ⟨k, rfl⟩ := Nat.exists_eq_add_of_le' hi
  obtain ⟨j, hj, hsj⟩ := hstar
  obtain ⟨t, -, body, checksum, hs, hck, hval, -⟩ := checked_of_parse h hok
  have hs : s = '!' :: ((t ++ ',' :: body) ++ '*' :: checksum) := by rw [hs]; simp
  generalize t ++ ',' :: body = core at hs hval
  -- the position lies in the text that the checksum covers
  have hk : k < core.length := by
    by_contra hk
    obtain ⟨l, rfl⟩ := Nat.exists_eq_add_of_lt hj
    rw [hs, show k + 1 + l + 1 = core.length + (k - core.length + l + 1) + 1 by omega,
      List.getElem?_cons_succ, List.getElem?_append_right (by omega)] at hsj
    rw [Nat.add_sub_cancel_left, List.getElem?_cons_succ] at hsj
    exact hck (List.mem_of_getElem? hsj)
  have hck' : core[k]? ≠ some c := by
    rwa [hs, List.getElem?_cons_succ, List.getElem?_append_left hk] at hc
  have hset : s.set (k + 1) c = '!' :: (core.set k c ++ '*' :: checksum) := by
    rw [hs, List.set_cons_succ, List.set_append_left _ _ hk]
  rcases hq : parse (s.set (k + 1) c) with _ | q
  · exact Or.inl rfl
  · refine Or.inr ⟨q, rfl, ?_⟩
    by_contra hokq
    obtain ⟨t', -, body', checksum', hs', hstar', hval', -⟩ :=
      checked_of_parse hq (Bool.not_eq_false _ ▸ hokq)
    -- the last `*` is where it was, and so is what it is compared with
    have hcut : rsplit1 '*' (s.set (k + 1) c) = some ('!' :: core.set k c, checksum) :=
      rsplit1_eq_some.2 ⟨hset, hck⟩
    have hcut' : rsplit1 '*' (s.set (k + 1) c) = some ('!' :: t' ++ ',' :: body', checksum') :=
      rsplit1_eq_some.2 ⟨hs', hstar'⟩
    rw [hcut, Option.some.injEq, Prod.mk.injEq, List.cons_append, List.cons.injEq] at hcut'
    obtain ⟨⟨-, hcore⟩, rfl⟩ := hcut'
    rw [← hcore, hval, Option.some.injEq, Int.natCast_inj] at hval'
    exact xorOf_set_ne hk hck' hval'.symm

/-- A corrupted comma of a sentence that is accepted. -/
theorem corruption_caught_comma : parse ("!AIVDM,1,1,,A,13aEOK?P00PD2wVMdLDRhgvL289?,0*26".toList.set 6 '*') = none ∨
    ∃ q, parse ("!AIVDM,1,1,,A,13aEOK?P00PD2wVMdLDRhgvL289?,0*26".toList.set 6 '*') = some q ∧
      q.checksumOk = false := by
  have hp : (parse "!AIVDM,1,1,,A,13aEOK?P00PD2wVMdLDRhgvL289?,0*26".toList).map (·.checksumOk) = some true := by
    decide +kernel
  obtain ⟨p, hp, hok⟩ := Option.map_eq_some_iff.1 hp
  exact corruption_caught hp hok (by decide) ⟨44, by decide, by decide +kernel⟩ (by decide +kernel)

end AisServer.Nmea
