import Mathlib.Data.List.Basic

/-!
# A database file with a write-ahead log

A commit goes to the log; a checkpoint merges the commits at the front of the log into the main file.
Whoever reads both files sees every commit, whoever reads the main file alone sees those that were merged.

* `live_commit`, `live_checkpoint` — a commit takes effect at once, a checkpoint changes nothing;
* `main_eq_live_iff` — the main file alone is up to date exactly when the commits that still wait change
  nothing in it.
-/

namespace AisServer.Lib

variable {σ ω : Type}

/-- The main file and the commits that are in the log only, oldest first. -/
structure WalStore (σ ω : Type) where
  main : σ
  log : List ω := []

namespace WalStore

variable (apply : σ → ω → σ) (d : WalStore σ ω)

/-- What a reader of both files sees. -/
def live : σ := d.log.foldl apply d.main

def commit (w : ω) : WalStore σ ω := { d with log := d.log ++ [w] }

/-- The first `n` commits of the log are merged into the main file. -/
def checkpoint (n : ℕ) : WalStore σ ω :=
  { main := (d.log.take n).foldl apply d.main, log := d.log.drop n }

@[simp] theorem live_commit (w : ω) : (d.commit w).live apply = apply (d.live apply) w := by
  simp [live, commit]

@[simp] theorem live_checkpoint (n : ℕ) : (d.checkpoint apply n).live apply = d.live apply := by
  unfold live checkpoint
  rw [← List.foldl_append, List.take_append_drop]

theorem main_eq_live_iff : d.main = d.live apply ↔ d.log.foldl apply d.main = d.main := eq_comm

end WalStore

end AisServer.Lib
