import AisServer.Lib.Run
import AisServer.Lib.Wal
import AisServer.Store.Database

/-!
# Backups

`_make_backup_bytes` archives the main file of the database and the configuration.  The database is in WAL
mode: what was committed since the last checkpoint is in the `-wal` file, which is not archived.

* `backup_complete` — every archive holds the committed tables, exactly when no commit that still waits for
  a checkpoint makes a difference at a backup.
-/

namespace AisServer.Store

open AisServer.Lib

/-- The content of an archived file. -/
inductive File
  | database (t : Tables)
  | text (s : Str)
  deriving DecidableEq

/-- A `tar.gz`: the members by name. -/
abbrev Archive := List (Str × File)

/-- `cfg["paths"]["db"]` -/
def dbPath : Str := "/var/lib/ais-server/ais.db".toList

def configPath : Str := "/etc/ais-server/config.yaml".toList

/-- `Path(p).name` -/
def fileName (path : Str) : Str := ((path.splitOn '/').getLast?).getD []

/-- The files next to a running server, with the archives that were made and the tables that were
committed when they were. -/
structure Disk where
  db : WalStore Tables Statement
  config : Option Str := none
  committed : Tables
  backups : List (Archive × Tables) := []

inductive DiskEvent
  | write (st : Statement)
  /-- An automatic or a scheduled checkpoint merges the first commits of the log. -/
  | checkpoint (commits : ℕ)
  | backup

namespace Disk

variable (Q : Sqlite)

/-- The files of a server that opens the database. -/
def opened (d : WalStore Tables Statement) (config : Option Str) : Disk :=
  { db := d, config, committed := d.live (Statement.apply Q) }

/-- `_make_backup_bytes` -/
def makeBackup (s : Disk) : Archive :=
  (fileName dbPath, .database s.db.main) ::
    s.config.toList.map fun text => (fileName configPath, .text text)

/-- The database in an archive. -/
def restore (archive : Archive) : Option Tables :=
  match archive.lookup (fileName dbPath) with
  | some (.database t) => some t
  | _ => none

def step (s : Disk) : DiskEvent → Option Disk
  | .write st =>
    match st.exec Q s.committed with
    | none => some s
    | some committed => some { s with db := s.db.commit st, committed }
  | .checkpoint n => some { s with db := s.db.checkpoint (Statement.apply Q) n }
  | .backup => some { s with backups := s.backups ++ [(s.makeBackup, s.committed)] }

/-- Every archive holds the tables that were committed when it was made. -/
def BackupsComplete (s : Disk) : Prop := ∀ b ∈ s.backups, restore b.1 = some b.2

instance (s : Disk) : Decidable (BackupsComplete s) :=
  inferInstanceAs (Decidable (∀ b ∈ s.backups, restore b.1 = some b.2))

/-- At a backup the commits that wait in the `-wal` file leave the tables of the main file as they are. -/
def Settled (s : Disk) : DiskEvent → Prop
  | .backup => s.db.log.foldl (Statement.apply Q) s.db.main = s.db.main
  | _ => True

instance (s : Disk) : ∀ e, Decidable (Settled Q s e)
  | .backup => inferInstanceAs (Decidable (_ = _))
  | .write _ | .checkpoint _ => inferInstanceAs (Decidable True)

/-- A connection sees what was committed, and the archives made so far are complete. -/
structure Sound (s : Disk) : Prop where
  live : s.db.live (Statement.apply Q) = s.committed
  complete : BackupsComplete s

variable {Q} {s t : Disk} {e : DiskEvent}

theorem restore_makeBackup (s : Disk) : restore s.makeBackup = some s.db.main := by
  simp [restore, makeBackup]

theorem sound_opened (d : WalStore Tables Statement) (config : Option Str) :
    Sound Q (opened Q d config) where
  live := rfl
  complete := by simp [BackupsComplete, opened]

theorem Sound.step (hs : Sound Q s) (hc : Settled Q s e) (h : s.step Q e = some t) : Sound Q t := by
  cases e with
  | write st =>
    rw [Disk.step] at h
    rcases hex : st.exec Q s.committed with _ | committed
    · simp only [hex, Option.some.injEq] at h
      exact h ▸ hs
    · simp only [hex, Option.some.injEq] at h
      subst h
      refine ⟨?_, hs.complete⟩
      rw [WalStore.live_commit, hs.live]
      simp [Statement.apply, hex]
  | checkpoint n =>
    obtain rfl := Option.some.inj h
    exact ⟨(WalStore.live_checkpoint _ _ n).trans hs.live, hs.complete⟩
  | backup =>
    obtain rfl := Option.some.inj h
    refine ⟨hs.live, fun b hb => ?_⟩
    rcases List.mem_append.1 hb with hb | hb
    · exact hs.complete b hb
    · obtain rfl := List.mem_singleton.1 hb
      have hmain : s.db.main = s.committed :=
        ((WalStore.main_eq_live_iff _ _).2 hc).trans hs.live
      show restore s.makeBackup = some s.committed
      rw [restore_makeBackup, hmain]

/-- A backup at any other time leaves an archive without a committed change. -/
theorem not_complete_of_backup (hs : Sound Q s) (hc : ¬ Settled Q s .backup)
    (h : s.step Q .backup = some t) : ¬ BackupsComplete t := by
  obtain rfl := Option.some.inj h
  intro hall
  have hlast : restore s.makeBackup = some s.committed :=
    hall (s.makeBackup, s.committed) (List.mem_append_right _ (List.mem_singleton_self _))
  rw [restore_makeBackup, ← hs.live] at hlast
  exact hc ((WalStore.main_eq_live_iff _ _).1 (Option.some.inj hlast))

end Disk

/-- **Backups are complete.**  Whatever was in the files when the database was opened, every archive of a
run holds the tables that were committed when it was made, exactly when at every backup the commits that
wait for a checkpoint leave the tables of the main file as they are. -/
theorem backup_complete {Q : Sqlite} {d : WalStore Tables Statement} {config : Option Str}
    {es : List DiskEvent} {s : Disk} (h : run (Disk.step Q) (Disk.opened Q d config) es = some s) :
    Guarded (Disk.step Q) (Disk.Settled Q) (Disk.opened Q d config) es ↔
      ∀ fs, fs <+: es → ∀ t, run (Disk.step Q) (Disk.opened Q d config) fs = some t →
        t.BackupsComplete := by
  refine guarded_iff (I := Disk.Sound Q) (fun s e t hs hc hst => hs.step hc hst)
    (fun s hs => hs.complete) ?_ (Disk.sound_opened d config) h
  intro s e t hs hc hst
  cases e with
  | backup => exact Disk.not_complete_of_backup hs hc hst
  | write st => exact absurd trivial hc
  | checkpoint n => exact absurd trivial hc

/-- A new endpoint. -/
def newEndpoint : Statement :=
  .insertEndpoint (.text ['a']) (.text "tcp".toList) (.text ['h']) (.int 4001) .null true false 1700000000

theorem backup_complete_afterCheckpoint :
    ∃ s, run (Disk.step ⟨id, id⟩) (Disk.opened ⟨id, id⟩ { main := {} } none)
        [.write newEndpoint, .checkpoint 1, .backup] = some s ∧ s.BackupsComplete := by
  have hrun : (run (Disk.step ⟨id, id⟩) (Disk.opened ⟨id, id⟩ { main := {} } none)
      [.write newEndpoint, .checkpoint 1, .backup]).isSome = true := by decide +kernel
  obtain ⟨s, hs⟩ := Option.isSome_iff_exists.1 hrun
  exact ⟨s, hs, (backup_complete hs).1 (by decide +kernel) _ List.prefix_rfl s hs⟩

/-- An endpoint that was added since the last checkpoint is not in the archive. -/
theorem backup_complete_fails :
    ∃ s, run (Disk.step ⟨id, id⟩) (Disk.opened ⟨id, id⟩ { main := {} } none)
        [.write newEndpoint, .backup] = some s ∧ ¬ s.BackupsComplete := by
  have hrun : (run (Disk.step ⟨id, id⟩) (Disk.opened ⟨id, id⟩ { main := {} } none)
      [.write newEndpoint, .backup]).map (fun s => decide s.BackupsComplete) = some false := by
    decide +kernel
  obtain ⟨s, hs, hnot⟩ := Option.map_eq_some_iff.1 hrun
  exact ⟨s, hs, of_decide_eq_false hnot⟩

end AisServer.Store
