import AisServer.Lib.Decimal
import AisServer.Lib.Json
import AisServer.Lib.Sorted

/-!
# Saved backups

`backup` with `save=1` and `_prune_backups` of `web/api.py`, over a directory whose files may have any modification
time.  The order in which `glob` finds the files is a parameter.

* `mem_pruneBackups` — what stays when files are removed;
* `found_split` — the archive among the files that are found;
* `saved_backup_survives` — when the archive that was just written is among what stays.
-/

namespace AisServer.Store

open AisServer.Lib

variable {τ : Type}

/-- An entry of a directory, with its `st_mtime`. -/
structure Entry (τ : Type) where
  name : Str
  isFile : Bool
  mtime : τ
  content : List UInt8
  deriving DecidableEq

structure Directory (τ : Type) where
  entries : List (Entry τ)
  distinct : (entries.map (·.name)).Nodup

/-- The order in which the entries of a directory are found. -/
structure Scan (τ : Type) where
  order : List (Entry τ) → List (Entry τ)
  perm : ∀ entries, (order entries).Perm entries

def namePrefix : Str := "ais-server-backup-".toList

def nameSuffix : Str := ".tar.gz".toList

/-- `ais-server-backup-*.tar.gz` -/
def matchesPattern (name : Str) : Bool :=
  namePrefix.isPrefixOf name && nameSuffix.isSuffixOf (name.drop namePrefix.length)

/-- `f"ais-server-backup-{ts}.tar.gz"` -/
def backupName (ts : ℤ) : Str := namePrefix ++ pyStr ts ++ nameSuffix

/-- `path.unlink()` -/
def Directory.unlink (d : Directory τ) (name : Str) : Directory τ where
  entries := d.entries.filter (·.name ≠ name)
  distinct := d.distinct.sublist (List.filter_sublist.map _)

/-- What `write_bytes` comes to. -/
inductive Written
  | done
  /-- The file cannot be opened. -/
  | notOpened
  /-- The file has been opened, and the disk is full behind this much. -/
  | cut (bytes : ℕ)

/-- A regular file gets the content, and a new one is made where there is no entry. -/
def Directory.put (d : Directory τ) (name : Str) (mtime : τ) (content : List UInt8) : Directory τ where
  entries := d.entries.filter (·.name ≠ name) ++ [⟨name, true, mtime, content⟩]
  distinct := by
    rw [List.map_append, List.nodup_append]
    refine ⟨d.distinct.sublist (List.filter_sublist.map _), List.nodup_singleton _, ?_⟩
    rintro a ha b hb rfl
    obtain ⟨e, he, rfl⟩ := List.mem_map.1 ha
    obtain rfl : e.name = name := List.mem_singleton.1 hb
    simpa using (List.mem_filter.1 he).2

/-- An entry that is no regular file has the name. -/
def Directory.occupied (d : Directory τ) (name : Str) : Bool := d.entries.any fun e => e.name = name && !e.isFile

/-- `path.write_bytes(data)`, `none` for an `OSError` -/
def Directory.writeBytes (d : Directory τ) (outcome : Written) (name : Str) (mtime : τ) (data : List UInt8) :
    Option Unit × Directory τ :=
  if d.occupied name then (none, d)
  else
    match outcome with
    | .done => (some (), d.put name mtime data)
    | .notOpened => (none, d)
    | .cut bytes => (none, d.put name mtime (data.take bytes))

/-- What the calls of one request come to. -/
structure Saving (τ : Type) where
  /-- `_make_backup_bytes(cfg)` -/
  data : List UInt8
  /-- `int(time.time())` -/
  ts : ℤ
  /-- `request.args.get("save")` -/
  save : Option Str
  /-- `backup_dir.mkdir` does not raise. -/
  mkdir : Bool
  write : Written
  mtime : τ
  /-- `int((cfg.get("backups") or {}).get("retention", 14))` -/
  keep : Except PyErr ℤ
  scan : Scan τ
  /-- The files that can be removed. -/
  unlinks : Str → Bool

namespace Saving

variable (s : Saving τ)

/-- The regular files that `glob` finds. -/
def found (d : Directory τ) : List (Entry τ) :=
  ((s.scan.order d.entries).filter fun e => matchesPattern e.name).filter (·.isFile)

/-- `_prune_backups`, with the number of files removed. -/
def pruneBackups [LinearOrder τ] (d : Directory τ) (keep : ℤ) : ℕ × Directory τ :=
  if keep ≤ 0 then (0, d)
  else
    ((sortDesc (·.mtime) (s.found d)).drop keep.toNat).foldl
      (fun r old => if s.unlinks old.name then (r.1 + 1, r.2.unlink old.name) else r) (0, d)

/-- `backup`: the download and its name, and the directory afterwards. -/
def backup [LinearOrder τ] (d : Directory τ) : Except PyErr (Str × List UInt8) × Directory τ :=
  let fname := backupName s.ts
  let sent : Str × List UInt8 := (fname, s.data)
  if s.save ∈ ["1", "true", "yes"].map fun v => some v.toList then
    if s.mkdir then
      match d.writeBytes s.write fname s.mtime s.data with
      | (none, d) => (.ok sent, d)
      | (some (), d) =>
        match s.keep with
        | .error e => (.error e, d)
        | .ok keep => (.ok sent, (s.pruneBackups d keep).2)
    else (.ok sent, d)
  else (.ok sent, d)

end Saving

/-! ### What is removed -/

section Pruning

variable {d : Directory τ} {s : Saving τ} {e : Entry τ} {keep : ℤ} {name : Str}

theorem Directory.mem_unlink : e ∈ (d.unlink name).entries ↔ e ∈ d.entries ∧ e.name ≠ name := by
  simp [Directory.unlink]

theorem Directory.eq_of_name {e' : Entry τ} (h : e ∈ d.entries) (h' : e' ∈ d.entries) (hname : e.name = e'.name) :
    e = e' := List.inj_on_of_nodup_map d.distinct h h' hname

theorem mem_foldl_unlink (files : List (Entry τ)) (n : ℕ) (d : Directory τ) :
    e ∈ (files.foldl (fun r old => if s.unlinks old.name then (r.1 + 1, r.2.unlink old.name) else r) (n, d)).2.entries ↔
      e ∈ d.entries ∧ ∀ old ∈ files, s.unlinks old.name = true → e.name ≠ old.name := by
  induction files generalizing n d with
  | nil => simp
  | cons old files ih =>
    rw [List.foldl_cons, List.forall_mem_cons]
    by_cases hu : s.unlinks old.name = true
    · rw [if_pos hu, ih, Directory.mem_unlink]
      tauto
    · rw [if_neg hu, ih]
      tauto

theorem Saving.mem_found : e ∈ s.found d ↔ e ∈ d.entries ∧ matchesPattern e.name = true ∧ e.isFile = true := by
  rw [found, List.mem_filter, List.mem_filter, (s.scan.perm _).mem_iff, and_assoc]

theorem Saving.nodup_found (s : Saving τ) (d : Directory τ) : (s.found d).Nodup :=
  (((s.scan.perm _).nodup_iff.2 d.distinct.of_map).filter _).filter _

/-- **What stays** when every file can be removed: all but the files behind the first `keep`. -/
theorem Saving.mem_pruneBackups [LinearOrder τ] (hkeep : 1 ≤ keep) (hu : ∀ name, s.unlinks name = true) :
    e ∈ (s.pruneBackups d keep).2.entries ↔
      e ∈ d.entries ∧ e ∉ (sortDesc (·.mtime) (s.found d)).drop keep.toNat := by
  rw [pruneBackups, if_neg (by omega), mem_foldl_unlink]
  refine and_congr_right fun he => ⟨fun h hmem => h e hmem (hu _) rfl, fun h old hold _ hname => h ?_⟩
  have hold' := (Saving.mem_found.1 ((mem_sortDesc _).1 (List.mem_of_mem_drop hold))).1
  rwa [d.eq_of_name he hold' hname]

end Pruning

/-! ### The archive -/

namespace Saving

/-- The request is to save, and every call it makes succeeds. -/
structure Succeeds (s : Saving τ) (d : Directory τ) (keep : ℤ) : Prop where
  save : s.save ∈ ["1", "true", "yes"].map fun v => some v.toList
  mkdir : s.mkdir = true
  write : s.write = .done
  free : d.occupied (backupName s.ts) = false
  keep : s.keep = .ok keep
  unlinks : ∀ name, s.unlinks name = true

/-- The archive that is written. -/
def archive (s : Saving τ) : Entry τ := ⟨backupName s.ts, true, s.mtime, s.data⟩

/-- The directory with the archive in it. -/
def saved (s : Saving τ) (d : Directory τ) : Directory τ := d.put (backupName s.ts) s.mtime s.data

/-- The files that count as newer than the archive: those with a later time, and those with the same time that `glob`
finds first. -/
def ahead [LinearOrder τ] (s : Saving τ) (d : Directory τ) : ℕ :=
  ((s.found (s.saved d)).takeWhile (·.name ≠ backupName s.ts)).countP (s.mtime ≤ ·.mtime) +
    ((s.found (s.saved d)).dropWhile (·.name ≠ backupName s.ts)).countP (s.mtime < ·.mtime)

variable {s : Saving τ} {d : Directory τ} {e : Entry τ} {keep : ℤ}

theorem matchesPattern_backupName (ts : ℤ) : matchesPattern (backupName ts) = true := by
  unfold matchesPattern backupName
  rw [Bool.and_eq_true, List.isPrefixOf_iff_prefix, List.isSuffixOf_iff_suffix, List.append_assoc, List.drop_left]
  exact ⟨List.prefix_append .., List.suffix_append ..⟩

theorem mem_saved : e ∈ (s.saved d).entries ↔ (e ∈ d.entries ∧ e.name ≠ backupName s.ts) ∨ e = s.archive := by
  simp [saved, Directory.put, archive]

theorem archive_mem_saved : s.archive ∈ (s.saved d).entries := mem_saved.2 (Or.inr rfl)

theorem archive_mem_found : s.archive ∈ s.found (s.saved d) :=
  mem_found.2 ⟨archive_mem_saved, matchesPattern_backupName .., rfl⟩

/-- The files that are found around the archive. -/
theorem found_split [LinearOrder τ] (s : Saving τ) (d : Directory τ) :
    ∃ pre post, s.found (s.saved d) = pre ++ s.archive :: post ∧
      s.ahead d = pre.countP (s.mtime ≤ ·.mtime) + post.countP (s.mtime < ·.mtime) := by
  obtain ⟨pre, post, hfound⟩ := List.append_of_mem (s.archive_mem_found (d := d))
  have hnd := s.nodup_found (s.saved d)
  have hpre : ∀ e ∈ pre, decide (e.name ≠ backupName s.ts) = true := by
    intro e he
    rw [decide_eq_true_eq]
    intro hname
    have hmem := (mem_found (s := s) (d := s.saved d)).1 (hfound ▸ List.mem_append_left _ he)
    obtain rfl : e = s.archive := (s.saved d).eq_of_name hmem.1 archive_mem_saved hname
    rw [hfound] at hnd
    exact (List.nodup_append.1 hnd).2.2 _ he _ (List.mem_cons_self ..) rfl
  refine ⟨pre, post, hfound, ?_⟩
  unfold ahead
  rw [hfound, List.takeWhile_append_of_pos hpre, List.dropWhile_append_of_pos hpre,
    List.takeWhile_cons_of_neg (by simp [archive]), List.dropWhile_cons_of_neg (by simp [archive]), List.append_nil,
    List.countP_cons_of_neg (by simp [archive])]

theorem backup_of_succeeds [LinearOrder τ] (h : s.Succeeds d keep) :
    (s.backup d).2 = (s.pruneBackups (s.saved d) keep).2 := by
  unfold backup Directory.writeBytes
  simp only [h.save, h.mkdir, h.free, h.write, h.keep, if_true, Bool.false_eq_true, if_false]
  rfl

section Survival

variable [LinearOrder τ]

theorem archive_mem_backup (h : s.Succeeds d keep) (hkeep : 1 ≤ keep) :
    s.archive ∈ (s.backup d).2.entries ↔ s.ahead d < keep := by
  obtain ⟨pre, post, hfound, hahead⟩ := s.found_split d
  have hnd := s.nodup_found (s.saved d)
  rw [hfound] at hnd
  rw [backup_of_succeeds h, mem_pruneBackups hkeep h.unlinks, hfound, mem_drop_sortDesc _ hnd, hahead]
  have hpos : (keep.toNat : ℤ) = keep := Int.toNat_of_nonneg (by omega)
  constructor
  · rintro ⟨-, hlt⟩
    rw [Nat.not_le] at hlt
    exact hpos ▸ Int.ofNat_lt.2 hlt
  · exact fun hlt => ⟨archive_mem_saved, Nat.not_le.2 (Int.ofNat_lt.1 (hpos.symm ▸ hlt))⟩

theorem countP_backup_le (h : s.Succeeds d keep) (hkeep : 1 ≤ keep) :
    ((s.backup d).2.entries.countP fun e => matchesPattern e.name && e.isFile) ≤ keep := by
  have hsub : ((s.backup d).2.entries.filter fun e => matchesPattern e.name && e.isFile) ⊆
      (sortDesc (·.mtime) (s.found (s.saved d))).take keep.toNat := by
    intro e he
    obtain ⟨hmem, hmatch⟩ := List.mem_filter.1 he
    rw [Bool.and_eq_true] at hmatch
    rw [backup_of_succeeds h, mem_pruneBackups hkeep h.unlinks] at hmem
    have hfound : e ∈ sortDesc (·.mtime) (s.found (s.saved d)) :=
      (mem_sortDesc _).2 (mem_found.2 ⟨hmem.1, hmatch⟩)
    rw [← List.take_append_drop keep.toNat (sortDesc _ _)] at hfound
    exact (List.mem_append.1 hfound).resolve_right hmem.2
  have hnd : ((s.backup d).2.entries.filter fun e => matchesPattern e.name && e.isFile).Nodup :=
    (s.backup d).2.distinct.of_map.filter _
  have hlen := (List.subperm_of_subset hnd hsub).length_le
  rw [← List.countP_eq_length_filter, List.length_take] at hlen
  omega

theorem mem_backup_of_not_matches (h : s.Succeeds d keep) (hkeep : 1 ≤ keep) (he : matchesPattern e.name = false) :
    e ∈ (s.backup d).2.entries ↔ e ∈ d.entries := by
  have hne : e.name ≠ backupName s.ts := by
    intro hname
    rw [hname, matchesPattern_backupName] at he
    cases he
  have hnew : e ≠ s.archive := fun h => hne (h ▸ rfl)
  rw [backup_of_succeeds h, mem_pruneBackups hkeep h.unlinks, mem_saved]
  constructor
  · rintro ⟨⟨hmem, -⟩ | rfl, -⟩
    · exact hmem
    · exact absurd rfl hnew
  · refine fun hmem => ⟨Or.inl ⟨hmem, hne⟩, fun hdrop => ?_⟩
    rw [(mem_found.1 ((mem_sortDesc _).1 (List.mem_of_mem_drop hdrop))).2.1] at he
    cases he

/-- **A saved backup and its own pruning.**  The archive that was just written is still there exactly when fewer than
`keep` files count as newer; in any case at most `keep` files of the pattern remain, and no other file is touched. -/
theorem saved_backup_survives (s : Saving τ) (d : Directory τ) (keep : ℤ) (h : s.Succeeds d keep) (hkeep : 1 ≤ keep) :
    (s.archive ∈ (s.backup d).2.entries ↔ s.ahead d < keep) ∧
      ((s.backup d).2.entries.countP fun e => matchesPattern e.name && e.isFile) ≤ keep ∧
      ∀ e, matchesPattern e.name = false → (e ∈ (s.backup d).2.entries ↔ e ∈ d.entries) :=
  ⟨archive_mem_backup h hkeep, countP_backup_le h hkeep, fun _ he => mem_backup_of_not_matches h hkeep he⟩

end Survival

/-- A request of late 2023, with a retention of one. -/
def request : Saving ℕ where
  data := [31, 139]
  ts := 1700000000
  save := some "1".toList
  mkdir := true
  write := .done
  mtime := 1700000000
  keep := .ok 1
  scan := ⟨id, fun _ => .refl _⟩
  unlinks _ := true

/-- A directory with one archive. -/
def holding (ts : ℕ) : Directory ℕ := ⟨[⟨backupName ts, true, ts, []⟩], List.nodup_singleton _⟩

theorem succeeds_request (ts : ℕ) (h : (holding ts).occupied (backupName 1700000000) = false) :
    request.Succeeds (holding ts) 1 := ⟨by decide, rfl, rfl, h, rfl, fun _ => rfl⟩

/-- An archive of the day before makes room. -/
theorem saved_backup_survives_day : request.archive ∈ (request.backup (holding 1699913600)).2.entries :=
  (saved_backup_survives request _ 1 (succeeds_request 1699913600 (by decide +kernel)) le_rfl).1.2 (by decide +kernel)

/-- The clock was in 2033 once: the archive that was just written is removed. -/
theorem saved_backup_fails : request.Succeeds (holding 2000000000) 1 ∧
    request.archive ∉ (request.backup (holding 2000000000)).2.entries := by
  have h := succeeds_request 2000000000 (by decide +kernel)
  refine ⟨h, fun hmem => ?_⟩
  have hahead := (archive_mem_backup h le_rfl).1 hmem
  revert hahead
  decide +kernel

end Saving

end AisServer.Store
