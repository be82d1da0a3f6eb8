import AisServer.Config.Load
import AisServer.Lib.Crash
import AisServer.Lib.Run
import Mathlib.Logic.Function.Basic

/-!
# The key of the sessions

`_atomic_write_text`, `_ensure_secret_key` and `load_config` of `config.py` over a disk, with the errors of every call
as an input.  What a call has done is on the disk when the server crashes after it.

* `atomicWriteText_meets` — what a write leaves behind;
* `secretKeyOn_meets`, `loadConfigOn_meets` — where the key of a boot comes from;
* `loadConfigOn_refines` — a boot returns what `load_config` returns;
* `loadConfigOn_quiet` — a boot where no call raises returns;
* `Session.step_inv` — the keys of a session stay on the disk;
* `session_key_stable` — when all boots, crashed ones between them, have one key that is not empty.
-/

namespace AisServer.Config

open AisServer.Lib AisServer.Lib.Yaml

/-- The errors of the operating system. -/
inductive OsError
  | permission
  | other
  deriving DecidableEq

inductive LoadError
  | os (e : OsError)
  | py (e : PyErr)

/-- The texts of the files, as `read_text` gives them. -/
structure Disk where
  files : Str → Option Str

def Disk.set (d : Disk) (path : Str) (content : Option Str) : Disk := ⟨Function.update d.files path content⟩

abbrev Io (α : Type) := Prog Disk LoadError α

/-- A call that raises `fault`, or does `op`. -/
def osCall (fault : Option OsError) (op : Disk → Disk := id) : Io Unit :=
  .call fun d =>
    match fault with
    | some e => (.error (.os e), d)
    | none => (.ok (), op d)

/-! ### Writing a file -/

/-- What the calls of one write come to. -/
structure Faults where
  mkdir : Option OsError := none
  mkstemp : Option OsError := none
  fdopen : Option OsError := none
  write : Option OsError := none
  flush : Option OsError := none
  fsync : Option OsError := none
  close : Option OsError := none
  chmod : Option OsError := none
  replace : Option OsError := none
  unlink : Option OsError := none
  /-- How much of the text is in the file after `write`, after a `flush` that raises, and after the `close` that
  follows an error. -/
  spilled : ℕ := 0
  flushed : ℕ := 0
  closed : ℕ := 0
  /-- What `mkstemp` puts behind the prefix. -/
  suffix : Str := []

/-- The temporary file of a path. -/
def tmpPath (path suffix : Str) : Str := path ++ '.' :: suffix

/-- `mkstemp`: a new empty file. -/
def mkstemp (f : Faults) (path : Str) : Io Str :=
  .call fun d =>
    match f.mkstemp with
    | some e => (.error (.os e), d)
    | none =>
      if (d.files (tmpPath path f.suffix)).isSome then (.error (.os .other), d)
      else (.ok (tmpPath path f.suffix), d.set (tmpPath path f.suffix) (some []))

/-- A call that leaves this text in a file, whether it raises or not. -/
def putCall (fault : Option OsError) (path content : Str) : Io Unit :=
  .call fun d =>
    match fault with
    | some e => (.error (.os e), d.set path (some content))
    | none => (.ok (), d.set path (some content))

/-- `except OSError: pass` -/
def passOsError (p : Io Unit) : Io Unit :=
  try p catch
    | .os _ => pure ()
    | e => throw e

/-- `with os.fdopen(fd, "w") as fh`, which closes the file after an error, too. -/
def writeFile (f : Faults) (tmp content : Str) : Io Unit := do
  osCall f.fdopen
  try
    putCall f.write tmp (content.take f.spilled)
    putCall f.flush tmp (if f.flush.isSome then content.take f.flushed else content)
    passOsError (osCall f.fsync)
  catch e =>
    putCall f.close tmp (content.take f.closed)
    throw e
  osCall f.close

/-- `_atomic_write_text` -/
def atomicWriteText (f : Faults) (path content : Str) : Io Unit := do
  osCall f.mkdir
  let tmp ← mkstemp f path
  try
    writeFile f tmp content
    passOsError (osCall f.chmod)
    osCall f.replace fun d => (d.set path (d.files tmp)).set tmp none
  catch e =>
    passOsError (osCall f.unlink fun d => d.set tmp none)
    throw e

/-- The write has made its temporary file and cannot remove it. -/
def Leaks (f : Faults) (path : Str) (d : Disk) : Prop :=
  f.mkdir = none ∧ f.mkstemp = none ∧ d.files (tmpPath path f.suffix) = none ∧ f.unlink ≠ none

/-! ### Loading -/

/-- `secrets.token_urlsafe(48)` -/
structure Token where
  text : Str
  length : text.length = 64
  urlSafe : ∀ c ∈ text, c.isAlphanum = true ∨ c = '-' ∨ c = '_'

/-- What the calls of one `load_config` come to. -/
structure Boot where
  stat : Option OsError := none
  read : Option OsError := none
  write : Faults := {}
  logDir : Option OsError := none
  dbDir : Option OsError := none
  backupDir : Option OsError := none
  token : Token
  ephemeral : Token

/-- `secret_path.exists()` -/
def pathExists (b : Boot) (path : Str) : Io Bool :=
  .call fun d =>
    match b.stat with
    | some e => (.error (.os e), d)
    | none => (.ok (d.files path).isSome, d)

/-- `secret_path.read_text()` -/
def readText (b : Boot) (path : Str) : Io Str :=
  .call fun d =>
    match b.read, d.files path with
    | some e, _ => (.error (.os e), d)
    | none, some content => (.ok content, d)
    | none, none => (.error (.os .other), d)

/-- `except PermissionError` -/
def catchPermission {α : Type} (p : Io α) (handler : Io α) : Io α :=
  try p catch
    | .os .permission => handler
    | e => throw e

/-- The key that `_ensure_secret_key` puts in the configuration. -/
def secretKeyOn (b : Boot) (path : Str) : Io Str :=
  catchPermission
    (do
      if ← pathExists b path then
        let content ← readText b path
        pure (Lib.strip spaces content)
      else
        atomicWriteText b.write path b.token.text
        pure b.token.text)
    (pure b.ephemeral.text)

/-- A step that makes no call. -/
def compute {α : Type} (x : Except PyErr α) : Io α := Prog.lift (x.mapError .py)

/-- `_ensure_secret_key` -/
def ensureSecretKeyOn (b : Boot) (cfg : Dict YamlKey Yaml) : Io (Dict YamlKey Yaml) := do
  let web ← compute ((Yaml.dict cfg).index "web".toList)
  let configured ← compute (web.get "secret_key".toList)
  if configured.truthy then pure cfg
  else
    let paths ← compute ((Yaml.dict cfg).index "paths".toList)
    let secret ← compute (paths.index "secret".toList)
    let secretPath ← compute secret.asPath
    let key ← secretKeyOn b secretPath
    let web ← compute (web.set "secret_key".toList (.text key))
    pure (Dict.setItem cfg (.text "web".toList) web)

/-- `Path(cfg[section][key])` with its `mkdir`. -/
def ensureDirectoryOn (fault : Option OsError) (cfg : Dict YamlKey Yaml) (name key : Str) : Io Unit :=
  catchPermission
    (do
      compute (ensureDirectory cfg name key)
      osCall fault)
    (pure ())

/-- `load_config` -/
def loadConfigOn (b : Boot) (file : ConfigFile) : Io (Dict YamlKey Yaml) := do
  let cfg ← compute (deepMerge defaults file.contents)
  let cfg ← ensureSecretKeyOn b cfg
  ensureDirectoryOn b.logDir cfg "logging".toList "path".toList
  ensureDirectoryOn b.dbDir cfg "paths".toList "db".toList
  ensureDirectoryOn b.backupDir cfg "paths".toList "backup".toList
  pure cfg

/-! ### The disk -/

variable {d t : Disk} {path content suffix p : Str} {c c' : Option Str} {f : Faults} {b : Boot}

@[simp] theorem Disk.set_files_self (d : Disk) (path : Str) (c : Option Str) : (d.set path c).files path = c :=
  Function.update_self ..

theorem Disk.set_files_of_ne (h : p ≠ path) : (d.set path c).files p = d.files p :=
  Function.update_of_ne h ..

@[simp] theorem Disk.set_set (d : Disk) (path : Str) (c c' : Option Str) :
    (d.set path c).set path c' = d.set path c' := by
  simp [Disk.set]

theorem Disk.set_comm (h : p ≠ path) (c c' : Option Str) :
    (d.set path c).set p c' = (d.set p c').set path c := by
  unfold Disk.set
  rw [Function.update_comm h.symm]

theorem Disk.set_eq_self (h : d.files path = c) : d.set path c = d := by
  unfold Disk.set
  rw [← h, Function.update_eq_self]

theorem tmpPath_ne (path suffix : Str) : tmpPath path suffix ≠ path := by
  intro h
  have hlen := congrArg List.length h
  simp [tmpPath] at hlen

/-! ### The calls -/

section Calls

variable {fault : Option OsError} {op : Disk → Disk} {P : Unit → Disk → Prop} {E : LoadError → Disk → Prop}
  {C : Disk → Prop}

theorem osCall_meets (hok : fault = none → P () (op d) ∧ C (op d))
    (herr : ∀ e, fault = some e → E (.os e) d ∧ C d) : Prog.Meets (osCall fault op) d P E C := by
  cases fault with
  | none => exact .call_ok rfl (hok rfl).1 (hok rfl).2
  | some e => exact .call_error rfl (herr e rfl).1 (herr e rfl).2

theorem passOsError_meets {q : Io Unit} {E' : LoadError → Disk → Prop} (h : Prog.Meets q d P E C)
    (hos : ∀ e t, E (.os e) t → P () t) (hpy : ∀ e t, E (.py e) t → E' (.py e) t) :
    Prog.Meets (passOsError q) d P E' C := by
  refine .tryCatch h fun e t he => ?_
  cases e with
  | os e => exact .pure (hos e t he)
  | py e => exact .throw (hpy e t he)

theorem passOsError_osCall_meets (hok : P () d) (hcrash : C d) :
    Prog.Meets (passOsError (osCall fault)) d P E C :=
  passOsError_meets (E := fun e t => (∃ e', e = .os e') ∧ t = d)
    (osCall_meets (fun _ => ⟨hok, hcrash⟩) fun e _ => ⟨⟨⟨e, rfl⟩, rfl⟩, hcrash⟩)
    (fun _ _ ⟨_, ht⟩ => ht ▸ hok) fun _ _ ⟨⟨_, he⟩, _⟩ => by cases he

theorem osCall_id_meets (hok : P () d) (herr : ∀ e, E (.os e) d) (hcrash : C d) :
    Prog.Meets (osCall fault) d P E C :=
  osCall_meets (fun _ => ⟨hok, hcrash⟩) fun e _ => ⟨herr e, hcrash⟩

end Calls

/-- What is on the disk while the temporary file is there. -/
def Pending (d : Disk) (tmp : Str) (t : Disk) : Prop := ∃ c, t = d.set tmp (some c)

theorem putCall_meets {tmp : Str} {fault : Option OsError} (ht : Pending d tmp t) : Prog.Meets
    (putCall fault tmp content) t (fun _ u => u = d.set tmp (some content) ∧ fault = none) (fun _ u => Pending d tmp u)
    fun u => Pending d tmp u := by
  obtain ⟨c, rfl⟩ := ht
  have hput : Pending d tmp ((d.set tmp (some c)).set tmp (some content)) := ⟨content, Disk.set_set ..⟩
  cases fault with
  | none => exact .call_ok rfl ⟨Disk.set_set .., rfl⟩ hput
  | some e => exact .call_error rfl hput hput

theorem writeFile_meets (f : Faults) {tmp : Str} (ht : Pending d tmp t) : Prog.Meets (writeFile f tmp content) t
    (fun _ u => u = d.set tmp (some content)) (fun _ u => Pending d tmp u) (fun u => Pending d tmp u) := by
  have hwritten : Pending d tmp (d.set tmp (some content)) := ⟨content, rfl⟩
  refine .bind (osCall_id_meets (P := fun _ u => Pending d tmp u) ht (fun _ => ht) ht) fun _ u hu => ?_
  refine .bind (P := fun _ u => u = d.set tmp (some content))
    (.tryCatch (E := fun _ u => Pending d tmp u) ?_ fun e u hu => ?_) ?_
  · refine .bind (putCall_meets hu) fun _ u hu => ?_
    refine .bind (putCall_meets ⟨_, hu.1⟩) fun _ u hu => ?_
    obtain ⟨rfl, hflush⟩ := hu
    rw [hflush, Option.isSome_none, if_neg Bool.false_ne_true]
    exact passOsError_osCall_meets rfl hwritten
  · exact .bind (putCall_meets hu) fun _ u hu => .throw ⟨_, hu.1⟩
  · rintro - u rfl
    exact osCall_id_meets rfl (fun _ => hwritten) hwritten

/-- The part of the write that is cleaned up after. -/
theorem writeTmp_meets {tmp : Str} (hne : tmp ≠ path) (hfree : d.files tmp = none) (ht : Pending d tmp t) :
    Prog.Meets (do
      writeFile f tmp content
      passOsError (osCall f.chmod)
      osCall f.replace fun d => (d.set path (d.files tmp)).set tmp none) t
      (fun _ u => u = d.set path (some content)) (fun _ u => Pending d tmp u)
      (fun u => Pending d tmp u ∨ u = d.set path (some content)) := by
  have hwritten : Pending d tmp (d.set tmp (some content)) := ⟨content, rfl⟩
  refine .bind ((writeFile_meets f ht).mono (fun _ _ h => h) (fun _ _ h => h) fun _ => Or.inl) fun _ u hu => ?_
  subst hu
  refine .bind (passOsError_osCall_meets (P := fun _ u => u = d.set tmp (some content)) rfl (Or.inl hwritten))
    fun _ u hu => ?_
  subst hu
  have hdone : ((d.set tmp (some content)).set path ((d.set tmp (some content)).files tmp)).set tmp none =
      d.set path (some content) := by
    rw [Disk.set_files_self, Disk.set_comm hne.symm, Disk.set_set, Disk.set_comm hne, Disk.set_eq_self hfree]
  exact osCall_meets (fun _ => ⟨hdone, Or.inr hdone⟩) fun e _ => ⟨hwritten, Or.inl hwritten⟩

theorem mkstemp_meets (f : Faults) (path : Str) (d : Disk) : Prog.Meets (mkstemp f path) d
    (fun tmp u => tmp = tmpPath path f.suffix ∧ u = d.set (tmpPath path f.suffix) (some []) ∧ f.mkstemp = none ∧
      d.files (tmpPath path f.suffix) = none)
    (fun e u => u = d ∧ ((∃ e', f.mkstemp = some e' ∧ e = .os e') ∨
      d.files (tmpPath path f.suffix) ≠ none ∧ e = .os .other))
    (fun u => u = d ∨ Pending d (tmpPath path f.suffix) u) := by
  rcases hmk : f.mkstemp with _ | e
  · rcases hold : d.files (tmpPath path f.suffix) with _ | c
    · exact .call_ok (t := d.set (tmpPath path f.suffix) (some [])) (by simp only [hmk, hold]; rfl)
        ⟨rfl, rfl, rfl, rfl⟩ (Or.inr ⟨[], rfl⟩)
    · refine .call_error (t := d) (by simp only [hmk, hold]; rfl) ⟨rfl, Or.inr ⟨?_, rfl⟩⟩ (Or.inl rfl)
      exact Option.some_ne_none c
  · exact .call_error (t := d) (by simp only [hmk]) ⟨rfl, Or.inl ⟨e, rfl, rfl⟩⟩ (Or.inl rfl)

/-- **What a write leaves behind**: the text, or when it raises the disk as it was, unless the temporary file cannot be
removed; and where it crashes the target is as it was or has the whole text. -/
theorem atomicWriteText_meets (f : Faults) (path content : Str) (d : Disk) :
    Prog.Meets (atomicWriteText f path content) d (fun _ t => t = d.set path (some content))
      (fun _ t => (¬ Leaks f path d ∧ t = d) ∨ (Leaks f path d ∧ Pending d (tmpPath path f.suffix) t))
      (fun t => t = d ∨ Pending d (tmpPath path f.suffix) t ∨ t = d.set path (some content)) := by
  refine .bind (P := fun _ t => t = d ∧ f.mkdir = none)
    (osCall_meets (fun h => ⟨⟨rfl, h⟩, Or.inl rfl⟩) fun e he => ⟨Or.inl ⟨?_, rfl⟩, Or.inl rfl⟩) ?_
  · rintro ⟨h, -⟩
    rw [he] at h
    cases h
  rintro - t ⟨rfl, hmkdir⟩
  refine .bind ((mkstemp_meets f path t).mono (fun _ _ h => h) (fun _ u hu => Or.inl ⟨fun hl => ?_, hu.1⟩)
    fun u hu => hu.imp_right Or.inl) ?_
  · rcases hu.2 with ⟨e, he, -⟩ | ⟨hold, -⟩
    · rw [hl.2.1] at he
      cases he
    · exact hold hl.2.2.1
  rintro _ _ ⟨rfl, rfl, hmkstemp, hfree⟩
  have hclean : f.unlink = none → ¬ Leaks f path t := fun hu hl => hl.2.2.2 hu
  refine .tryCatch (E := fun _ u => Pending t (tmpPath path f.suffix) u)
    ((writeTmp_meets (tmpPath_ne path f.suffix) hfree ⟨[], rfl⟩).mono (fun _ _ h => h) (fun _ _ h => h)
      fun _ => Or.inr) ?_
  rintro e _ ⟨c, rfl⟩
  have hgone : (t.set (tmpPath path f.suffix) (some c)).set (tmpPath path f.suffix) none = t := by
    rw [Disk.set_set, Disk.set_eq_self hfree]
  refine .bind (P := fun _ u => (¬ Leaks f path t ∧ u = t) ∨
    (Leaks f path t ∧ Pending t (tmpPath path f.suffix) u)) (passOsError_meets (E := fun e u =>
      (∃ e', e = .os e') ∧ Leaks f path t ∧ Pending t (tmpPath path f.suffix) u) ?_ ?_ ?_) fun _ u hu => .throw hu
  · refine osCall_meets (fun hu => ⟨Or.inl ⟨hclean hu, hgone⟩, Or.inl hgone⟩) fun e' hu =>
      ⟨⟨⟨e', rfl⟩, ⟨hmkdir, hmkstemp, hfree, by simp [hu]⟩, c, rfl⟩, Or.inr (Or.inl ⟨c, rfl⟩)⟩
  · exact fun _ _ h => Or.inr h.2
  · rintro _ _ ⟨⟨_, he⟩, -⟩
    cases he

/-! ### The key of a boot -/

/-- The calls of a write whose errors are not passed over. -/
def Faults.raised (f : Faults) : List (Option OsError) :=
  [f.mkdir, f.mkstemp, f.fdopen, f.write, f.flush, f.close, f.replace]

/-- No call of the boot raises a `PermissionError`. -/
structure NoPermission (b : Boot) : Prop where
  stat : b.stat ≠ some .permission
  read : b.read ≠ some .permission
  write : some .permission ∉ b.write.raised

theorem atomicWriteText_raises (hno : some .permission ∉ f.raised) (path content : Str) (d : Disk) :
    Prog.Meets (atomicWriteText f path content) d (fun _ _ => True) (fun e _ => e ≠ .os .permission)
      fun _ => True := by
  have hcall : ∀ (fault : Option OsError) (op : Disk → Disk) (u : Disk), fault ∈ f.raised →
      Prog.Meets (osCall fault op) u (fun _ _ => True) (fun e _ => e ≠ .os .permission) fun _ => True := by
    intro fault op u hmem
    refine osCall_meets (fun _ => ⟨trivial, trivial⟩) fun e he => ⟨fun hperm => ?_, trivial⟩
    cases hperm
    exact hno (he ▸ hmem)
  have hput : ∀ (fault : Option OsError) (tmp text : Str) (u : Disk), fault ∈ f.raised →
      Prog.Meets (putCall fault tmp text) u (fun _ _ => True) (fun e _ => e ≠ .os .permission) fun _ => True := by
    intro fault tmp text u hmem
    cases fault with
    | none => exact .call_ok rfl trivial trivial
    | some e =>
      refine .call_error rfl (fun hperm => ?_) trivial
      cases hperm
      exact hno hmem
  refine .bind (hcall _ _ _ (by simp [Faults.raised])) fun _ u _ => ?_
  refine .bind (P := fun _ _ => True) ((mkstemp_meets f path u).mono (fun _ _ _ => trivial) ?_ fun _ _ => trivial)
    fun tmp u _ => ?_
  · rintro _ _ ⟨-, ⟨e, hmk, rfl⟩ | ⟨-, rfl⟩⟩ hperm
    · cases hperm
      exact hno (hmk ▸ by simp [Faults.raised])
    · cases hperm
  refine .tryCatch (E := fun e _ => e ≠ .os .permission) ?_ fun e u he =>
    .bind (P := fun _ _ => True) (passOsError_meets (E := fun e _ => ∃ e', e = .os e') ?_ (fun _ _ _ => trivial) ?_)
      fun _ _ _ => .throw he
  · refine .bind (P := fun _ _ => True) (.bind (hcall _ _ _ (by simp [Faults.raised])) fun _ u _ => ?_)
      fun _ u _ => ?_
    · refine .bind (P := fun _ _ => True) (.tryCatch (E := fun e _ => e ≠ .os .permission) ?_ fun e u he =>
        .bind (hput _ _ _ _ (by simp [Faults.raised])) fun _ _ _ => .throw he) fun _ u _ =>
          hcall _ _ _ (by simp [Faults.raised])
      refine .bind (hput _ _ _ _ (by simp [Faults.raised])) fun _ u _ => ?_
      refine .bind (hput _ _ _ _ (by simp [Faults.raised])) fun _ u _ => ?_
      exact passOsError_osCall_meets trivial trivial
    · refine .bind (passOsError_osCall_meets (P := fun _ _ => True) trivial trivial) fun _ u _ => ?_
      exact hcall _ _ _ (by simp [Faults.raised])
  · exact osCall_meets (fun _ => ⟨trivial, trivial⟩) fun e _ => ⟨⟨e, rfl⟩, trivial⟩
  · rintro _ _ ⟨_, he⟩
    cases he

theorem catchPermission_meets {α : Type} {q handler : Io α} {P : α → Disk → Prop} {E : LoadError → Disk → Prop}
    {C : Disk → Prop} (h : Prog.Meets q d P (fun e t => e ≠ .os .permission ∧ E e t) C) :
    Prog.Meets (catchPermission q handler) d P E C := by
  refine .tryCatch h fun e t he => ?_
  rcases e with (_ | _) | e
  · exact absurd rfl he.1
  · exact .throw he.2
  · exact .throw he.2

theorem Token.strip_text (token : Token) : Lib.strip spaces token.text = token.text ∧ token.text ≠ [] := by
  have hne : token.text ≠ [] := by
    intro h
    have hlen := token.length
    rw [h] at hlen
    cases hlen
  have hsp : ∀ c ∈ token.text, c ∉ spaces := by
    intro c hc hsp
    have hall : (spaces.all fun c => !c.isAlphanum && c ≠ '-' && c ≠ '_') = true := by decide
    have hspace := List.all_eq_true.1 hall c hsp
    simp only [Bool.and_eq_true, Bool.not_eq_true', decide_eq_true_eq] at hspace
    rcases token.urlSafe c hc with h | h | h
    · rw [h] at hspace
      exact absurd hspace.1.1 (by decide)
    · exact hspace.1.2 h
    · exact hspace.2 h
  refine ⟨?_, hne⟩
  rw [strip_eq, lstrip_eq_self.2 fun c hc => hsp c (List.mem_of_mem_head? hc),
    rstrip_eq_self.2 fun c hc => hsp c (List.mem_of_mem_getLast? hc)]

/-- The key is what is in the file afterwards, and that is what was there before or a new key. -/
def KeyOf (b : Boot) (path : Str) (d : Disk) (key : Str) (t : Disk) : Prop :=
  ∃ content, t.files path = some content ∧ key = Lib.strip spaces content ∧
    (d.files path = some content ∨ d.files path = none ∧ content = b.token.text)

/-- The file is as it was, or has a new key where it had none. -/
def KeptOf (b : Boot) (path : Str) (d t : Disk) : Prop :=
  t.files path = d.files path ∨ d.files path = none ∧ t.files path = some b.token.text

section Reading

variable {P : Bool → Disk → Prop} {Q : Str → Disk → Prop} {E : LoadError → Disk → Prop} {C : Disk → Prop}

theorem pathExists_meets (hok : P (d.files path).isSome d) (herr : ∀ e, b.stat = some e → E (.os e) d)
    (hcrash : C d) : Prog.Meets (pathExists b path) d P E C := by
  rcases hstat : b.stat with _ | e
  · exact .call_ok (by simp only [hstat]) hok hcrash
  · exact .call_error (by simp only [hstat]) (herr e hstat) hcrash

theorem readText_meets (hfile : d.files path = some content) (hok : Q content d)
    (herr : ∀ e, b.read = some e → E (.os e) d) (hcrash : C d) : Prog.Meets (readText b path) d Q E C := by
  rcases hread : b.read with _ | e
  · exact .call_ok (by simp only [hread, hfile]) hok hcrash
  · exact .call_error (by simp only [hread]) (herr e hread) hcrash

end Reading

theorem secretKeyOn_meets (hno : NoPermission b) (path : Str) (d : Disk) :
    Prog.Meets (secretKeyOn b path) d (fun key t => KeyOf b path d key t)
      (fun _ t => t.files path = d.files path) (fun t => KeptOf b path d t) := by
  refine catchPermission_meets (.bind (P := fun found t => t = d ∧ found = (d.files path).isSome)
    (pathExists_meets ⟨rfl, rfl⟩ (fun e hstat => ⟨fun hperm => ?_, rfl⟩) (Or.inl rfl)) ?_)
  · cases hperm
    exact hno.stat hstat
  rintro found t ⟨rfl, rfl⟩
  rcases hfile : t.files path with _ | content
  · rw [Option.isSome_none, if_neg Bool.false_ne_true]
    have hkept : ∀ u, KeptOf b path t u ↔ u.files path = none ∨ u.files path = some b.token.text := by
      intro u
      simp [KeptOf, hfile]
    have hpending : ∀ u, Pending t (tmpPath path b.write.suffix) u → u.files path = none := by
      rintro u ⟨c, rfl⟩
      rw [Disk.set_files_of_ne (tmpPath_ne _ _).symm, hfile]
    refine .bind (((atomicWriteText_meets b.write path b.token.text t).and
      (atomicWriteText_raises hno.write path b.token.text t)).mono (fun _ _ h => h.1)
      (fun e u h => ⟨h.2, ?_⟩) fun u h => (hkept u).2 ?_) fun _ u hu => .pure ?_
    · rcases h.1 with ⟨-, rfl⟩ | ⟨-, hu⟩
      · exact hfile
      · exact hpending u hu
    · rcases h.1 with rfl | hu | rfl
      · exact Or.inl hfile
      · exact Or.inl (hpending u hu)
      · exact Or.inr (Disk.set_files_self ..)
    · subst hu
      exact ⟨b.token.text, Disk.set_files_self .., b.token.strip_text.1.symm, Or.inr ⟨hfile, rfl⟩⟩
  · rw [Option.isSome_some, if_pos rfl]
    refine .bind (P := fun c u => u = t ∧ c = content)
      (readText_meets hfile ⟨rfl, rfl⟩ (fun e hread => ⟨fun hperm => ?_, hfile⟩) (Or.inl rfl)) ?_
    · cases hperm
      exact hno.read hread
    · rintro c u ⟨rfl, rfl⟩
      exact .pure ⟨c, hfile, rfl, Or.inl hfile⟩

/-! ### Loading -/

section Loading

variable {cfg cfg' merged web : Dict YamlKey Yaml} {file : ConfigFile} {name key : Str} {fault : Option OsError}

/-- A secret key is configured. -/
def configured (cfg : Dict YamlKey Yaml) : Bool := ((entry cfg "web".toList "secret_key".toList).getD .null).truthy

/-- The configuration with the key in it. -/
def withKey (cfg web : Dict YamlKey Yaml) (key : Str) : Dict YamlKey Yaml :=
  Dict.setItem cfg (.text "web".toList) (.dict (Dict.setItem web (.text "secret_key".toList) (.text key)))

theorem entry_withKey (cfg web : Dict YamlKey Yaml) (key : Str) :
    entry (withKey cfg web key) "web".toList "secret_key".toList = some (.text key) := by
  rw [withKey, entry_of_dict (by rw [Dict.getItem_setItem, if_pos rfl]), Dict.getItem_setItem, if_pos rfl]

theorem compute_ok {α β : Type} (a : α) (g : α → Io β) : (compute (.ok a) >>= g) = g a := rfl

theorem compute_error {α β : Type} (e : PyErr) (g : α → Io β) : (compute (.error e) >>= g) = throw (.py e) := rfl

theorem ensureSecretKeyOn_of_web (b : Boot) (hweb : Dict.getItem cfg (.text "web".toList) = some (.dict web)) :
    ensureSecretKeyOn b cfg =
      if configured cfg then pure cfg
      else
        compute ((Yaml.dict cfg).index "paths".toList) >>= fun paths =>
        compute (paths.index "secret".toList) >>= fun secret =>
        compute secret.asPath >>= fun secretPath =>
        secretKeyOn b secretPath >>= fun key => pure (withKey cfg web key) := by
  unfold ensureSecretKeyOn
  rw [index_eq_ok.2 ⟨cfg, rfl, hweb⟩, compute_ok, configured, entry_of_dict hweb]
  rfl

theorem ensureSecretKeyOn_of_path (b : Boot) (hweb : Dict.getItem cfg (.text "web".toList) = some (.dict web))
    (hconf : configured cfg = false) (hpath : entry cfg "paths".toList "secret".toList = some (.text path)) :
    ensureSecretKeyOn b cfg = secretKeyOn b path >>= fun key => pure (withKey cfg web key) := by
  obtain ⟨paths, hpaths, hsecret⟩ := bind_eq_ok.1 (index_index.2 hpath)
  rw [ensureSecretKeyOn_of_web b hweb, if_neg (by simp [hconf]), hpaths, compute_ok, hsecret, compute_ok]
  rfl

/-- `_ensure_secret_key` leaves a configuration with a key alone, gets a key, or raises before any call. -/
theorem ensureSecretKeyOn_cases (b : Boot) (cfg : Dict YamlKey Yaml) :
    (∃ web, Dict.getItem cfg (.text "web".toList) = some (.dict web) ∧ configured cfg = true ∧
      ensureSecretKeyOn b cfg = pure cfg) ∨
    (∃ web path, Dict.getItem cfg (.text "web".toList) = some (.dict web) ∧ configured cfg = false ∧
      entry cfg "paths".toList "secret".toList = some (.text path) ∧
      ensureSecretKeyOn b cfg = secretKeyOn b path >>= fun key => pure (withKey cfg web key)) ∨
    ∃ e, ensureSecretKeyOn b cfg = throw (.py e) := by
  rcases hindex : (Yaml.dict cfg).index "web".toList with e | v
  · refine Or.inr (Or.inr ⟨e, ?_⟩)
    rw [ensureSecretKeyOn, hindex, compute_error]
  obtain ⟨_, hcfg, hitem⟩ := index_eq_ok.1 hindex
  cases hcfg
  cases v with
  | dict web =>
    by_cases htruthy : configured cfg = true
    · refine Or.inl ⟨web, hitem, htruthy, ?_⟩
      rw [ensureSecretKeyOn_of_web b hitem, if_pos htruthy]
    · rcases hpaths : (Yaml.dict cfg).index "paths".toList with e | paths
      · refine Or.inr (Or.inr ⟨e, ?_⟩)
        rw [ensureSecretKeyOn_of_web b hitem, if_neg htruthy, hpaths, compute_error]
      rcases hsecret : paths.index "secret".toList with e | secret
      · refine Or.inr (Or.inr ⟨e, ?_⟩)
        rw [ensureSecretKeyOn_of_web b hitem, if_neg htruthy, hpaths, compute_ok, hsecret, compute_error]
      rcases hpath : secret.asPath with e | path
      · refine Or.inr (Or.inr ⟨e, ?_⟩)
        rw [ensureSecretKeyOn_of_web b hitem, if_neg htruthy, hpaths, compute_ok, hsecret, compute_ok, hpath,
          compute_error]
      obtain rfl := asPath_eq_ok.1 hpath
      have hconf := Bool.eq_false_iff.2 htruthy
      have hentry := index_index.1 (bind_eq_ok.2 ⟨paths, hpaths, hsecret⟩)
      exact Or.inr (Or.inl ⟨web, path, hitem, hconf, hentry, ensureSecretKeyOn_of_path b hitem hconf hentry⟩)
  | _ =>
    refine Or.inr (Or.inr ⟨.attribute, ?_⟩)
    rw [ensureSecretKeyOn, hindex, compute_ok]
    rfl

theorem ensureDirectoryOn_meets (fault : Option OsError) (cfg : Dict YamlKey Yaml) (name key : Str) (d : Disk) :
    Prog.Meets (ensureDirectoryOn fault cfg name key) d
      (fun _ t => t = d ∧ ∃ x ∈ entry cfg name key, x.isText = true) (fun _ t => t = d) (fun t => t = d) := by
  unfold ensureDirectoryOn
  rcases hdir : ensureDirectory cfg name key with e | u
  · exact .tryCatch (E := fun e t => (∃ e', e = .py e') ∧ t = d) (.throw ⟨⟨e, rfl⟩, rfl⟩) fun _ t ⟨⟨_, he⟩, ht⟩ =>
      he ▸ .throw ht
  · have htext := ensureDirectory_ok.1 hdir
    refine .tryCatch (E := fun _ t => t = d) ?_ fun e t ht => ?_
    · exact osCall_id_meets ⟨rfl, htext⟩ (fun _ => rfl) rfl
    · rcases e with (_ | _) | e
      · exact .pure ⟨ht, htext⟩
      · exact .throw ht
      · exact .throw ht

/-- The file gives a configuration: it can be merged, with a mapping `web`, text for the directories, and for the path
of the secret where no key is configured. -/
structure Readable (file : ConfigFile) (merged : Dict YamlKey Yaml) : Prop where
  merge : deepMerge defaults file.contents = .ok merged
  web : ∃ web, Dict.getItem merged (.text "web".toList) = some (.dict web)
  secret : configured merged = true ∨ ∃ path, entry merged "paths".toList "secret".toList = some (.text path)
  directories : ∀ p ∈ directories, ∃ x ∈ entry merged p.1.toList p.2.toList, x.isText = true

theorem Readable.unique {merged' : Dict YamlKey Yaml} (h : Readable file merged) (h' : Readable file merged') :
    merged = merged' := Except.ok.inj (h.merge.symm.trans h'.merge)

/-- The configuration of a boot: the one of the file, or with the key of the boot in it. -/
def KeyFrom (b : Boot) (merged : Dict YamlKey Yaml) (d : Disk) (cfg : Dict YamlKey Yaml) (t : Disk) : Prop :=
  (configured merged = true ∧ cfg = merged) ∨
  (configured merged = false ∧ ∃ web path key, Dict.getItem merged (.text "web".toList) = some (.dict web) ∧
    entry merged "paths".toList "secret".toList = some (.text path) ∧ cfg = withKey merged web key ∧
    KeyOf b path d key t)

/-- What a boot that does not return leaves of the file of the secret. -/
def KeptBy (b : Boot) (file : ConfigFile) (d t : Disk) : Prop :=
  ∀ merged path, Readable file merged → configured merged = false →
    entry merged "paths".toList "secret".toList = some (.text path) → KeptOf b path d t

theorem KeptBy.refl (b : Boot) (file : ConfigFile) (d : Disk) : KeptBy b file d d := fun _ _ _ _ _ => Or.inl rfl

theorem entry_withKey_of_ne (hne : name ≠ "web".toList) (cfg web : Dict YamlKey Yaml) (k : Str) :
    entry (withKey cfg web k) name key = entry cfg name key := by
  unfold entry withKey
  rw [Dict.getItem_setItem, if_neg fun h => hne (YamlKey.text.inj h).symm]

theorem entry_keyFrom (h : KeyFrom b merged d cfg t) (hne : name ≠ "web".toList) :
    entry cfg name key = entry merged name key := by
  obtain ⟨-, rfl⟩ | ⟨-, web, path, k, -, -, rfl, -⟩ := h
  · rfl
  · exact entry_withKey_of_ne hne ..

/-- What is left when a configuration with its key is not returned after all. -/
theorem KeyFrom.kept (h : KeyFrom b merged d cfg t) (hmerge : deepMerge defaults file.contents = .ok merged) :
    KeptBy b file d t := by
  intro merged' path hr hconf hpath
  obtain rfl : merged = merged' := Except.ok.inj (hmerge.symm.trans hr.merge)
  obtain ⟨htrue, -⟩ | ⟨-, web, path', key, -, hpath', -, content, hfile, -, hold⟩ := h
  · rw [hconf] at htrue
    cases htrue
  · rw [hpath] at hpath'
    cases hpath'
    rcases hold with hold | ⟨hnone, rfl⟩
    · exact Or.inl (hfile.trans hold.symm)
    · exact Or.inr ⟨hnone, hfile⟩

theorem ensureSecretKeyOn_meets (hno : NoPermission b) (hmerge : deepMerge defaults file.contents = .ok merged)
    (d : Disk) : Prog.Meets (ensureSecretKeyOn b merged) d
      (fun cfg t => KeyFrom b merged d cfg t ∧ (∃ web, Dict.getItem merged (.text "web".toList) = some (.dict web)) ∧
        (configured merged = true ∨ ∃ path, entry merged "paths".toList "secret".toList = some (.text path)))
      (fun _ t => KeptBy b file d t) (fun t => KeptBy b file d t) := by
  rcases ensureSecretKeyOn_cases b merged with ⟨web, hweb, hconf, heq⟩ | ⟨web, path, hweb, hconf, hpath, heq⟩ | ⟨e, heq⟩
  · rw [heq]
    exact .pure ⟨Or.inl ⟨hconf, rfl⟩, ⟨web, hweb⟩, Or.inl hconf⟩
  · have hkept : ∀ t, KeptOf b path d t → KeptBy b file d t := by
      intro t ht merged' path' hr _ hpath'
      obtain rfl : merged = merged' := Except.ok.inj (hmerge.symm.trans hr.merge)
      rw [hpath] at hpath'
      cases hpath'
      exact ht
    rw [heq]
    refine .bind ((secretKeyOn_meets hno path d).mono (fun _ _ h => h) (fun _ t h => hkept t (Or.inl h)) hkept) ?_
    exact fun key t hkey =>
      .pure ⟨Or.inr ⟨hconf, web, path, key, hweb, hpath, rfl, hkey⟩, ⟨web, hweb⟩, Or.inr ⟨path, hpath⟩⟩
  · rw [heq]
    exact .throw (.refl b file d)

/-- **Where the key of a boot comes from**, and what a boot leaves of the file of the secret that does not return. -/
theorem loadConfigOn_meets (hno : NoPermission b) (file : ConfigFile) (d : Disk) :
    Prog.Meets (loadConfigOn b file) d (fun cfg t => ∃ merged, Readable file merged ∧ KeyFrom b merged d cfg t)
      (fun _ t => KeptBy b file d t) (fun t => KeptBy b file d t) := by
  unfold loadConfigOn
  rcases hmerge : deepMerge defaults file.contents with e | merged
  · rw [compute_error]
    exact .throw (.refl b file d)
  rw [compute_ok]
  refine .bind (ensureSecretKeyOn_meets hno hmerge d) ?_
  rintro cfg t ⟨hkey, hweb, hsecret⟩
  have hkept := hkey.kept hmerge
  have hdir : ∀ (fault : Option OsError) (name key : Str), Prog.Meets (ensureDirectoryOn fault cfg name key) t
      (fun _ u => u = t ∧ ∃ x ∈ entry cfg name key, x.isText = true) (fun _ u => KeptBy b file d u)
      fun u => KeptBy b file d u := fun fault name key =>
    (ensureDirectoryOn_meets fault cfg name key t).mono (fun _ _ h => h) (fun _ _ h => h ▸ hkept) fun _ h => h ▸ hkept
  refine .bind (hdir ..) ?_
  rintro - _ ⟨rfl, hlog⟩
  refine .bind (hdir ..) ?_
  rintro - _ ⟨rfl, hdb⟩
  refine .bind (hdir ..) ?_
  rintro - _ ⟨rfl, hbackup⟩
  refine .pure ⟨merged, ⟨hmerge, hweb, hsecret, fun p hp => ?_⟩, hkey⟩
  rw [← entry_keyFrom hkey (directories_defaults hp).1]
  simp only [directories, List.mem_cons, List.not_mem_nil, or_false] at hp
  rcases hp with rfl | rfl | rfl
  · exact hlog
  · exact hdb
  · exact hbackup

/-- A file system that answers nothing, with this key of the developer mode. -/
def keyed (key : Str) : Host := ⟨fun _ => none, fun _ => none, fun _ _ => none, [], key⟩

/-- What a boot returns is what `load_config` returns with the key of the boot. -/
theorem loadConfigOn_refines (hno : NoPermission b) (h : (loadConfigOn b file d).value = .ok cfg) :
    ∃ key, loadConfig (keyed key) file = .ok cfg := by
  obtain ⟨merged, hr, hkey⟩ := (loadConfigOn_meets hno file d).ok cfg h
  have hdirs : ∀ p ∈ directories, ∃ x ∈ entry cfg p.1.toList p.2.toList, x.isText = true := by
    intro p hp
    rw [entry_keyFrom hkey (directories_defaults hp).1]
    exact hr.directories p hp
  obtain ⟨hconf, rfl⟩ | ⟨hconf, web, path, key, hweb, hpath, rfl, -⟩ := hkey
  · obtain ⟨web, hweb⟩ := hr.web
    exact ⟨[], loadConfig_eq_ok.2 ⟨cfg, hr.merge, ensureSecretKey_ok.2 ⟨web, hweb, Or.inl ⟨hconf, rfl⟩⟩, hdirs⟩⟩
  · exact ⟨key, loadConfig_eq_ok.2 ⟨merged, hr.merge,
      ensureSecretKey_ok.2 ⟨web, hweb, Or.inr ⟨hconf, path, hpath, rfl⟩⟩, hdirs⟩⟩

theorem noPermission_quiet (token ephemeral : Token) : NoPermission { token, ephemeral } :=
  ⟨by simp, by simp, by simp [Faults.raised]⟩

/-- The key that is stored is read when no call raises. -/
theorem secretKeyOn_quiet (token ephemeral : Token) (hfile : d.files path = some content) :
    Prog.Meets (secretKeyOn { token, ephemeral } path) d (fun _ _ => True) (fun _ _ => False) fun _ => True := by
  refine .tryCatch (E := fun _ _ => False) ?_ fun _ _ h => h.elim
  refine .bind (P := fun found t => found = true ∧ t = d)
    (pathExists_meets ⟨by rw [hfile]; rfl, rfl⟩ (fun _ hstat => by cases hstat) trivial) ?_
  rintro _ _ ⟨rfl, rfl⟩
  rw [if_pos rfl]
  exact .bind (P := fun _ _ => True) (readText_meets hfile trivial (fun _ hread => by cases hread) trivial)
    fun _ _ _ => .pure trivial

theorem ensureDirectoryOn_quiet (h : ∃ x ∈ entry cfg name key, x.isText = true) (d : Disk) :
    Prog.Meets (ensureDirectoryOn none cfg name key) d (fun _ _ => True) (fun _ _ => False) fun _ => True := by
  refine .tryCatch (E := fun _ _ => False) ?_ fun _ _ h => h.elim
  rw [ensureDirectory_ok.2 h, compute_ok]
  exact osCall_meets (fun _ => ⟨trivial, trivial⟩) fun e he => by cases he

/-- A boot where no call raises, and where a key is configured or stored. -/
theorem loadConfigOn_quiet (token ephemeral : Token) (hr : Readable file merged) (d : Disk)
    (hkey : configured merged = true ∨
      ∀ path, entry merged "paths".toList "secret".toList = some (.text path) → d.files path ≠ none) :
    ∃ cfg, (loadConfigOn { token, ephemeral } file d).value = .ok cfg := by
  have hensure : Prog.Meets (ensureSecretKeyOn { token, ephemeral } merged) d
      (fun cfg _ => ∀ p ∈ directories, ∃ x ∈ entry cfg p.1.toList p.2.toList, x.isText = true) (fun _ _ => False)
      fun _ => True := by
    obtain ⟨web, hweb⟩ := hr.web
    by_cases hconf : configured merged = true
    · rw [ensureSecretKeyOn_of_web _ hweb, if_pos hconf]
      exact .pure hr.directories
    · obtain ⟨path, hpath⟩ := hr.secret.resolve_left hconf
      obtain ⟨content, hfile⟩ := Option.ne_none_iff_exists'.1 (hkey.resolve_left hconf path hpath)
      rw [ensureSecretKeyOn_of_path _ hweb (Bool.eq_false_iff.2 hconf) hpath]
      refine .bind (secretKeyOn_quiet token ephemeral hfile) fun k _ _ => .pure fun p hp => ?_
      rw [entry_withKey_of_ne (directories_defaults hp).1]
      exact hr.directories p hp
  have hmeets : Prog.Meets (loadConfigOn { token, ephemeral } file) d (fun _ _ => True) (fun _ _ => False)
      fun _ => True := by
    unfold loadConfigOn
    rw [hr.merge, compute_ok]
    refine .bind hensure fun cfg t hdirs => ?_
    simp only [directories, List.forall_mem_cons] at hdirs
    obtain ⟨hlog, hdb, hbackup, -⟩ := hdirs
    refine .bind (ensureDirectoryOn_quiet hlog t) fun _ u _ => ?_
    refine .bind (ensureDirectoryOn_quiet hdb u) fun _ u _ => ?_
    exact .bind (ensureDirectoryOn_quiet hbackup u) fun _ u _ => .pure trivial
  rcases hv : (loadConfigOn { token, ephemeral } file d).value with e | cfg
  · exact (hmeets.err e hv).elim
  · exact ⟨cfg, rfl⟩

end Loading

/-! ### Boots one after the other -/

/-- The disk, and the keys of the configurations that have been returned. -/
structure Session where
  disk : Disk
  keys : List (Option Yaml)

inductive Event
  | boot (b : Boot)
  /-- The server crashes when `load_config` has made this many calls. -/
  | crash (b : Boot) (calls : ℕ)

def Event.boots : Event → Boot
  | boot b => b
  | crash b _ => b

/-- `cfg["web"]["secret_key"]` -/
def keyOf (cfg : Dict YamlKey Yaml) : Option Yaml := entry cfg "web".toList "secret_key".toList

def Session.step (file : ConfigFile) (s : Session) : Event → Option Session
  | .boot b =>
    let o := loadConfigOn b file s.disk
    some ⟨o.state, match o.value with
      | .ok cfg => keyOf cfg :: s.keys
      | .error _ => s.keys⟩
  | .crash b calls => ((s.disk :: (loadConfigOn b file s.disk).passed)[calls]?).map fun d => ⟨d, s.keys⟩

/-- All boots from here on have one key, and it is not empty. -/
def Stable (file : ConfigFile) (disk : Disk) : Prop :=
  ∀ es s, (∀ e ∈ es, NoPermission e.boots) → run (Session.step file) ⟨disk, []⟩ es = some s →
    ∃ key ≠ [], ∀ k ∈ s.keys, k = some (.text key)

/-- A key that is configured is text, and where none is, the file of the secret holds more than white space, if it is
there. -/
structure KeyCond (merged : Dict YamlKey Yaml) (disk : Disk) : Prop where
  text : configured merged = true → ∃ key, keyOf merged = some (.text key)
  stored : configured merged = false → ∀ path, entry merged "paths".toList "secret".toList = some (.text path) →
    ∀ content ∈ disk.files path, Lib.strip spaces content ≠ []

section Sessions

variable {file : ConfigFile} {merged cfg : Dict YamlKey Yaml} {disk : Disk} {s s' : Session} {k : Option Yaml}

/-- The key is that of the file, or that on the disk. -/
def KeyHere (file : ConfigFile) (disk : Disk) (k : Option Yaml) : Prop :=
  ∃ merged, Readable file merged ∧ (configured merged = true ∧ k = keyOf merged ∨
    configured merged = false ∧ ∃ path content, entry merged "paths".toList "secret".toList = some (.text path) ∧
      disk.files path = some content ∧ k = some (.text (Lib.strip spaces content)))

/-- Every key of the session is still here, and the condition holds of the disk. -/
structure Session.Inv (file : ConfigFile) (s : Session) : Prop where
  here : ∀ k ∈ s.keys, KeyHere file s.disk k
  cond : ∀ merged, Readable file merged → KeyCond merged s.disk

theorem KeyHere.kept (h : KeyHere file d k) (ht : KeptBy b file d t) : KeyHere file t k := by
  obtain ⟨merged, hr, ⟨hconf, rfl⟩ | ⟨hconf, path, content, hpath, hfile, rfl⟩⟩ := h
  · exact ⟨merged, hr, Or.inl ⟨hconf, rfl⟩⟩
  · refine ⟨merged, hr, Or.inr ⟨hconf, path, content, hpath, ?_, rfl⟩⟩
    rcases ht merged path hr hconf hpath with hsame | ⟨hnone, -⟩
    · exact hsame.trans hfile
    · rw [hfile] at hnone
      cases hnone

theorem KeyCond.kept (h : KeyCond merged d) (hr : Readable file merged) (ht : KeptBy b file d t) :
    KeyCond merged t where
  text := h.text
  stored hconf path hpath content hcontent := by
    rcases ht merged path hr hconf hpath with hsame | ⟨-, htoken⟩
    · exact h.stored hconf path hpath content (hsame ▸ hcontent)
    · rw [htoken] at hcontent
      cases hcontent
      rw [b.token.strip_text.1]
      exact b.token.strip_text.2

theorem Session.Inv.kept (h : s.Inv file) (ht : KeptBy b file s.disk t) : Session.Inv file ⟨t, s.keys⟩ where
  here k hk := (h.here k hk).kept ht
  cond merged hr := (h.cond merged hr).kept hr ht

theorem KeyFrom.keyHere (h : KeyFrom b merged d cfg t) (hr : Readable file merged) : KeyHere file t (keyOf cfg) := by
  obtain ⟨hconf, rfl⟩ | ⟨hconf, web, path, key, -, hpath, rfl, content, hfile, rfl, -⟩ := h
  · exact ⟨cfg, hr, Or.inl ⟨hconf, rfl⟩⟩
  · exact ⟨merged, hr, Or.inr ⟨hconf, path, content, hpath, hfile, entry_withKey ..⟩⟩

theorem Session.step_inv (file : ConfigFile) (s : Session) (e : Event) (s' : Session) (h : s.Inv file)
    (hno : NoPermission e.boots) (hs : Session.step file s e = some s') : s'.Inv file := by
  have hmeets := loadConfigOn_meets hno file s.disk
  cases e with
  | boot b =>
    cases hs
    rcases hv : (loadConfigOn b file s.disk).value with e | cfg
    · exact h.kept (hmeets.err e hv)
    · obtain ⟨merged, hr, hkey⟩ := hmeets.ok cfg hv
      have hkept := h.kept (hkey.kept hr.merge)
      exact ⟨List.forall_mem_cons.2 ⟨hkey.keyHere hr, hkept.here⟩, hkept.cond⟩
  | crash b calls =>
    obtain ⟨t, ht, rfl⟩ := Option.map_eq_some_iff.1 hs
    refine h.kept (b := b) ?_
    rcases List.mem_cons.1 (List.mem_of_getElem? ht) with rfl | ht
    · exact .refl b file _
    · exact hmeets.crash t ht

theorem KeyHere.unique {k' : Option Yaml} (h : KeyHere file disk k) (h' : KeyHere file disk k') : k = k' := by
  obtain ⟨merged, hr, h⟩ := h
  obtain ⟨merged', hr', h'⟩ := h'
  obtain rfl := hr.unique hr'
  rcases h with ⟨hconf, rfl⟩ | ⟨hconf, path, content, hpath, hfile, rfl⟩ <;>
    rcases h' with ⟨hconf', rfl⟩ | ⟨hconf', path', content', hpath', hfile', rfl⟩
  · rfl
  · rw [hconf] at hconf'
    cases hconf'
  · rw [hconf] at hconf'
    cases hconf'
  · obtain rfl : path = path' := by simpa using hpath.symm.trans hpath'
    obtain rfl : content = content' := by simpa using hfile.symm.trans hfile'
    rfl

theorem KeyHere.text (h : KeyHere file disk k) (hc : ∀ merged, Readable file merged → KeyCond merged disk) :
    ∃ key ≠ [], k = some (.text key) := by
  obtain ⟨merged, hr, ⟨hconf, rfl⟩ | ⟨hconf, path, content, hpath, hfile, rfl⟩⟩ := h
  · obtain ⟨key, hkey⟩ := (hc merged hr).text hconf
    refine ⟨key, ?_, hkey⟩
    rintro rfl
    rw [configured, show entry merged "web".toList "secret_key".toList = keyOf merged from rfl, hkey] at hconf
    cases hconf
  · exact ⟨_, (hc merged hr).stored hconf path hpath content hfile, rfl⟩

theorem Session.Inv.stable (h : s.Inv file) : ∃ key ≠ [], ∀ k ∈ s.keys, k = some (.text key) := by
  rcases hkeys : s.keys with _ | ⟨k, ks⟩
  · exact ⟨['k'], by simp, by simp⟩
  · have hk := h.here k (by simp [hkeys])
    obtain ⟨key, hne, rfl⟩ := hk.text h.cond
    exact ⟨key, hne, fun k' hk' => (h.here k' (hkeys ▸ hk')).unique hk⟩

/-- Some 64 letters. -/
def someToken : Token where
  text := List.replicate 64 'a'
  length := List.length_replicate ..
  urlSafe c hc := Or.inl (by rw [List.eq_of_mem_replicate hc]; rfl)

/-- One boot shows a key that is no text, or empty. -/
theorem keyCond_of_stable (h : Stable file disk) (hr : Readable file merged) : KeyCond merged disk := by
  have hno := noPermission_quiet someToken someToken
  have hboot : ∀ cfg, (loadConfigOn { token := someToken, ephemeral := someToken } file disk).value = .ok cfg →
      ∃ key ≠ [], keyOf cfg = some (.text key) := by
    intro cfg hv
    obtain ⟨key, hne, hkeys⟩ := h [.boot { token := someToken, ephemeral := someToken }] _
      (List.forall_mem_singleton.2 hno) rfl
    exact ⟨key, hne, hkeys _ (by simp [hv])⟩
  have hfrom := loadConfigOn_meets hno file disk
  refine ⟨fun hconf => ?_, fun hconf path hpath content hcontent hempty => ?_⟩
  · obtain ⟨cfg, hv⟩ := loadConfigOn_quiet someToken someToken hr disk (Or.inl hconf)
    obtain ⟨merged', hr', hkey⟩ := hfrom.ok cfg hv
    obtain rfl := hr.unique hr'
    obtain ⟨key, -, hkeyOf⟩ := hboot cfg hv
    obtain ⟨-, rfl⟩ | ⟨hfalse, -⟩ := hkey
    · exact ⟨key, hkeyOf⟩
    · rw [hconf] at hfalse
      cases hfalse
  · obtain ⟨cfg, hv⟩ := loadConfigOn_quiet someToken someToken hr disk (Or.inr fun path' hpath' => by
      obtain rfl : path = path' := by simpa using hpath.symm.trans hpath'
      simp [Option.mem_def.1 hcontent])
    obtain ⟨merged', hr', hkey⟩ := hfrom.ok cfg hv
    obtain rfl := hr.unique hr'
    obtain ⟨key, hne, hkeyOf⟩ := hboot cfg hv
    obtain ⟨htrue, -⟩ | ⟨-, web, path', key', -, hpath', rfl, content', -, rfl, hold⟩ := hkey
    · rw [hconf] at htrue
      cases htrue
    · obtain rfl : path = path' := by simpa using hpath.symm.trans hpath'
      rw [Option.mem_def.1 hcontent] at hold
      obtain rfl : content = content' := by simpa using hold
      rw [keyOf, entry_withKey, hempty] at hkeyOf
      cases hkeyOf
      exact hne rfl

theorem stable_iff : Stable file disk ↔ ∀ merged, Readable file merged → KeyCond merged disk := by
  constructor
  · exact fun h merged hr => keyCond_of_stable h hr
  · intro h es s hno hr
    have hinv : s.Inv file := run_inv (C := fun _ e => NoPermission e.boots)
      (Session.step_inv file) ⟨by simp, h⟩ (guarded_of_forall_mem fun e he _ => hno e he) hr
    exact hinv.stable

/-- **The key of the sessions.**  All boots have one key that is not empty, whatever calls fail and wherever the server
crashes, exactly when a file that can be loaded configures text or leaves the key to a file with more than white space,
if there is one; and a write that raises leaves its target alone, and nothing beside it exactly when its temporary
file, if it has one, can be removed. -/
theorem session_key_stable (file : ConfigFile) (disk : Disk) :
    (Stable file disk ↔ ∀ merged, Readable file merged → KeyCond merged disk) ∧
      ∀ f path content e, (atomicWriteText f path content disk).value = .error e →
        (atomicWriteText f path content disk).state.files path = disk.files path ∧
          ((atomicWriteText f path content disk).state = disk ↔ ¬ Leaks f path disk) := by
  refine ⟨stable_iff, fun f path content e he => ?_⟩
  rcases (atomicWriteText_meets f path content disk).err e he with ⟨hclean, hsame⟩ | ⟨hleaks, c, hpending⟩
  · rw [hsame]
    exact ⟨rfl, iff_of_true rfl hclean⟩
  · rw [hpending]
    refine ⟨Disk.set_files_of_ne (tmpPath_ne _ _).symm, iff_of_false (fun hsame => ?_) (not_not_intro hleaks)⟩
    have hfree := hleaks.2.2.1
    rw [← hsame, Disk.set_files_self] at hfree
    cases hfree

/-- The disk with a file of the secret that has nothing but a line break. -/
def blankSecret : Disk := ⟨fun path => if path = "/var/lib/ais-server/secret_key".toList then some ['\n'] else none⟩

/-- The key of the sessions is empty. -/
theorem session_key_empty : ¬ Stable .missing blankSecret := by
  intro h
  obtain ⟨key, hne, hkeys⟩ := h [.boot { token := someToken, ephemeral := someToken }] _
    (List.forall_mem_singleton.2 (noPermission_quiet ..)) rfl
  have hempty := hkeys (some (.text [])) (List.mem_singleton.2 rfl)
  cases hempty
  exact hne rfl

end Sessions

end AisServer.Config
