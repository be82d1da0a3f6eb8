import AisServer.Config.Merge

/-!
# Loading the configuration

`DEFAULTS`, `_ensure_secret_key` and `load_config` of `config.py`.  What the file system answers is a parameter; it
fails with a `PermissionError` only.

* `complete_iff_covers` — a configuration is complete when it covers the defaults;
* `ensureSecretKey_ok`, `loadConfig_eq_ok` — when the functions do not raise, and what they return then;
* `entry_deepMerge` — a setting is that of the file, or else that of the defaults;
* `ensureSecretKey_isOk` — the files whose secret key can be found;
* `partial_config` — the files with which loading gives a complete configuration.
-/

namespace AisServer.Config

open AisServer.Lib AisServer.Lib.Yaml

/-- A section that is written out. -/
def settings (name : String) (items : List (String × Yaml)) : YamlKey × Yaml :=
  (.text name.toList, .dict (items.map fun i => (.text i.1.toList, i.2)))

/-- `DEFAULTS` -/
def defaults : Dict YamlKey Yaml := [
  settings "ingest" [("tcp_port", .int 10110), ("bind", .text "0.0.0.0".toList), ("max_clients", .int 64),
    ("idle_timeout", .int 120)],
  settings "dedup" [("ttl_seconds", .int 30), ("max_entries", .int 200000)],
  settings "reorder" [("hold_ms", .int 2000), ("max_queue", .int 50000)],
  settings "forwarder" [("default_protocol", .text "tcp".toList), ("queue_size", .int 10000),
    ("max_retries", .int 10), ("backoff_initial", .float (.finite 1))],
  settings "web" [("host", .text "0.0.0.0".toList), ("port", .int 80), ("tls_cert", .null), ("tls_key", .null),
    ("secret_key", .text [])],
  settings "security" [("force_password_change_on_first_login", .bool true), ("bcrypt_rounds", .int 12),
    ("session_minutes", .int 240)],
  settings "logging" [("path", .text "/var/log/ais-server".toList), ("level", .text "INFO".toList)],
  settings "paths" [("db", .text "/var/lib/ais-server/ais.db".toList),
    ("secret", .text "/var/lib/ais-server/secret_key".toList),
    ("backup", .text "/var/lib/ais-server/backups".toList)],
  settings "netcheck" [("interval", .int 30), ("fail_threshold", .int 3), ("timeout", .int 4), ("host", .null),
    ("port", .int 53), ("interface", .text "wlan0".toList), ("auto_recover", .bool true)],
  settings "diskcheck" [("interval", .int 60), ("data_path", .text "/var".toList), ("low_water_mb", .int 500),
    ("warn_water_mb", .int 1500)],
  settings "maintenance" [("wal_checkpoint_interval", .int 3600), ("vacuum_interval", .int (7 * 24 * 3600)),
    ("node_max_age", .int (30 * 24 * 3600)), ("node_prune_interval", .int 3600)],
  settings "backups" [("retention", .int 14)]]

/-- What the file system answers, `none` for a `PermissionError`, and the keys that are generated. -/
structure Host where
  pathExists : Str → Option Bool
  readText : Str → Option Str
  /-- `_atomic_write_text(path, content)` -/
  atomicWriteText : Str → Str → Option Unit
  /-- The first `secrets.token_urlsafe(48)`. -/
  token : Str
  /-- That of the developer mode. -/
  ephemeral : Str

/-- What `load_config` finds where it looks for the file. -/
inductive ConfigFile
  | missing
  /-- A `YAMLError`. -/
  | invalid
  | loaded (v : Yaml)

/-- `file_cfg` -/
def ConfigFile.contents : ConfigFile → Yaml
  | missing => .dict []
  | invalid => .dict []
  | loaded v => v.or (.dict [])

/-- The key of `_ensure_secret_key` when none is configured. -/
def Host.secretKey (host : Host) (secretPath : Str) : Str :=
  match host.pathExists secretPath with
  | some true =>
    match host.readText secretPath with
    | some content => Lib.strip spaces content
    | none => host.ephemeral
  | some false =>
    match host.atomicWriteText secretPath host.token with
    | some () => host.token
    | none => host.ephemeral
  | none => host.ephemeral

/-- `_ensure_secret_key` -/
def ensureSecretKey (host : Host) (cfg : Dict YamlKey Yaml) : Except PyErr (Dict YamlKey Yaml) := do
  let web ← (Yaml.dict cfg).index "web".toList
  if (← web.get "secret_key".toList).truthy then pure cfg
  else
    let secretPath ← (← (← (Yaml.dict cfg).index "paths".toList).index "secret".toList).asPath
    let web ← web.set "secret_key".toList (.text (host.secretKey secretPath))
    pure (Dict.setItem cfg (.text "web".toList) web)

/-- `Path(cfg[section][key])` with its `mkdir`, where a `PermissionError` is passed over. -/
def ensureDirectory (cfg : Dict YamlKey Yaml) (name key : Str) : Except PyErr Unit := do
  let _ ← (← (← (Yaml.dict cfg).index name).index key).asPath

/-- `load_config` -/
def loadConfig (host : Host) (file : ConfigFile) : Except PyErr (Dict YamlKey Yaml) := do
  let cfg ← deepMerge defaults file.contents
  let cfg ← ensureSecretKey host cfg
  ensureDirectory cfg "logging".toList "path".toList
  ensureDirectory cfg "paths".toList "db".toList
  ensureDirectory cfg "paths".toList "backup".toList
  pure cfg

/-- Every section of the defaults is a mapping, with every key that the defaults give it. -/
def Complete (cfg : Dict YamlKey Yaml) : Prop :=
  ∀ name d, Dict.getItem defaults name = some (.dict d) →
    ∃ items, Dict.getItem cfg name = some (.dict items) ∧
      ∀ key, Dict.getItem d key ≠ none → Dict.getItem items key ≠ none

/-- `cfg[section][key]`, where there is one. -/
def entry (cfg : Dict YamlKey Yaml) (name key : Str) : Option Yaml :=
  match Dict.getItem cfg (.text name) with
  | some (.dict items) => Dict.getItem items (.text key)
  | _ => none

/-- The directories that `load_config` creates, or whose parent it creates. -/
def directories : List (String × String) := [("logging", "path"), ("paths", "db"), ("paths", "backup")]

/-- The file has mappings where the defaults have sections. -/
def Sectioned (items : Dict YamlKey Yaml) : Prop :=
  ∀ name, Dict.getItem defaults name ≠ none → ∀ x ∈ Dict.getItem items name, x.isDict = true

/-- What the file may hold: mappings for the sections, and text for the paths that are used. -/
structure Loadable (items : Dict YamlKey Yaml) : Prop where
  sections : Sectioned items
  paths : ∀ p ∈ directories, ∀ x ∈ entry items p.1.toList p.2.toList, x.isText = true
  secret : (∃ x ∈ entry items "web".toList "secret_key".toList, x.truthy = true) ∨
    ∀ x ∈ entry items "paths".toList "secret".toList, x.isText = true

variable {host : Host} {cfg cfg' items d : Dict YamlKey Yaml} {name : YamlKey} {s key : Str} {b v x : Yaml}

/-- A mapping of depth one. -/
def isFlat : Yaml → Bool
  | .dict d => decide (d.map (·.1)).Nodup && d.all fun j => !j.2.isDict
  | _ => false

/-- The sections of the defaults are mappings of depth one. -/
theorem defaults_sections (h : Dict.getItem defaults name = some b) :
    ∃ d, b = .dict d ∧ ∀ key x, Dict.getItem d key = some x → x.isDict = false := by
  have hall : (defaults.all fun i => isFlat i.2) = true := by decide +kernel
  have hnd : (defaults.map (·.1)).Nodup := by decide +kernel
  have hb := List.all_eq_true.1 hall _ ((Dict.getItem_eq_some hnd).1 h)
  cases b with
  | dict d =>
    simp only [isFlat, Bool.and_eq_true, decide_eq_true_eq, List.all_eq_true] at hb
    refine ⟨d, rfl, fun key x hx => ?_⟩
    have := hb.2 _ ((Dict.getItem_eq_some hb.1).1 hx)
    simpa using this
  | _ => simp [isFlat] at hb

/-! ### Reading the sections -/

theorem entry_eq_some : entry cfg s key = some x ↔
    ∃ items, Dict.getItem cfg (.text s) = some (.dict items) ∧ Dict.getItem items (.text key) = some x := by
  unfold entry
  split
  · rename_i items h
    simp [h]
  · rename_i hnot
    simp only [reduceCtorEq, false_iff, not_exists, not_and]
    exact fun items h => absurd h (hnot items)

theorem entry_of_dict (h : Dict.getItem cfg (.text s) = some (.dict items)) :
    entry cfg s key = Dict.getItem items (.text key) := by
  simp only [entry, h]

/-- `cfg[section][key]` -/
theorem index_index : (do (← (Yaml.dict cfg).index s).index key) = .ok x ↔ entry cfg s key = some x := by
  rw [bind_eq_ok, entry_eq_some]
  constructor
  · rintro ⟨v, hv, hx⟩
    obtain ⟨_, hcfg, hv⟩ := index_eq_ok.1 hv
    cases hcfg
    obtain ⟨items, rfl, hitem⟩ := index_eq_ok.1 hx
    exact ⟨items, hv, hitem⟩
  · rintro ⟨items, hv, hx⟩
    exact ⟨_, index_eq_ok.2 ⟨_, rfl, hv⟩, index_eq_ok.2 ⟨_, rfl, hx⟩⟩

theorem ensureDirectory_ok :
    ensureDirectory cfg s key = .ok () ↔ ∃ x ∈ entry cfg s key, x.isText = true := by
  have hraise : ensureDirectory cfg s key = .ok () ↔ ∃ x path,
      (do (← (Yaml.dict cfg).index s).index key) = .ok x ∧ x.asPath = .ok path := by
    unfold ensureDirectory
    simp only [bind_eq_ok]
    constructor
    · rintro ⟨v, hv, x, hx, path, hpath, -⟩
      exact ⟨x, path, ⟨v, hv, hx⟩, hpath⟩
    · rintro ⟨x, path, ⟨v, hv, hx⟩, hpath⟩
      exact ⟨v, hv, x, hx, path, hpath, rfl⟩
  rw [hraise]
  simp only [index_index, asPath_eq_ok]
  constructor
  · rintro ⟨x, path, hx, rfl⟩
    exact ⟨_, hx, rfl⟩
  · rintro ⟨x, hx, htext⟩
    cases x with
    | text path => exact ⟨_, path, hx, rfl⟩
    | _ => cases htext

/-- What `_ensure_secret_key` does when it does not raise. -/
theorem ensureSecretKey_ok : ensureSecretKey host cfg = .ok cfg' ↔
    ∃ web, Dict.getItem cfg (.text "web".toList) = some (.dict web) ∧
      let configured := ((entry cfg "web".toList "secret_key".toList).getD .null).truthy
      (configured = true ∧ cfg' = cfg ∨
        configured = false ∧ ∃ path, entry cfg "paths".toList "secret".toList = some (.text path) ∧
          cfg' = Dict.setItem cfg (.text "web".toList)
            (.dict (Dict.setItem web (.text "secret_key".toList) (.text (host.secretKey path))))) := by
  unfold ensureSecretKey
  constructor
  · intro h
    obtain ⟨web, hweb, h⟩ := bind_eq_ok.1 h
    obtain ⟨_, hcfg, hitem⟩ := index_eq_ok.1 hweb
    cases hcfg
    obtain ⟨configured, hget, h⟩ := bind_eq_ok.1 h
    cases web with
    | dict web =>
      cases hget
      refine ⟨web, hitem, ?_⟩
      simp only [entry_of_dict hitem]
      split at h
      · rename_i htrue
        cases h
        exact Or.inl ⟨htrue, rfl⟩
      · rename_i hfalse
        obtain ⟨paths, hpaths, h⟩ := bind_eq_ok.1 h
        obtain ⟨secret, hsecret, h⟩ := bind_eq_ok.1 h
        obtain ⟨path, hpath, h⟩ := bind_eq_ok.1 h
        obtain rfl := asPath_eq_ok.1 hpath
        cases h
        exact Or.inr ⟨Bool.eq_false_iff.2 hfalse, path, index_index.1 (bind_eq_ok.2 ⟨paths, hpaths, hsecret⟩), rfl⟩
    | _ => cases hget
  · rintro ⟨web, hweb, ⟨htrue, rfl⟩ | ⟨hfalse, path, hpath, rfl⟩⟩
    · rw [entry_of_dict hweb] at htrue
      refine bind_eq_ok.2 ⟨.dict web, index_eq_ok.2 ⟨_, rfl, hweb⟩, bind_eq_ok.2 ⟨_, rfl, ?_⟩⟩
      rw [if_pos htrue]
      rfl
    · rw [entry_of_dict hweb] at hfalse
      refine bind_eq_ok.2 ⟨.dict web, index_eq_ok.2 ⟨_, rfl, hweb⟩, bind_eq_ok.2 ⟨_, rfl, ?_⟩⟩
      rw [if_neg (Bool.eq_false_iff.1 hfalse)]
      obtain ⟨paths, hpaths, hsecret⟩ := bind_eq_ok.1 (index_index.2 hpath)
      exact bind_eq_ok.2 ⟨paths, hpaths, bind_eq_ok.2 ⟨_, hsecret, rfl⟩⟩

/-! ### The merged configuration -/

theorem complete_iff_covers : Complete cfg ↔ Covers (.dict cfg) (.dict defaults) := by
  constructor
  · intro h
    refine .dict (fun name hname => ?_) fun name b v hb hv => ?_
    · obtain ⟨b, hb⟩ := Option.ne_none_iff_exists'.1 hname
      obtain ⟨d, rfl, -⟩ := defaults_sections hb
      obtain ⟨items, hitems, -⟩ := h name d hb
      simp [hitems]
    · obtain ⟨d, rfl, hleaf⟩ := defaults_sections hb
      obtain ⟨items, hitems, hkeys⟩ := h name d hb
      obtain rfl : v = .dict items := Option.some.inj (hv.symm.trans hitems)
      exact .dict hkeys fun key b' _ hb' _ => .leaf (hleaf key b' hb')
  · rintro h name d hd
    cases h with
    | leaf hleaf => cases hleaf
    | dict hkeys hsub =>
      obtain ⟨v, hv⟩ := Option.ne_none_iff_exists'.1 (hkeys name (by simp [hd]))
      have hc := hsub name _ v hd hv
      cases hc with
      | leaf hleaf => cases hleaf
      | dict hkeys _ => exact ⟨_, hv, hkeys⟩

theorem fits_defaults (h : Sectioned items) : Fits (.dict items) (.dict defaults) :=
  .dict fun name b v hb hv => by
    obtain ⟨d, rfl, hleaf⟩ := defaults_sections hb
    have hdict := h name (by simp [hb]) v hv
    cases v with
    | dict sub => exact .dict fun key b' _ hb' _ => .leaf (hleaf key b' hb')
    | _ => cases hdict

/-- A section of the file that is no mapping takes the place of that of the defaults. -/
theorem getItem_of_not_dict (hd : Distinct (.dict items)) (h : deepMerge defaults (.dict items) = .ok cfg)
    (hx : Dict.getItem items name = some x) (hnot : x.isDict = false) : Dict.getItem cfg name = some x := by
  rw [deepMerge] at h
  cases hd with
  | leaf hleaf => cases hleaf
  | dict hnd _ =>
    rcases getItem_mergeItems name hnd h with ⟨hnone, -⟩ | ⟨v, x', hv, hx', hm⟩
    · rw [hx] at hnone
      cases hnone
    · obtain rfl : v = x := Option.some.inj (hv.symm.trans hx)
      generalize Dict.getItem defaults name = old at hm
      cases hm with
      | both => cases hnot
      | replaced => exact hx'

theorem entry_deepMerge (hd : Distinct (.dict items)) (h : deepMerge defaults (.dict items) = .ok cfg)
    (hsec : Sectioned items) (hs : Dict.getItem defaults (.text s) ≠ none) :
    entry cfg s key = (entry items s key).or (entry defaults s key) := by
  obtain ⟨b, hb⟩ := Option.ne_none_iff_exists'.1 hs
  obtain ⟨d, rfl, hleaf⟩ := defaults_sections hb
  rw [deepMerge] at h
  cases hd with
  | leaf hleaf => cases hleaf
  | dict hnd hsub =>
    rcases getItem_mergeItems (.text s) hnd h with ⟨hnone, hcfg⟩ | ⟨v, x, hv, hx, hm⟩
    · simp only [entry, hnone, hcfg, Option.none_or]
    · have hdict := hsec _ hs v hv
      rw [hb] at hm
      cases hm with
      | both hmerged =>
        rename_i sub out
        rw [deepMerge] at hmerged
        have hdistinct := hsub _ _ hv
        cases hdistinct with
        | leaf hleaf => cases hleaf
        | dict hnd _ =>
          simp only [entry, hv, hx, hb]
          -- the settings of the defaults are leaves: nothing is merged below them
          rcases getItem_mergeItems (.text key) hnd hmerged with ⟨hnone, hout⟩ | ⟨v, x, hv, hx, hm⟩
          · rw [hnone, hout, Option.none_or]
          · rw [hv, hx, Option.some_or]
            generalize hold : Dict.getItem d (.text key) = old at hm
            cases hm with
            | both => cases hleaf _ _ hold
            | replaced => rfl
      | replaced hnot => simp [hdict, show (Yaml.dict d).isDict = true from rfl] at hnot

/-- The secret key of the defaults is empty. -/
theorem or_truthy {o : Option Yaml} :
    ((o.or (some (.text []))).getD .null).truthy = true ↔ ∃ x ∈ o, x.truthy = true := by
  cases o <;> simp [truthy]

theorem or_text {o : Option Yaml} {path : Str} :
    (∃ p, o.or (some (.text path)) = some (.text p)) ↔ ∀ x ∈ o, x.isText = true := by
  rcases o with _ | (_ | _ | _ | _ | _ | _ | _ | _) <;> simp [isText]

/-! ### The configuration that is loaded -/

theorem getItem_ensureSecretKey (h : ensureSecretKey host cfg = .ok cfg') (hname : name ≠ .text "web".toList) :
    Dict.getItem cfg' name = Dict.getItem cfg name := by
  obtain ⟨web, -, ⟨-, rfl⟩ | ⟨-, path, -, rfl⟩⟩ := ensureSecretKey_ok.1 h
  · rfl
  · rw [Dict.getItem_setItem, if_neg (Ne.symm hname)]

theorem entry_ensureSecretKey (h : ensureSecretKey host cfg = .ok cfg') (hs : s ≠ "web".toList) :
    entry cfg' s key = entry cfg s key := by
  unfold entry
  rw [getItem_ensureSecretKey h (fun he => hs (YamlKey.text.inj he))]

theorem Complete.ensureSecretKey (hc : Complete cfg) (h : ensureSecretKey host cfg = .ok cfg') : Complete cfg' := by
  obtain ⟨web, hweb, ⟨-, rfl⟩ | ⟨-, path, -, rfl⟩⟩ := ensureSecretKey_ok.1 h
  · exact hc
  · intro name d hd
    obtain ⟨items, hitems, hkeys⟩ := hc name d hd
    rw [Dict.getItem_setItem]
    split
    · rename_i hname
      subst hname
      obtain rfl : web = items := by simpa using hweb.symm.trans hitems
      refine ⟨_, rfl, fun key hkey => ?_⟩
      rw [Dict.getItem_setItem]
      split
      · exact Option.some_ne_none _
      · exact hkeys key hkey
    · exact ⟨items, hitems, hkeys⟩

theorem loadConfig_eq_ok {file : ConfigFile} : loadConfig host file = .ok cfg' ↔
    ∃ cfg, deepMerge defaults file.contents = .ok cfg ∧ ensureSecretKey host cfg = .ok cfg' ∧
      ∀ p ∈ directories, ∃ x ∈ entry cfg' p.1.toList p.2.toList, x.isText = true := by
  simp only [loadConfig, directories, List.forall_mem_cons, List.not_mem_nil, IsEmpty.forall_iff, implies_true,
    and_true, ← ensureDirectory_ok, bind_eq_ok]
  constructor
  · rintro ⟨cfg, hmerge, _, hensure, ⟨⟩, hlog, ⟨⟩, hdb, ⟨⟩, hbackup, hpure⟩
    cases hpure
    exact ⟨cfg, hmerge, hensure, hlog, hdb, hbackup⟩
  · rintro ⟨cfg, hmerge, hensure, hlog, hdb, hbackup⟩
    exact ⟨cfg, hmerge, cfg', hensure, (), hlog, (), hdb, (), hbackup, rfl⟩

theorem directories_defaults {p : String × String} (hp : p ∈ directories) :
    p.1.toList ≠ "web".toList ∧ Dict.getItem defaults (.text p.1.toList) ≠ none ∧
      (entry defaults p.1.toList p.2.toList).any isText = true := by
  have hall : (directories.all fun p => p.1.toList ≠ "web".toList ∧
      (Dict.getItem defaults (.text p.1.toList)).isSome = true ∧
      (entry defaults p.1.toList p.2.toList).any isText = true) = true := by
    decide +kernel
  have hp := of_decide_eq_true (List.all_eq_true.1 hall p hp)
  exact ⟨hp.1, Option.isSome_iff_ne_none.1 hp.2.1, hp.2.2⟩

/-- The sections of a complete configuration were mappings in the file. -/
theorem sectioned_of_complete (hd : Distinct (.dict items)) (hmerge : deepMerge defaults (.dict items) = .ok cfg)
    (hensure : ensureSecretKey host cfg = .ok cfg') (hcomplete : Complete cfg') : Sectioned items := by
  intro name hname x hx
  by_contra hnot
  obtain ⟨b, hb⟩ := Option.ne_none_iff_exists'.1 hname
  obtain ⟨d, rfl, -⟩ := defaults_sections hb
  obtain ⟨sub, hsub, -⟩ := hcomplete name d hb
  have hcfg := getItem_of_not_dict hd hmerge hx (by simpa using hnot)
  by_cases hname : name = .text "web".toList
  · -- a section `web` that is no mapping raises
    obtain ⟨web, hgot, -⟩ := ensureSecretKey_ok.1 hensure
    subst hname
    rw [hgot] at hcfg
    cases hcfg
    exact hnot rfl
  · rw [getItem_ensureSecretKey hensure hname, hcfg] at hsub
    cases hsub
    exact hnot rfl

/-- The secret key of a file with the right sections: it is set, or there is a path to it. -/
theorem ensureSecretKey_isOk (hd : Distinct (.dict items)) (hmerge : deepMerge defaults (.dict items) = .ok cfg)
    (hsec : Sectioned items) : (∃ cfg', ensureSecretKey host cfg = .ok cfg') ↔
      (∃ x ∈ entry items "web".toList "secret_key".toList, x.truthy = true) ∨
        ∀ x ∈ entry items "paths".toList "secret".toList, x.isText = true := by
  have hsecret : entry defaults "web".toList "secret_key".toList = some (.text []) := rfl
  have hpath : entry defaults "paths".toList "secret".toList =
      some (.text "/var/lib/ais-server/secret_key".toList) := rfl
  obtain ⟨d, hd'⟩ : ∃ d, Dict.getItem defaults (.text "web".toList) = some (.dict d) := ⟨_, rfl⟩
  have hcomplete := complete_iff_covers.2 ((covers_deepMerge hd hmerge).2 (fits_defaults hsec))
  obtain ⟨web, hgot, -⟩ := hcomplete _ d hd'
  simp only [ensureSecretKey_ok, entry_deepMerge hd hmerge hsec (s := "web".toList) (Option.some_ne_none _), hsecret,
    entry_deepMerge hd hmerge hsec (s := "paths".toList) (Option.some_ne_none _), hpath]
  rw [← or_truthy, ← or_text]
  constructor
  · rintro ⟨cfg', web, -, ⟨htrue, -⟩ | ⟨-, path, htext, -⟩⟩
    · exact Or.inl htrue
    · exact Or.inr ⟨path, htext⟩
  · intro h
    by_cases htrue : (((entry items "web".toList "secret_key".toList).or (some (.text []))).getD .null).truthy = true
    · exact ⟨cfg, web, hgot, Or.inl ⟨htrue, rfl⟩⟩
    · obtain ⟨path, htext⟩ := h.resolve_left htrue
      exact ⟨_, web, hgot, Or.inr ⟨Bool.eq_false_iff.2 htrue, path, htext, rfl⟩⟩

/-- The files with a mapping, and those that count as an empty one. -/
theorem loadConfig_complete {file : ConfigFile} (hd : Distinct (.dict items)) (hfile : file.contents = .dict items) :
    (∃ cfg, loadConfig host file = .ok cfg ∧ Complete cfg) ↔ Loadable items := by
  simp only [loadConfig_eq_ok, hfile]
  constructor
  · rintro ⟨cfg', ⟨cfg, hmerge, hensure, hdirs⟩, hcomplete⟩
    have hsec := sectioned_of_complete hd hmerge hensure hcomplete
    refine ⟨hsec, fun p hp x hx => ?_, (ensureSecretKey_isOk hd hmerge hsec).1 ⟨cfg', hensure⟩⟩
    obtain ⟨hne, hname, -⟩ := directories_defaults hp
    obtain ⟨x', hx', htext⟩ := hdirs p hp
    rw [entry_ensureSecretKey hensure hne, entry_deepMerge hd hmerge hsec hname, Option.mem_def.1 hx] at hx'
    cases hx'
    exact htext
  · intro hl
    obtain ⟨cfg, hmerge⟩ := deepMerge_ok defaults (.dict items) rfl
    have hcomplete := complete_iff_covers.2 ((covers_deepMerge hd hmerge).2 (fits_defaults hl.sections))
    obtain ⟨cfg', hensure⟩ := (ensureSecretKey_isOk hd hmerge hl.sections).2 hl.secret
    refine ⟨cfg', ⟨cfg, hmerge, hensure, fun p hp => ?_⟩, hcomplete.ensureSecretKey hensure⟩
    obtain ⟨hne, hname, htext⟩ := directories_defaults hp
    rw [entry_ensureSecretKey hensure hne, entry_deepMerge hd hmerge hl.sections hname]
    rcases hitem : entry items p.1.toList p.2.toList with _ | x
    · simpa [Option.any_eq_true] using htext
    · exact ⟨x, rfl, hl.paths p hp x hitem⟩

/-- **A partial configuration.**  Loading a file that exists gives a complete configuration exactly when the file
counts as empty, or holds a mapping in which the sections of the defaults are mappings, the directories are text and
so is, where no secret key is set, the path of the secret. -/
theorem partial_config (hd : v.Distinct) :
    (∃ cfg, loadConfig host (.loaded v) = .ok cfg ∧ Complete cfg) ↔
      v.truthy = false ∨ ∃ items, v = .dict items ∧ Loadable items := by
  have hempty : Loadable [] :=
    ⟨by simp [Sectioned, Dict.getItem], by simp [entry, Dict.getItem], Or.inr (by simp [entry, Dict.getItem])⟩
  have hnil : Distinct (.dict []) := .dict List.nodup_nil (by simp [Dict.getItem])
  by_cases htruthy : v.truthy = true
  · cases v with
    | dict items =>
      have hfile : (ConfigFile.loaded (.dict items)).contents = .dict items := by
        simp [ConfigFile.contents, Yaml.or, htruthy]
      rw [loadConfig_complete hd hfile]
      simp [htruthy]
    | _ =>
      simp only [loadConfig_eq_ok, ConfigFile.contents, Yaml.or, htruthy, if_true, deepMerge]
      simp
  · have hfile : (ConfigFile.loaded v).contents = .dict [] := by
      simp [ConfigFile.contents, Yaml.or, htruthy]
    rw [loadConfig_complete hnil hfile]
    exact iff_of_true hempty (Or.inl (by simpa using htruthy))

/-- A machine where nothing below `/var` may be read. -/
def developer : Host := ⟨fun _ => none, fun _ => none, fun _ _ => none, [], "ephemeral".toList⟩

/-- A file that sets one port. -/
theorem partial_config_port : ∃ cfg,
    loadConfig developer (.loaded (.dict [settings "ingest" [("tcp_port", .int 4001)]])) = .ok cfg ∧ Complete cfg := by
  have hport : Distinct (settings "ingest" [("tcp_port", .int 4001)]).2 :=
    .dict (by simp) fun key x hx => by
      obtain ⟨-, rfl⟩ := Dict.getItem_singleton.1 hx
      exact .leaf rfl
  refine (partial_config (.dict (by simp) fun name x hx => ?_)).2 (Or.inr ⟨_, rfl, ?_⟩)
  · obtain ⟨-, rfl⟩ := Dict.getItem_singleton.1 hx
    exact hport
  · refine ⟨fun name _ x hx => ?_, fun p hp x hx => ?_, Or.inr fun x hx => ?_⟩
    · obtain ⟨-, rfl⟩ := Dict.getItem_singleton.1 hx
      rfl
    · have hnone : (directories.all fun p => (entry [settings "ingest" [("tcp_port", .int 4001)]]
        p.1.toList p.2.toList).isNone) = true := by decide +kernel
      have := List.all_eq_true.1 hnone p hp
      simp [Option.mem_def.1 hx] at this
    · cases hx

/-- A list at the top, and two sections with nothing below them: `web` raises as the list does, and with `ingest` the
ports of the server are gone. -/
theorem partial_config_fails :
    loadConfig developer (.loaded (.list [.null])) = .error .attribute ∧
      loadConfig developer (.loaded (.dict [(.text "web".toList, .null)])) = .error .attribute ∧
      ∃ cfg, loadConfig developer (.loaded (.dict [(.text "ingest".toList, .null)])) = .ok cfg ∧ ¬ Complete cfg := by
  refine ⟨rfl, rfl, _, rfl, fun h => ?_⟩
  obtain ⟨items, hitems, -⟩ := h (.text "ingest".toList) _ rfl
  cases hitems

end AisServer.Config
