import AisServer.Web.StoredEndpoints

/-!
# Writing the endpoints

What the two routes that write a row promise: a response in JSON for every body, a table that is left alone when
the response does not say `ok`, and a `PATCH` that changes one row only where its body says.

* `endpointsAdd_sound` — `POST` keeps this for every body;
* `endpointsUpdate_isJson_iff` — when `PATCH` gets to a response;
* `endpointsUpdate_patched` — what a `PATCH` that says `ok` has changed;
* `endpoint_writes` — both routes together.
-/

namespace AisServer.Web

open AisServer.Lib AisServer.Store

namespace Response

/-- No exception left the view. -/
def IsJson : Response → Prop
  | .json _ _ => True
  | _ => False

instance : DecidablePred IsJson
  | .json _ _ => isTrue trivial
  | .redirect _ | .template _ _ | .file | .serverError _ => isFalse id

def SaysOk : Response → Prop
  | .json _ body => ∃ items, body = .dict items ∧ Dict.getItem items (text "ok") = some (.bool true)
  | _ => False

end Response

/-- The response is JSON, and without an `ok` nothing is changed. -/
structure Sound (t : Tables) (out : Tables × Response) : Prop where
  answered : out.2.IsJson
  unchanged : ¬out.2.SaysOk → out.1 = t

/-- A row that was changed in the columns that the body names, and in `updated_at`. -/
structure ChangedIn (items : Dict PyStr Json) (o o' : Endpoint) : Prop where
  id : o'.id = o.id
  createdAt : o'.createdAt = o.createdAt
  name : text "name" ∉ items.map (·.1) → o'.name = o.name
  protocol : text "protocol" ∉ items.map (·.1) → o'.protocol = o.protocol
  host : text "host" ∉ items.map (·.1) → o'.host = o.host
  port : text "port" ∉ items.map (·.1) → o'.port = o.port
  path : text "path" ∉ items.map (·.1) → o'.path = o.path
  enabled : text "enabled" ∉ items.map (·.1) → o'.enabled = o.enabled
  broadcast : text "broadcast" ∉ items.map (·.1) → o'.broadcast = o.broadcast

/-- Only the row with the id was changed, and only where the body says; the names are still unique. -/
structure Patched (t t' : Tables) (id : ℕ) (items : Dict PyStr Json) : Prop where
  rest : t' = { t with endpoints := t'.endpoints }
  rows : List.Forall₂ (fun o o' => if o.id = id then ChangedIn items o o' else o' = o) t.endpoints t'.endpoints
  names : (t'.endpoints.map (·.name)).Nodup

/-- `PRIMARY KEY` and `UNIQUE` -/
structure Keyed (t : Tables) : Prop where
  ids : (t.endpoints.map (·.id)).Nodup
  names : (t.endpoints.map (·.name)).Nodup

/-- The items can be written: nothing in them raises, and the schema takes the row if it is there. -/
structure Writable (R : Runtime) (t : Tables) (id : ℕ) (items : Dict PyStr Json) : Prop where
  port : ∀ v ∈ Dict.getItem items (text "port"), ∃ n, v.toInt = .ok n ∧ fitsInt64 n = true
  bound : ∀ k ∈ textColumns, ∀ v ∈ Dict.getItem items (text k), ∃ x, bindParam v = .ok x
  rowid : fitsInt64 id = true
  fits : ∀ e ∈ t.endpoints.find? (fun o => o.id = id),
    ((target e).patch R.sqlite items).Fits (t.endpoints.filter fun o => o.id ≠ id)

/-- The bodies to which `endpoints_update` has an answer. -/
inductive Answered (R : Runtime) (t : Tables) (id : ℕ) : Json → Prop
  /-- The port is a text that is no number, or not a number: `bad port`. -/
  | badPort {items : Dict PyStr Json} {v : Json} (hv : Dict.getItem items (text "port") = some v)
      (hvalue : v.toInt = .error .value) : Answered R t id (.dict items)
  /-- No column is named. -/
  | nothing {items : Dict PyStr Json} (hkeyword : ∀ i ∈ items, i.1 ≠ text "self" ∧ i.1 ≠ text "ep_id")
      (hnone : ∀ i ∈ items, i.1 ∉ allowed) : Answered R t id (.dict items)
  | written {items : Dict PyStr Json} (hkeyword : ∀ i ∈ items, i.1 ≠ text "self" ∧ i.1 ≠ text "ep_id")
      (hwritable : Writable R t id items) : Answered R t id (.dict items)

variable {R : Runtime} {Q : Sqlite} {t t' : Tables} {id : ℕ} {body : Body} {now : ℤ} {e o : Endpoint} {data : Json}
  {items : Dict PyStr Json} {sets : List Assignment} {ok : Bool}

@[simp] theorem saysOk_okJson : (okJson ok).SaysOk ↔ ok = true := by
  simp [okJson, Response.SaysOk, Dict.getItem]

/-! ### `POST` -/

/-- **A new row.**  `POST` always answers, and stores nothing when it does not say `ok`. -/
theorem endpointsAdd_sound (R : Runtime) (t : Tables) (json : Option Json) (now : ℤ) :
    Sound t (endpointsAdd R t json now) := by
  unfold endpointsAdd
  split
  · exact ⟨trivial, fun _ => rfl⟩
  · exact ⟨trivial, fun _ => rfl⟩
  · split
    · exact ⟨trivial, fun _ => rfl⟩
    · exact ⟨trivial, fun h => absurd ⟨_, rfl, rfl⟩ h⟩

/-! ### When `PATCH` answers -/

/-- The answer to an exception of `int(data["port"])`. -/
def portFailed (err : PyErr) : Response :=
  if err = .value then errorJson 400 "bad port".toList else .serverError err

theorem convertPort_dict_error {v : Json} {err : PyErr} (hv : Dict.getItem items (text "port") = some v)
    (hn : v.toInt = .error err) : convertPort (.dict items) = .error (portFailed err) := by
  have hraise : (Except.ok v >>= Json.toInt) = .error err := hn
  unfold convertPort
  simp only [Json.contains, Json.index, hv, Option.isSome_some, hraise]
  cases err <;> rfl

theorem portFailed_isJson {err : PyErr} : (portFailed err).IsJson ↔ err = .value := by
  unfold portFailed
  split
  · rename_i h
    exact iff_of_true trivial h
  · rename_i h
    exact iff_of_false (fun hf => hf) h

theorem endpointsUpdate_of_notDict {json : Option Json} (h : ∀ items, payload json ≠ .dict items) :
    ¬(endpointsUpdate R t id json now).2.IsJson := by
  have hindex : ∀ k, (payload json).index k = .error .type := by
    intro k
    cases hdata : payload json with
    | dict items => exact absurd hdata (h items)
    | _ => rfl
  intro hjson
  unfold endpointsUpdate at hjson
  split at hjson
  · rename_i r hr
    unfold convertPort at hr
    split at hr
    · obtain rfl := Except.error.inj hr
      exact hjson
    · cases hr
    · rw [hindex] at hr
      obtain rfl := Except.error.inj hr
      exact hjson
  · rename_i data₁ h1
    split at hjson
    · exact hjson
    · rename_i t' ok hupdate
      obtain ⟨data₂, h2, hupdate⟩ := bind_eq_ok.1 hupdate
      obtain ⟨items', h3, -⟩ := bind_eq_ok.1 hupdate
      obtain ⟨items, hdict, -⟩ := convert_eq_ok h1 h2 h3
      exact h items hdict

theorem endpointsUpdate_of_dict {json : Option Json} (now : ℤ) (hpayload : payload json = .dict items)
    (hport : ∀ v ∈ Dict.getItem items (text "port"), ∃ n, v.toInt = .ok n) :
    endpointsUpdate R t id json now =
      match do updateEndpoint R t id (← kwargs (.dict (converted items))) now with
      | .error e => (t, .serverError e)
      | .ok (t', ok) => (t', okJson ok) := by
  unfold endpointsUpdate
  rw [hpayload, convertPort_dict.2 ⟨hport, rfl⟩]
  simp only [convertBroadcast_dict]
  rfl

theorem updateEndpoint_eq_ok {items : Dict PyStr Json} : updateEndpoint R t id items now = .ok (t', ok) ↔
    ∃ sets, (items.filter fun i => i.1 ∈ allowed).mapM (fun i => assignment i.1 i.2) = .ok sets ∧
      (sets = [] ∧ t' = t ∧ ok = false ∨ sets ≠ [] ∧ fitsInt64 id = true ∧
        (Statement.updateEndpoint id sets now).exec R.sqlite t = some t' ∧
          ok = t.endpoints.any fun e => e.id = id) := by
  unfold updateEndpoint
  rw [bind_eq_ok]
  refine exists_congr fun sets => and_congr_right fun _ => ?_
  by_cases hnil : sets = []
  · rw [if_pos hnil]
    show (Except.ok (t, false) : Except PyErr _) = .ok (t', ok) ↔ _
    rw [Except.ok.injEq, Prod.mk.injEq, eq_comm (b := t'), eq_comm (b := ok)]
    simp [hnil]
  · rw [if_neg hnil]
    by_cases hid : fitsInt64 id = true
    · rw [if_pos hid]
      rcases (Statement.updateEndpoint id sets now).exec R.sqlite t with _ | t''
      · simp [hnil]
      · show (Except.ok (t'', _) : Except PyErr _) = .ok (t', ok) ↔ _
        rw [Except.ok.injEq, Prod.mk.injEq, eq_comm (b := ok)]
        simp [hnil, hid]
    · simp [hnil, hid]

theorem filter_converted_eq_nil : ((converted items).filter fun i => i.1 ∈ allowed) = [] ↔
    ∀ i ∈ items, i.1 ∉ allowed := by
  have hkeys : ∀ d : Dict PyStr Json, (∀ i ∈ d, i.1 ∉ allowed) ↔ ∀ k ∈ d.map (·.1), k ∉ allowed := by
    intro d
    rw [List.forall_mem_map]
  simp only [List.filter_eq_nil_iff, decide_eq_true_eq]
  rw [hkeys, hkeys, keys_converted]

/-- An `UPDATE` is taken when the row fits, if there is one. -/
theorem exec_updateEndpoint_isSome (hnd : (items.map (·.1)).Nodup) (now : ℤ)
    (hport : ∀ v ∈ Dict.getItem items (text "port"), ∃ n, v.toInt = .ok n ∧ fitsInt64 n = true)
    (hsets : ((converted items).filter fun i => i.1 ∈ allowed).mapM (fun i => assignment i.1 i.2) = .ok sets) :
    (∃ t', (Statement.updateEndpoint id sets now).exec Q t = some t') ↔
      ∀ e ∈ t.endpoints.find? (fun o => o.id = id),
        ((target e).patch Q items).Fits (t.endpoints.filter fun o => o.id ≠ id) := by
  rcases hfind : t.endpoints.find? (fun o => o.id = id) with _ | e
  · refine iff_of_true ⟨t, by simp only [Statement.exec, hfind]⟩ fun e he => ?_
    rw [Option.mem_def, hfind] at he
    cases he
  · obtain ⟨e', he', hexec⟩ := exec_updateEndpoint Q sets now hfind
    rw [target_patched hnd hport hsets] at he'
    rw [hfind, hexec]
    simp only [Option.mem_some_iff, forall_eq', ← he']
    rw [← fits_iff]
    by_cases hfits : e'.fits (t.endpoints.filter fun o => o.id ≠ id) = true
    · exact iff_of_true ⟨_, if_pos hfits⟩ hfits
    · refine iff_of_false ?_ hfits
      rintro ⟨t', ht'⟩
      rw [if_neg hfits] at ht'
      cases ht'

theorem updateEndpoint_isOk (now : ℤ) (hnd : (items.map (·.1)).Nodup)
    (hport : ∀ v ∈ Dict.getItem items (text "port"), ∃ n, v.toInt = .ok n) :
    (∃ t' ok, updateEndpoint R t id (converted items) now = .ok (t', ok)) ↔
      (∀ i ∈ items, i.1 ∉ allowed) ∨ Writable R t id items := by
  simp only [updateEndpoint_eq_ok]
  constructor
  · rintro ⟨t', ok, sets, hsets, ⟨hnil, -⟩ | ⟨-, hid, hexec, -⟩⟩
    · exact Or.inl (filter_converted_eq_nil.1 ((mapM_eq_nil hsets).1 hnil))
    · obtain ⟨hports, hbound⟩ := (mapM_converted hnd hport).1 ⟨sets, hsets⟩
      exact Or.inr ⟨hports, hbound, hid, (exec_updateEndpoint_isSome hnd now hports hsets).1 ⟨t', hexec⟩⟩
  · rintro (hnone | hw)
    · refine ⟨t, false, [], ?_, Or.inl ⟨rfl, rfl, rfl⟩⟩
      rw [filter_converted_eq_nil.2 hnone]
      rfl
    · obtain ⟨sets, hsets⟩ := (mapM_converted hnd hport).2 ⟨hw.port, hw.bound⟩
      by_cases hnil : sets = []
      · exact ⟨t, false, sets, hsets, Or.inl ⟨hnil, rfl, rfl⟩⟩
      · obtain ⟨t', ht'⟩ := (exec_updateEndpoint_isSome hnd now hw.port hsets).2 hw.fits
        exact ⟨t', _, sets, hsets, Or.inr ⟨hnil, hw.rowid, ht', rfl⟩⟩

theorem answered_iff (hport : ∀ v ∈ Dict.getItem items (text "port"), ∃ n, v.toInt = .ok n) :
    Answered R t id (.dict items) ↔ (∀ i ∈ items, i.1 ≠ text "self" ∧ i.1 ≠ text "ep_id") ∧
      ((∀ i ∈ items, i.1 ∉ allowed) ∨ Writable R t id items) := by
  constructor
  · rintro (⟨hv, hvalue⟩ | ⟨hkeyword, hnone⟩ | ⟨hkeyword, hwritable⟩)
    · obtain ⟨n, hn⟩ := hport _ hv
      cases hn.symm.trans hvalue
    · exact ⟨hkeyword, Or.inl hnone⟩
    · exact ⟨hkeyword, Or.inr hwritable⟩
  · rintro ⟨hkeyword, hnone | hwritable⟩
    · exact .nothing hkeyword hnone
    · exact .written hkeyword hwritable

/-- With a port that cannot be converted only `bad port` is an answer. -/
theorem answered_iff_of_error {v : Json} {err : PyErr} (hnd : (items.map (·.1)).Nodup)
    (hv : Dict.getItem items (text "port") = some v) (herr : v.toInt = .error err) :
    Answered R t id (.dict items) ↔ err = .value := by
  constructor
  · rintro (⟨hv', hvalue⟩ | ⟨-, hnone⟩ | ⟨-, hwritable⟩)
    · obtain rfl := Option.some.inj (hv'.symm.trans hv)
      exact Except.error.inj (herr.symm.trans hvalue)
    · have hallowed : text "port" ∈ allowed := by decide
      exact absurd hallowed (hnone _ ((Dict.getItem_eq_some hnd).1 hv))
    · obtain ⟨n, hn, -⟩ := hwritable.port v hv
      cases herr.symm.trans hn
  · rintro rfl
    exact .badPort hv herr

/-- What `PATCH` does with an object whose port was converted is what `update_endpoint` does. -/
theorem endpointsUpdate_isJson_of_port (body : Body) (now : ℤ) (hpayload : payload body.json = .dict items)
    (hport : ∀ v ∈ Dict.getItem items (text "port"), ∃ n, v.toInt = .ok n) :
    (endpointsUpdate R t id body.json now).2.IsJson ↔
      (∀ i ∈ items, i.1 ≠ text "self" ∧ i.1 ≠ text "ep_id") ∧
        ((∀ i ∈ items, i.1 ∉ allowed) ∨ Writable R t id items) := by
  rw [endpointsUpdate_of_dict now hpayload hport]
  by_cases hkeyword : ∀ i ∈ items, i.1 ≠ text "self" ∧ i.1 ≠ text "ep_id"
  · have hkwargs : kwargs (.dict (converted items)) = .ok (converted items) :=
      kwargs_dict.2 ⟨keyword_converted.2 hkeyword, rfl⟩
    rw [and_iff_right hkeyword, ← updateEndpoint_isOk now (body.payload_nodup items hpayload) hport, hkwargs]
    show (match updateEndpoint R t id (converted items) now with
      | .error e => (t, .serverError e)
      | .ok (t', ok) => (t', okJson ok) : Tables × Response).2.IsJson ↔ _
    rcases updateEndpoint R t id (converted items) now with err | ⟨t', ok⟩
    · exact iff_of_false (fun h => h) (by simp)
    · exact iff_of_true trivial ⟨t', ok, rfl⟩
  · refine iff_of_false (fun hjson => ?_) fun h => hkeyword h.1
    rcases hkwargs : kwargs (.dict (converted items)) with err | items'
    · rw [hkwargs] at hjson
      exact hjson
    · exact hkeyword (keyword_converted.1 (kwargs_dict.1 hkwargs).1)

/-- **When `PATCH` answers.** -/
theorem endpointsUpdate_isJson_iff (R : Runtime) (t : Tables) (id : ℕ) (body : Body) (now : ℤ) :
    (endpointsUpdate R t id body.json now).2.IsJson ↔ Answered R t id (payload body.json) := by
  by_cases hdict : ∃ items, payload body.json = .dict items
  · obtain ⟨items, hpayload⟩ := hdict
    by_cases hport : ∀ v ∈ Dict.getItem items (text "port"), ∃ n, v.toInt = .ok n
    · rw [endpointsUpdate_isJson_of_port body now hpayload hport, hpayload, answered_iff hport]
    · push Not at hport
      obtain ⟨v, hv, hn⟩ := hport
      rcases herr : v.toInt with err | n
      · have hout : endpointsUpdate R t id body.json now = (t, portFailed err) := by
          unfold endpointsUpdate
          rw [hpayload, convertPort_dict_error hv herr]
        rw [hout, hpayload, portFailed_isJson, answered_iff_of_error (body.payload_nodup items hpayload) hv herr]
      · exact absurd herr (hn n)
  · push Not at hdict
    refine iff_of_false (endpointsUpdate_of_notDict hdict) fun h => ?_
    generalize payload body.json = data at hdict h
    cases h <;> exact hdict _ rfl

/-! ### What `PATCH` changes -/

theorem columnOf_mem_allowed (a : Assignment) : text (columnOf a) ∈ allowed := by
  cases a <;> simp [columnOf, allowed]

theorem foldl_assign_frame {γ : Type} (proj : Endpoint → γ) {column : String}
    (hframe : ∀ (e : Endpoint) a, columnOf a ≠ column → proj (e.assign Q a) = proj e)
    (h : ∀ a ∈ sets, columnOf a ≠ column) (e : Endpoint) : proj (sets.foldl (Endpoint.assign Q) e) = proj e := by
  induction sets generalizing e with
  | nil => rfl
  | cons a sets ih =>
    rw [List.foldl_cons, ih (fun a' ha' => h a' (List.mem_cons_of_mem _ ha')), hframe e a (h a List.mem_cons_self)]

theorem columnOf_mem_keys {a : Assignment}
    (hsets : ((converted items).filter fun i => i.1 ∈ allowed).mapM (fun i => assignment i.1 i.2) = .ok sets)
    (ha : a ∈ sets) : text (columnOf a) ∈ items.map (·.1) := by
  obtain ⟨i, hi, hassign⟩ := mem_of_mapM_eq_ok hsets ha
  obtain ⟨hi, hallowed⟩ := List.mem_filter.1 hi
  rw [← (assignment_spec (of_decide_eq_true hallowed) hassign).1, ← keys_converted]
  exact List.mem_map_of_mem hi

theorem foldl_assign_changedIn (now : ℤ)
    (hsets : ((converted items).filter fun i => i.1 ∈ allowed).mapM (fun i => assignment i.1 i.2) = .ok sets)
    (e : Endpoint) : ChangedIn items e { sets.foldl (Endpoint.assign Q) e with updatedAt := now } := by
  have hnot : ∀ {column : String}, text column ∉ items.map (·.1) → ∀ a ∈ sets, columnOf a ≠ column := by
    rintro column hcolumn a ha rfl
    exact hcolumn (columnOf_mem_keys hsets ha)
  have hother : ∀ column : String, text column ∉ allowed → ∀ a ∈ sets, columnOf a ≠ column := by
    rintro column hcolumn a - rfl
    exact hcolumn (columnOf_mem_allowed a)
  constructor
  · refine foldl_assign_frame (fun e => e.id) (fun e a _ => ?_) (hother "id" (by decide)) e
    cases a <;> rfl
  · refine foldl_assign_frame (fun e => e.createdAt) (fun e a _ => ?_) (hother "created_at" (by decide)) e
    cases a <;> rfl
  · refine fun h => foldl_assign_frame (fun e => e.name) (fun e a hcolumn => ?_) (hnot h) e
    cases a with
    | name x => exact absurd rfl hcolumn
    | _ => rfl
  · refine fun h => foldl_assign_frame (fun e => e.protocol) (fun e a hcolumn => ?_) (hnot h) e
    cases a with
    | protocol x => exact absurd rfl hcolumn
    | _ => rfl
  · refine fun h => foldl_assign_frame (fun e => e.host) (fun e a hcolumn => ?_) (hnot h) e
    cases a with
    | host x => exact absurd rfl hcolumn
    | _ => rfl
  · refine fun h => foldl_assign_frame (fun e => e.port) (fun e a hcolumn => ?_) (hnot h) e
    cases a with
    | port x => exact absurd rfl hcolumn
    | _ => rfl
  · refine fun h => foldl_assign_frame (fun e => e.path) (fun e a hcolumn => ?_) (hnot h) e
    cases a with
    | path x => exact absurd rfl hcolumn
    | _ => rfl
  · refine fun h => foldl_assign_frame (fun e => e.enabled) (fun e a hcolumn => ?_) (hnot h) e
    cases a with
    | enabled b => exact absurd rfl hcolumn
    | _ => rfl
  · refine fun h => foldl_assign_frame (fun e => e.broadcast) (fun e a hcolumn => ?_) (hnot h) e
    cases a with
    | broadcast b => exact absurd rfl hcolumn
    | _ => rfl

theorem nodup_names_map {l : List Endpoint} {e' : Endpoint} (hids : (l.map (·.id)).Nodup)
    (hnames : (l.map (·.name)).Nodup) (hfree : ∀ o ∈ l, o.id ≠ id → o.name ≠ e'.name) :
    ((l.map fun o => if o.id = id then e' else o).map (·.name)).Nodup := by
  rw [List.Nodup, List.pairwise_map] at hids hnames
  rw [List.map_map, List.Nodup, List.pairwise_map]
  refine (hids.and hnames).imp_of_mem fun {a b} ha hb hab => ?_
  obtain ⟨hid, hname⟩ := hab
  simp only [Function.comp_apply]
  split_ifs with h1 h2 h2
  · exact absurd (h1.trans h2.symm) hid
  · exact (hfree b hb h2).symm
  · exact hfree a ha h1
  · exact hname

/-- The rows after an `UPDATE`: only the one with the id is another. -/
theorem patched_exec (ht : Keyed t)
    (hsets : ((converted items).filter fun i => i.1 ∈ allowed).mapM (fun i => assignment i.1 i.2) = .ok sets)
    (hexec : (Statement.updateEndpoint id sets now).exec Q t = some t') : Patched t t' id items := by
  simp only [Statement.exec] at hexec
  split at hexec
  · rename_i hnone
    obtain rfl := Option.some.inj hexec
    refine ⟨rfl, List.forall₂_same.2 fun o ho => ?_, ht.names⟩
    rw [if_neg (by simpa using List.find?_eq_none.1 hnone o ho)]
  · rename_i e hfind
    split at hexec
    · rename_i hfits
      obtain rfl := Option.some.inj hexec
      have hmem := List.mem_of_find?_eq_some hfind
      have hid : e.id = id := by simpa using List.find?_some hfind
      refine ⟨rfl, ?_, nodup_names_map ht.ids ht.names fun o ho hne => ?_⟩
      · rw [List.forall₂_map_right_iff, List.forall₂_same]
        intro o ho
        by_cases h : o.id = id
        · obtain rfl : o = e := List.inj_on_of_nodup_map ht.ids ho hmem (h.trans hid.symm)
          rw [if_pos h, if_pos h]
          exact foldl_assign_changedIn now hsets o
        · rw [if_neg h, if_neg h]
      · exact (fits_iff.1 hfits).2.2.2.2 o (List.mem_filter.2 ⟨ho, by simpa using hne⟩)
    · cases hexec

theorem not_saysOk_of_convertPort {r : Response} (h : convertPort data = .error r) : ¬r.SaysOk := by
  unfold convertPort at h
  split at h
  · rw [← Except.error.inj h]
    exact fun h => h
  · cases h
  · split at h
    · rw [← Except.error.inj h]
      simp [errorJson, Response.SaysOk, Dict.getItem]
    · rw [← Except.error.inj h]
      exact fun h => h
    · cases data with
      | dict items => cases h
      | _ =>
        rw [← Except.error.inj h]
        exact fun h => h

/-- **What a `PATCH` that says `ok` has changed.** -/
theorem endpointsUpdate_patched (ht : Keyed t) (body : Body) (now : ℤ)
    (hok : (endpointsUpdate R t id body.json now).2.SaysOk) :
    ∃ items, payload body.json = .dict items ∧ Patched t (endpointsUpdate R t id body.json now).1 id items := by
  unfold endpointsUpdate at hok ⊢
  split at hok
  · rename_i r hr
    exact absurd hok (not_saysOk_of_convertPort hr)
  · rename_i data₁ h1
    split at hok
    · exact absurd hok not_false
    · rename_i t' ok hupdate
      obtain ⟨data₂, h2, hupdate⟩ := bind_eq_ok.1 hupdate
      obtain ⟨items', h3, hupdate⟩ := bind_eq_ok.1 hupdate
      obtain ⟨items, hpayload, rfl, -⟩ := convert_eq_ok h1 h2 h3
      obtain ⟨sets, hsets, ⟨-, -, rfl⟩ | ⟨-, -, hexec, -⟩⟩ := updateEndpoint_eq_ok.1 hupdate
      · cases saysOk_okJson.1 hok
      · exact ⟨items, hpayload, patched_exec ht hsets hexec⟩

/-- Without an `ok` a `PATCH` changes nothing. -/
theorem endpointsUpdate_unchanged (json : Option Json) (now : ℤ)
    (hok : ¬(endpointsUpdate R t id json now).2.SaysOk) : (endpointsUpdate R t id json now).1 = t := by
  unfold endpointsUpdate at hok ⊢
  split
  · rfl
  · rename_i data hdata
    rw [hdata] at hok
    split
    · rfl
    · rename_i t' ok hupdate
      simp only [hupdate, saysOk_okJson] at hok
      obtain ⟨data₂, -, hupdate⟩ := bind_eq_ok.1 hupdate
      obtain ⟨items, -, hupdate⟩ := bind_eq_ok.1 hupdate
      obtain ⟨sets, -, ⟨-, rfl, -⟩ | ⟨-, -, hexec, rfl⟩⟩ := updateEndpoint_eq_ok.1 hupdate
      · rfl
      · have hnone : t.endpoints.find? (fun o => o.id = id) = none := by
          rw [List.find?_eq_none]
          intro o ho hid
          exact hok (List.any_eq_true.2 ⟨o, ho, hid⟩)
        simp only [Statement.exec, hnone] at hexec
        exact (Option.some.inj hexec).symm

/-! ### Both routes -/

/-- A `PATCH` that is sound, and with an `ok` has changed only what it should. -/
structure SoundPatch (t : Tables) (id : ℕ) (json : Option Json) (out : Tables × Response) : Prop
    extends Sound t out where
  patched : out.2.SaysOk → ∃ items, payload json = .dict items ∧ Patched t out.1 id items

/-- **Writing the endpoints.**  `POST` is sound for every body, and `PATCH` exactly for the bodies that are
`Answered`; an exception leaves it for every other. -/
theorem endpoint_writes (R : Runtime) (ht : Keyed t) (body : Body) (now : ℤ) :
    Sound t (endpointsAdd R t body.json now) ∧
      ∀ id, SoundPatch t id body.json (endpointsUpdate R t id body.json now) ↔
        Answered R t id (payload body.json) := by
  refine ⟨endpointsAdd_sound R t body.json now, fun id => ⟨fun h => ?_, fun h => ?_⟩⟩
  · exact (endpointsUpdate_isJson_iff R t id body now).1 h.answered
  · exact ⟨⟨(endpointsUpdate_isJson_iff R t id body now).2 h, endpointsUpdate_unchanged body.json now⟩,
      endpointsUpdate_patched ht body now⟩

/-- Two endpoints, `collector` and `plotter`. -/
def twoEndpoints : Tables := serveAll asciiRuntime {} [
  .add (object [("name", .str (text "collector")), ("host", .str (text "192.168.1.20")), ("port", .int 8080)]
    (by decide)) 0,
  .add (object [("name", .str (text "plotter")), ("host", .str (text "192.168.1.30")), ("port", .int 10110)]
    (by decide)) 0]

theorem keyed_twoEndpoints : Keyed twoEndpoints := ⟨by decide +kernel, by decide +kernel⟩

/-- The first gets another port, given as text. -/
theorem endpoint_writes_port :
    let body := object [("port", .str (text "4001"))] (by decide)
    SoundPatch twoEndpoints 1 body.json (endpointsUpdate asciiRuntime twoEndpoints 1 body.json 5) ∧
      (endpointsUpdate asciiRuntime twoEndpoints 1 body.json 5).1.endpoints.map (fun e => (e.port, e.updatedAt)) =
        [(.int 4001, 5), (.int 10110, 0)] := by
  refine ⟨((endpoint_writes asciiRuntime keyed_twoEndpoints _ 5).2 1).2 (.written ?_ ⟨?_, ?_, ?_, ?_⟩), ?_⟩
  · decide
  · intro v hv
    cases (show some (Json.str (text "4001")) = some v from hv)
    exact ⟨4001, by decide, by decide⟩
  · intro k hk v hv
    have hnone : ∀ k ∈ textColumns, Dict.getItem [(text "port", Json.str (text "4001"))] (text k) = none := by decide
    cases (hnone k hk).symm.trans hv
  · decide
  · intro e he
    have hfound : (twoEndpoints.endpoints.find? fun o => o.id = 1).map target =
        some ⟨.text "collector".toList, .text "tcp".toList, .text "192.168.1.20".toList, .int 8080, false⟩ := by
      decide +kernel
    have hothers : ∀ o ∈ twoEndpoints.endpoints.filter (fun o => o.id ≠ 1),
        o.name ≠ .text "collector".toList := by decide +kernel
    rw [Option.mem_def.1 he] at hfound
    rw [Option.some.inj hfound]
    exact ⟨by decide, by decide, by decide, by decide, hothers⟩
  · decide +kernel

/-- A port that is null, the name of the other endpoint, a name with a lone surrogate, a keyword of `update_endpoint`, a
list for a host, and a body that is a list: an exception leaves `PATCH`. -/
theorem endpoint_writes_fails :
    let sound := fun json =>
      SoundPatch twoEndpoints 1 (some json) (endpointsUpdate asciiRuntime twoEndpoints 1 (some json) 5)
    ¬sound (.dict [(text "port", .null)]) ∧ ¬sound (.dict [(text "name", .str (text "plotter"))]) ∧
      ¬sound (.dict [(text "name", .str [.surrogate 0])]) ∧ ¬sound (.dict [(text "self", .int 1)]) ∧
      ¬sound (.dict [(text "host", .list [])]) ∧ ¬sound (.list [.int 1]) := by
  refine ⟨fun h => ?_, fun h => ?_, fun h => ?_, fun h => ?_, fun h => ?_, fun h => ?_⟩
  all_goals exact absurd h.answered (by decide +kernel)

end AisServer.Web
