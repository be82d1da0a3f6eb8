import AisServer.Lib.Run
import AisServer.Web.Endpoints

/-!
# The rows of the endpoints

What the requests of the JSON API leave in the table.  The schema and the form say what a row should be; the routes
check none of it.

* `mem_endpointsAdd`, `mem_endpointsUpdate` — a row after a request was there before, or is the one that the
  request describes;
* `endpointsAdd_stores`, `endpointsUpdate_stores` — that one is stored, when the request is taken;
* `serve_valid_iff` — when a request keeps every row as it should be;
* `stored_endpoints` — over every sequence of requests.
-/

namespace AisServer.Web

open AisServer.Lib AisServer.Store

/-- The columns of a row that the forwarder goes by. -/
structure Target where
  name : Value
  protocol : Value
  host : Value
  port : Value
  broadcast : Bool
  deriving DecidableEq

def target (e : Endpoint) : Target := ⟨e.name, e.protocol, e.host, e.port, e.broadcast⟩

/-- `-- tcp | udp | http` -/
def protocols : List Value := ["tcp", "udp", "http"].map fun s => .text s.toList

def nonEmpty : Value → Bool
  | .text s => s ≠ []
  | _ => false

def inPorts : Value → Bool
  | .int n => 1 ≤ n ∧ n ≤ 65535
  | _ => false

namespace Target

/-- What the comments of the schema and the form say of a row. -/
structure Valid (r : Target) : Prop where
  name : nonEmpty r.name = true
  protocol : r.protocol ∈ protocols
  host : nonEmpty r.host = true
  port : inPorts r.port = true
  broadcast : r.broadcast = true → r.protocol = .text "udp".toList

instance (r : Target) : Decidable r.Valid :=
  decidable_of_iff (nonEmpty r.name = true ∧ r.protocol ∈ protocols ∧ nonEmpty r.host = true ∧
      inPorts r.port = true ∧ (r.broadcast = true → r.protocol = .text "udp".toList))
    ⟨fun ⟨h1, h2, h3, h4, h5⟩ => ⟨h1, h2, h3, h4, h5⟩, fun ⟨h1, h2, h3, h4, h5⟩ => ⟨h1, h2, h3, h4, h5⟩⟩

/-- `NOT NULL` and `UNIQUE` -/
def Fits (r : Target) (others : List Endpoint) : Prop :=
  r.name ≠ .null ∧ r.protocol ≠ .null ∧ r.host ≠ .null ∧ r.port ≠ .null ∧ ∀ o ∈ others, o.name ≠ r.name

end Target

/-- What `request.get_json` returns: the keys of an object are distinct. -/
structure Body where
  json : Option Json
  distinct : ∀ items, json = some (.dict items) → (items.map (·.1)).Nodup

theorem Body.payload_nodup (body : Body) (items : Dict PyStr Json) (h : payload body.json = .dict items) :
    (items.map (·.1)).Nodup := by
  unfold payload Json.or at h
  split at h
  · rcases hjson : body.json with _ | json
    · rw [hjson] at h
      cases h
    · rw [hjson] at h
      exact body.distinct items (hjson.trans (congrArg some h))
  · cases h
    exact List.nodup_nil

/-- The requests that write the table. -/
inductive EndpointRequest
  | add (body : Body) (now : ℤ)
  | update (id : ℕ) (body : Body) (now : ℤ)
  | delete (id : ℕ)

/-- The tables after a request, and the response. -/
def serve (R : Runtime) (t : Tables) : EndpointRequest → Tables × Response
  | .add body now => endpointsAdd R t body.json now
  | .update id body now => endpointsUpdate R t id body.json now
  | .delete id => endpointsDelete R t id

/-- The tables after a sequence of requests. -/
def serveAll (R : Runtime) (t : Tables) (requests : List EndpointRequest) : Tables :=
  requests.foldl (fun t request => (serve R t request).1) t

variable {R : Runtime} {Q : Sqlite} {t : Tables} {id : ℕ} {body : Body} {now : ℤ} {e o : Endpoint} {r : Target}
  {data : Json} {items : Dict PyStr Json} {k : PyStr} {v : Json}

theorem fits_iff {others : List Endpoint} : e.fits others = true ↔ (target e).Fits others := by
  simp [Endpoint.fits, Target.Fits, target, and_assoc]

/-! ### A new row -/

/-- The fields that `endpoints_add` reads, texts without a lone surrogate among them. -/
structure Posted (R : Runtime) (data : Json) (name host : Str) (port : ℤ) (protocol : Str) (broadcast : Bool) : Prop where
  bound : fitsInt64 port = true
  name : (do (← data.index "name".toList).strip) = .ok (.ofStr name)
  host : (do (← data.index "host".toList).strip) = .ok (.ofStr host)
  port : (do (← data.index "port".toList).toInt) = .ok port
  protocol : (do pure (R.lower (← ((← data.get "protocol".toList .null).or (.str (text "tcp"))).asText))) =
    (.ok (.ofStr protocol) : Except PyErr PyStr)
  path : ∃ path, (do bindParam (← data.get "path".toList .null)) = .ok path
  broadcast : (do pure (← data.get "broadcast".toList (.bool false)).truthy) =
    (.ok broadcast : Except PyErr Bool)

/-- The row that these fields describe. -/
def postedRow (R : Runtime) (name host : Str) (port : ℤ) (protocol : Str) (broadcast : Bool) : Target :=
  ⟨R.sqlite.asText (.text name), R.sqlite.asText (.text protocol), R.sqlite.asText (.text host),
    R.sqlite.asInteger (.int port), broadcast⟩

theorem bindParam_int {n : ℤ} {x : Value} : bindParam (.int n) = .ok x ↔ fitsInt64 n = true ∧ x = .int n := by
  show (if fitsInt64 n = true then Except.ok (Value.int n) else Except.error PyErr.overflow) = .ok x ↔ _
  by_cases hn : fitsInt64 n = true
  · rw [if_pos hn, Except.ok.injEq]
    exact ⟨fun h => ⟨hn, h.symm⟩, fun h => h.2.symm⟩
  · rw [if_neg hn]
    exact ⟨fun h => (nomatch h), fun h => absurd h.1 hn⟩

/-- A text is bound when it has no lone surrogate. -/
theorem bindParam_str {s : PyStr} {x : Value} : bindParam (.str s) = .ok x ↔ ∃ t, s = .ofStr t ∧ x = .text t := by
  show s.encode.map Value.text = .ok x ↔ _
  simp only [← PyStr.encode_eq_ok]
  cases s.encode with
  | error e => exact ⟨fun h => (nomatch h), fun ⟨_, h, _⟩ => (nomatch h)⟩
  | ok t => simp [Except.map, eq_comm]

theorem addStatement_eq_ok {st : Statement} (h : addStatement R data now = .ok st) :
    ∃ name host port protocol path enabled broadcast, Posted R data name host port protocol broadcast ∧
      st = .insertEndpoint (.text name) (.text protocol) (.text host) (.int port) path enabled broadcast now := by
  unfold addStatement at h
  simp only [bind_eq_ok] at h
  obtain ⟨x, hx, name, hname, y, hy, host, hhost, z, hz, port, hport, p, hp, protocol, hprotocol, path, hpath,
    enabled, -, broadcast, hbroadcast, _, hbind₁, _, hbind₂, _, hbind₃, _, hbind₄, path', hpath', h⟩ := h
  cases h
  obtain ⟨name', hname', rfl⟩ := bindParam_str.1 hbind₁
  obtain ⟨protocol', hprotocol', rfl⟩ := bindParam_str.1 hbind₂
  obtain ⟨host', hhost', rfl⟩ := bindParam_str.1 hbind₃
  obtain ⟨hbound, rfl⟩ := bindParam_int.1 hbind₄
  refine ⟨name', host', port, protocol', path', enabled.truthy, broadcast.truthy, ?_, rfl⟩
  exact ⟨hbound, bind_eq_ok.2 ⟨x, hx, hname' ▸ hname⟩, bind_eq_ok.2 ⟨y, hy, hhost' ▸ hhost⟩,
    bind_eq_ok.2 ⟨z, hz, hport⟩, bind_eq_ok.2 ⟨p, hp, bind_eq_ok.2 ⟨protocol, hprotocol, congrArg _ hprotocol'⟩⟩,
    ⟨path', bind_eq_ok.2 ⟨path, hpath, hpath'⟩⟩, bind_eq_ok.2 ⟨broadcast, hbroadcast, rfl⟩⟩

theorem Posted.addStatement (now : ℤ) {name host protocol : Str} {port : ℤ} {broadcast : Bool}
    (h : Posted R data name host port protocol broadcast) : ∃ path enabled, addStatement R data now =
      .ok (.insertEndpoint (.text name) (.text protocol) (.text host) (.int port) path enabled broadcast now) := by
  obtain ⟨hbound, hname, hhost, hport, hprotocol, ⟨path, hpath⟩, hbroadcast⟩ := h
  obtain ⟨x, hx, hname⟩ := bind_eq_ok.1 hname
  obtain ⟨y, hy, hhost⟩ := bind_eq_ok.1 hhost
  obtain ⟨z, hz, hport⟩ := bind_eq_ok.1 hport
  obtain ⟨p, hp, hprotocol⟩ := bind_eq_ok.1 hprotocol
  obtain ⟨protocol', hprotocol', hprotocol⟩ := bind_eq_ok.1 hprotocol
  obtain ⟨path', hpath', hpath⟩ := bind_eq_ok.1 hpath
  obtain ⟨b, hb, hbroadcast⟩ := bind_eq_ok.1 hbroadcast
  cases hbroadcast
  -- only an object has the field `name`, and an object has `get`
  obtain ⟨enabled, henabled⟩ : ∃ enabled, data.get "enabled".toList (.bool true) = .ok enabled := by
    cases data with
    | dict items => exact ⟨_, rfl⟩
    | _ => cases hx
  refine ⟨path, enabled.truthy, ?_⟩
  unfold Web.addStatement
  simp only [bind_eq_ok]
  exact ⟨x, hx, .ofStr name, hname, y, hy, .ofStr host, hhost, z, hz, port, hport, p, hp, protocol', hprotocol', path',
    hpath', enabled, henabled, b, hb, .text name, bindParam_str.2 ⟨name, rfl, rfl⟩,
    .text protocol, bindParam_str.2 ⟨protocol, Except.ok.inj hprotocol, rfl⟩, .text host,
    bindParam_str.2 ⟨host, rfl, rfl⟩,
    .int port, bindParam_int.2 ⟨hbound, rfl⟩, path, hpath, rfl⟩

theorem exec_insertEndpoint {name protocol host port : Value} {broadcast : Bool} (path : Value) (enabled : Bool)
    (now : ℤ)
    (hfits : Target.Fits ⟨Q.asText name, Q.asText protocol, Q.asText host, Q.asInteger port, broadcast⟩ t.endpoints) :
    ∃ o, target o = ⟨Q.asText name, Q.asText protocol, Q.asText host, Q.asInteger port, broadcast⟩ ∧
      (Statement.insertEndpoint name protocol host port path enabled broadcast now).exec Q t =
        some { t with endpoints := t.endpoints ++ [o], lastEndpoint := t.lastEndpoint + 1 } := by
  refine ⟨_, ?_, if_pos ?_⟩
  · rfl
  · exact fits_iff.2 hfits

/-- A row after `endpoints_add` was there, or is the one that the body describes. -/
theorem mem_endpointsAdd {json : Option Json} (h : o ∈ (endpointsAdd R t json now).1.endpoints) :
    o ∈ t.endpoints ∨ ∃ name host port protocol broadcast, Posted R (payload json) name host port protocol broadcast ∧
      target o = postedRow R name host port protocol broadcast ∧ (target o).Fits t.endpoints := by
  rcases @endpointsAdd_cases R t json now with heq | ⟨st, hst, hexec⟩
  · rw [heq] at h
    exact Or.inl h
  · obtain ⟨name, host, port, protocol, path, enabled, broadcast, hposted, rfl⟩ := addStatement_eq_ok hst
    simp only [Statement.exec] at hexec
    split at hexec
    · rename_i hfits
      rw [← Option.some.inj hexec] at h
      rcases List.mem_append.1 h with h | h
      · exact Or.inl h
      · obtain rfl := List.mem_singleton.1 h
        exact Or.inr ⟨name, host, port, protocol, broadcast, hposted, rfl, fits_iff.1 hfits⟩
    · cases hexec

theorem endpointsAdd_stores (now : ℤ) {json : Option Json} {name host protocol : Str} {port : ℤ} {broadcast : Bool}
    (h : Posted R (payload json) name host port protocol broadcast)
    (hfits : (postedRow R name host port protocol broadcast).Fits t.endpoints) :
    ∃ o ∈ (endpointsAdd R t json now).1.endpoints, target o = postedRow R name host port protocol broadcast := by
  obtain ⟨path, enabled, hst⟩ := h.addStatement now
  obtain ⟨o, ho, hexec⟩ := exec_insertEndpoint path enabled now hfits
  refine ⟨o, ?_, ho⟩
  unfold endpointsAdd
  rw [hst]
  simp only [hexec]
  exact List.mem_append_right _ (List.mem_singleton_self _)

/-! ### A row that is changed -/

/-- The value of a column of text. -/
def stored (Q : Sqlite) (v : Json) : Value :=
  match bindParam v with
  | .ok x => Q.asText x
  | .error _ => .null

/-- The value of the column of the port. -/
def storedPort (Q : Sqlite) (v : Json) : Value :=
  match v.toInt with
  | .ok n => Q.asInteger (.int n)
  | .error _ => .null

/-- What the items give a column that holds `old`. -/
def given {α : Type} (items : Dict PyStr Json) (k : String) (old : α) (f : Json → α) : α :=
  (Dict.getItem items (text k)).elim old f

/-- The row with the items of a body in it. -/
def Target.patch (Q : Sqlite) (items : Dict PyStr Json) (r : Target) : Target where
  name := given items "name" r.name (stored Q)
  protocol := given items "protocol" r.protocol (stored Q)
  host := given items "host" r.host (stored Q)
  port := given items "port" r.port (storedPort Q)
  broadcast := given items "broadcast" r.broadcast Json.truthy

/-- The columns of text that a body can set. -/
def textColumns : List String := ["name", "protocol", "host", "path"]

/-- Nothing in the body raises, and the schema takes the row. -/
structure Taken (R : Runtime) (t : Tables) (id : ℕ) (items : Dict PyStr Json) (e : Endpoint) : Prop where
  keyword : ∀ i ∈ items, i.1 ≠ text "self" ∧ i.1 ≠ text "ep_id"
  port : ∀ v ∈ Dict.getItem items (text "port"), ∃ n, v.toInt = .ok n ∧ fitsInt64 n = true
  bound : ∀ k ∈ textColumns, ∀ v ∈ Dict.getItem items (text k), ∃ x, bindParam v = .ok x
  rowid : fitsInt64 id = true
  fits : ((target e).patch R.sqlite items).Fits (t.endpoints.filter fun o => o.id ≠ id)

/-- The column that an assignment sets. -/
def columnOf : Assignment → String
  | .name _ => "name"
  | .protocol _ => "protocol"
  | .host _ => "host"
  | .port _ => "port"
  | .path _ => "path"
  | .enabled _ => "enabled"
  | .broadcast _ => "broadcast"

/-- The assignment has the value of the item. -/
def Carries : Assignment → Json → Prop
  | .enabled b, v => b = v.truthy
  | .broadcast b, v => b = v.truthy
  | .name x, v => bindParam v = .ok x
  | .protocol x, v => bindParam v = .ok x
  | .host x, v => bindParam v = .ok x
  | .port x, v => bindParam v = .ok x
  | .path x, v => bindParam v = .ok x

theorem assignment_spec {a : Assignment} (hk : k ∈ allowed) (h : assignment k v = .ok a) :
    k = text (columnOf a) ∧ Carries a v := by
  have hmap : ∀ f : Value → Assignment, (bindParam v).map f = .ok a → ∃ x, bindParam v = .ok x ∧ a = f x := by
    intro f hf
    rcases hx : bindParam v with _ | x
    · rw [hx] at hf
      cases hf
    · rw [hx] at hf
      cases hf
      exact ⟨x, rfl, rfl⟩
  unfold assignment at h
  split_ifs at h with h1 h2 h3 h4 h5 h6
  · cases h
    exact ⟨h1, rfl⟩
  · cases h
    exact ⟨h2, rfl⟩
  · obtain ⟨x, hx, rfl⟩ := hmap _ h
    exact ⟨h3, hx⟩
  · obtain ⟨x, hx, rfl⟩ := hmap _ h
    exact ⟨h4, hx⟩
  · obtain ⟨x, hx, rfl⟩ := hmap _ h
    exact ⟨h5, hx⟩
  · obtain ⟨x, hx, rfl⟩ := hmap _ h
    exact ⟨h6, hx⟩
  · obtain ⟨x, hx, rfl⟩ := hmap _ h
    unfold allowed at hk
    simp only [List.map_cons, List.map_nil, List.mem_cons, List.not_mem_nil, or_false, h1, h2, h3, h4, h5, h6,
      false_or] at hk
    exact ⟨hk, hx⟩

theorem assignment_isOk (hk : k ∈ allowed) : (∃ a, assignment k v = .ok a) ↔
    k = text "enabled" ∨ k = text "broadcast" ∨ ∃ x, bindParam v = .ok x := by
  constructor
  · rintro ⟨a, ha⟩
    obtain ⟨rfl, hcarries⟩ := assignment_spec hk ha
    cases a with
    | enabled b => exact Or.inl rfl
    | broadcast b => exact Or.inr (Or.inl rfl)
    | _ => exact Or.inr (Or.inr ⟨_, hcarries⟩)
  · rintro (rfl | rfl | ⟨x, hx⟩)
    · exact ⟨_, rfl⟩
    · exact ⟨_, rfl⟩
    · unfold assignment
      rw [hx]
      split_ifs <;> exact ⟨_, rfl⟩

/-- The statement has one assignment for each item that it may set: a column gets the value of its item. -/
theorem foldl_assign {γ : Type} (proj : Endpoint → γ) {g : Json → γ} {column : String} {sets : List Assignment}
    (hk : text column ∈ allowed)
    (hset : ∀ (e : Endpoint) a v, columnOf a = column → Carries a v → proj (e.assign Q a) = g v)
    (hframe : ∀ (e : Endpoint) a, columnOf a ≠ column → proj (e.assign Q a) = proj e)
    (hnd : (items.map (·.1)).Nodup)
    (h : (items.filter fun i => i.1 ∈ allowed).mapM (fun i => assignment i.1 i.2) = .ok sets) (e : Endpoint) :
    proj (sets.foldl (Endpoint.assign Q) e) = given items column (proj e) g := by
  unfold given
  induction items generalizing e sets with
  | nil =>
    cases h
    rfl
  | cons i items ih =>
    obtain ⟨k, v⟩ := i
    obtain ⟨hnot, hnd'⟩ := List.nodup_cons.1 hnd
    rw [Dict.getItem]
    by_cases hallowed : k ∈ allowed
    · rw [List.filter_cons_of_pos (by simpa using hallowed), List.mapM_cons] at h
      obtain ⟨a, ha, h⟩ := bind_eq_ok.1 h
      obtain ⟨sets', hsets', h⟩ := bind_eq_ok.1 h
      cases h
      obtain ⟨rfl, hcarries⟩ := assignment_spec hallowed ha
      rw [List.foldl_cons, ih hnd' hsets']
      by_cases hcolumn : columnOf a = column
      · have hnone := Dict.getItem_eq_none.2 hnot
        subst hcolumn
        rw [hnone, if_pos rfl]
        exact hset e a v rfl hcarries
      · rw [if_neg (fun he => hcolumn (text_injective he)), hframe e a hcolumn]
    · rw [List.filter_cons_of_neg (by simpa using hallowed)] at h
      rw [ih hnd' h, if_neg (fun he : k = text column => hallowed (by rwa [he]))]

theorem target_foldl_assign {sets : List Assignment} (hnd : (items.map (·.1)).Nodup)
    (h : (items.filter fun i => i.1 ∈ allowed).mapM (fun i => assignment i.1 i.2) = .ok sets) (e : Endpoint) :
    target (sets.foldl (Endpoint.assign Q) e) = {
      name := given items "name" e.name (stored Q)
      protocol := given items "protocol" e.protocol (stored Q)
      host := given items "host" e.host (stored Q)
      port := given items "port" e.port fun v => ((bindParam v).toOption.map Q.asInteger).getD .null
      broadcast := given items "broadcast" e.broadcast Json.truthy } := by
  have hbound : ∀ {x v}, bindParam v = .ok x → stored Q v = Q.asText x := by
    intro x v hx
    rw [stored, hx]
  unfold target
  congr 1
  · refine foldl_assign (fun e => e.name) (by decide) ?_ ?_ hnd h e
    · intro e a v hcolumn hcarries
      cases a with
      | name x => exact (hbound hcarries).symm
      | _ => simp [columnOf] at hcolumn
    · intro e a hcolumn
      cases a with
      | name x => exact absurd rfl hcolumn
      | _ => rfl
  · refine foldl_assign (fun e => e.protocol) (by decide) ?_ ?_ hnd h e
    · intro e a v hcolumn hcarries
      cases a with
      | protocol x => exact (hbound hcarries).symm
      | _ => simp [columnOf] at hcolumn
    · intro e a hcolumn
      cases a with
      | protocol x => exact absurd rfl hcolumn
      | _ => rfl
  · refine foldl_assign (fun e => e.host) (by decide) ?_ ?_ hnd h e
    · intro e a v hcolumn hcarries
      cases a with
      | host x => exact (hbound hcarries).symm
      | _ => simp [columnOf] at hcolumn
    · intro e a hcolumn
      cases a with
      | host x => exact absurd rfl hcolumn
      | _ => rfl
  · refine foldl_assign (fun e => e.port) (by decide) ?_ ?_ hnd h e
    · intro e a v hcolumn hcarries
      cases a with
      | port x =>
        have hx : bindParam v = .ok x := hcarries
        rw [hx]
        rfl
      | _ => simp [columnOf] at hcolumn
    · intro e a hcolumn
      cases a with
      | port x => exact absurd rfl hcolumn
      | _ => rfl
  · refine foldl_assign (fun e => e.broadcast) (by decide) ?_ ?_ hnd h e
    · intro e a v hcolumn hcarries
      cases a with
      | broadcast b => exact hcarries
      | _ => simp [columnOf] at hcolumn
    · intro e a hcolumn
      cases a with
      | broadcast b => exact absurd rfl hcolumn
      | _ => rfl

/-! ### The body that `endpoints_update` hands on -/

/-- `int(x)`, when it does not raise. -/
def asInt (v : Json) : Json :=
  match v.toInt with
  | .ok n => .int n
  | .error _ => v

/-- The body with its port and its flag converted. -/
def converted (items : Dict PyStr Json) : Dict PyStr Json :=
  (Dict.adjust items (text "port") asInt).adjust (text "broadcast") fun v => .bool v.truthy

theorem convertPort_dict : convertPort (.dict items) = .ok data ↔
    (∀ v ∈ Dict.getItem items (text "port"), ∃ n, v.toInt = .ok n) ∧
      data = .dict (Dict.adjust items (text "port") asInt) := by
  unfold convertPort
  simp only [Json.contains, Json.index, Dict.adjust]
  rcases Dict.getItem items (text "port") with _ | v
  · simp [eq_comm]
  · simp only [Option.isSome_some, Option.mem_some_iff, forall_eq', asInt]
    rcases hn : v.toInt with e | n
    · have hraise : (Except.ok v >>= Json.toInt) = .error e := hn
      rw [hraise]
      cases e <;> simp
    · have hok : ((.ok v : Except PyErr Json) >>= Json.toInt) = .ok n := hn
      rw [hok]
      simp [Json.set, Except.mapError, text, eq_comm]

theorem convertBroadcast_dict : convertBroadcast (.dict items) =
    .ok (.dict (Dict.adjust items (text "broadcast") fun v => .bool v.truthy)) := by
  unfold convertBroadcast
  rw [Dict.adjust]
  simp only [Json.contains, Json.index, Json.set]
  rcases Dict.getItem items (text "broadcast") with _ | v
  · rfl
  · rfl

theorem keys_converted : (converted items).map (·.1) = items.map (·.1) := by
  rw [converted, Dict.keys_adjust, Dict.keys_adjust]

theorem getItem_converted (h1 : k ≠ text "port") (h2 : k ≠ text "broadcast") :
    Dict.getItem (converted items) k = Dict.getItem items k := by
  rw [converted, Dict.getItem_adjust, if_neg (Ne.symm h2), Dict.getItem_adjust, if_neg (Ne.symm h1)]

theorem getItem_converted_port :
    Dict.getItem (converted items) (text "port") = (Dict.getItem items (text "port")).map asInt := by
  rw [converted, Dict.getItem_adjust, if_neg (by decide), Dict.getItem_adjust, if_pos rfl]

theorem getItem_converted_broadcast : Dict.getItem (converted items) (text "broadcast") =
    (Dict.getItem items (text "broadcast")).map fun v => .bool v.truthy := by
  rw [converted, Dict.getItem_adjust, if_pos rfl, Dict.getItem_adjust, if_neg (by decide)]

theorem keyword_converted : (∀ i ∈ converted items, i.1 ≠ text "self" ∧ i.1 ≠ text "ep_id") ↔
    ∀ i ∈ items, i.1 ≠ text "self" ∧ i.1 ≠ text "ep_id" := by
  have hkeys : ∀ d : Dict PyStr Json, (∀ i ∈ d, i.1 ≠ text "self" ∧ i.1 ≠ text "ep_id") ↔
      ∀ k ∈ d.map (·.1), k ≠ text "self" ∧ k ≠ text "ep_id" := by
    intro d
    rw [List.forall_mem_map]
  rw [hkeys, hkeys, keys_converted]

theorem kwargs_dict {items' : Dict PyStr Json} : kwargs (.dict items) = .ok items' ↔
    (∀ i ∈ items, i.1 ≠ text "self" ∧ i.1 ≠ text "ep_id") ∧ items' = items := by
  have hany : (items.any fun i => i.1 = text "self" ∨ i.1 = text "ep_id") = true ↔
      ¬ ∀ i ∈ items, i.1 ≠ text "self" ∧ i.1 ≠ text "ep_id" := by
    simp only [List.any_eq_true, decide_eq_true_eq, not_forall, not_and_or, not_not, exists_prop]
  rw [kwargs]
  by_cases h : ∀ i ∈ items, i.1 ≠ text "self" ∧ i.1 ≠ text "ep_id"
  · rw [if_neg (fun ha => hany.1 ha h), Except.ok.injEq]
    exact ⟨fun he => ⟨h, he.symm⟩, fun he => he.2.symm⟩
  · rw [if_pos (hany.2 h)]
    exact ⟨fun he => (nomatch he), fun he => absurd he.1 h⟩

/-- What `update_endpoint` is called with: only an object can be unpacked. -/
theorem convert_eq_ok {items' : Dict PyStr Json} {data₁ data₂ : Json} (h1 : convertPort data = .ok data₁)
    (h2 : convertBroadcast data₁ = .ok data₂) (h3 : kwargs data₂ = .ok items') :
    ∃ items, data = .dict items ∧ items' = converted items ∧
      (∀ v ∈ Dict.getItem items (text "port"), ∃ n, v.toInt = .ok n) ∧
      ∀ i ∈ items, i.1 ≠ text "self" ∧ i.1 ≠ text "ep_id" := by
  by_cases hdict : ∃ items, data = .dict items
  · obtain ⟨items, rfl⟩ := hdict
    obtain ⟨hport, rfl⟩ := convertPort_dict.1 h1
    rw [convertBroadcast_dict] at h2
    cases h2
    obtain ⟨hkeys, rfl⟩ := kwargs_dict.1 h3
    exact ⟨items, rfl, rfl, hport, keyword_converted.1 hkeys⟩
  · have hindex : ∀ k, data.index k = .error .type := by
      intro k
      cases data with
      | dict items => exact absurd ⟨items, rfl⟩ hdict
      | _ => rfl
    have hsame : data₁ = data := by
      unfold convertPort at h1
      split at h1
      · cases h1
      · cases h1
        rfl
      · rw [hindex] at h1
        cases h1
    subst hsame
    have hsame : data₂ = data₁ := by
      obtain ⟨b, -, h2⟩ := bind_eq_ok.1 h2
      split at h2
      · rw [hindex] at h2
        cases h2
      · cases h2
        rfl
    subst hsame
    cases data₂ with
    | dict items => exact absurd ⟨items, rfl⟩ hdict
    | _ => cases h3

/-- The assignments of a converted body give the row what the body gives it. -/
theorem target_patched {sets : List Assignment} (hnd : (items.map (·.1)).Nodup)
    (hport : ∀ v ∈ Dict.getItem items (text "port"), ∃ n, v.toInt = .ok n ∧ fitsInt64 n = true)
    (h : ((converted items).filter fun i => i.1 ∈ allowed).mapM (fun i => assignment i.1 i.2) = .ok sets)
    (e : Endpoint) : target (sets.foldl (Endpoint.assign Q) e) = (target e).patch Q items := by
  have hnd : ((converted items).map (·.1)).Nodup := by
    rw [keys_converted]
    exact hnd
  rw [target_foldl_assign hnd h, Target.patch]
  have hsame : ∀ {α : Type} {k : String} (old : α) (f : Json → α), text k ≠ text "port" →
      text k ≠ text "broadcast" → given (converted items) k old f = given items k old f := by
    intro α k old f h1 h2
    rw [given, given, getItem_converted h1 h2]
  congr 1
  · exact hsame _ _ (by decide) (by decide)
  · exact hsame _ _ (by decide) (by decide)
  · exact hsame _ _ (by decide) (by decide)
  · rw [given, given, getItem_converted_port]
    rcases hv : Dict.getItem items (text "port") with _ | v
    · rfl
    · obtain ⟨n, hn, hfits⟩ := hport v hv
      have hbound : bindParam (.int n) = .ok (.int n) := bindParam_int.2 ⟨hfits, rfl⟩
      simp only [Option.map_some, Option.elim_some, asInt, storedPort, hn, hbound]
      rfl
  · rw [given, given, getItem_converted_broadcast]
    rcases Dict.getItem items (text "broadcast") with _ | v
    · rfl
    · rfl

theorem mapM_converted (hnd : (items.map (·.1)).Nodup)
    (hport : ∀ v ∈ Dict.getItem items (text "port"), ∃ n, v.toInt = .ok n) :
    (∃ sets, ((converted items).filter fun i => i.1 ∈ allowed).mapM (fun i => assignment i.1 i.2) = .ok sets) ↔
      (∀ v ∈ Dict.getItem items (text "port"), ∃ n, v.toInt = .ok n ∧ fitsInt64 n = true) ∧
        ∀ k ∈ textColumns, ∀ v ∈ Dict.getItem items (text k), ∃ x, bindParam v = .ok x := by
  have hnd : ((converted items).map (·.1)).Nodup := by
    rw [keys_converted]
    exact hnd
  have htext : ∀ k ∈ textColumns, text k ∈ allowed ∧ text k ≠ text "enabled" ∧
      text k ≠ text "broadcast" ∧ text k ≠ text "port" := by decide
  have hrest : ∀ k ∈ allowed, k ≠ text "enabled" → k ≠ text "broadcast" → k ≠ text "port" →
      ∃ column ∈ textColumns, k = text column := by decide
  rw [mapM_isOk]
  constructor
  · intro h
    have hitem : ∀ k ∈ allowed, ∀ v, Dict.getItem (converted items) k = some v →
        ∃ a, assignment k v = .ok a := fun k hk v hv =>
      h (k, v) (List.mem_filter.2 ⟨(Dict.getItem_eq_some hnd).1 hv, by simpa using hk⟩)
    refine ⟨fun v hv => ?_, fun k hk v hv => ?_⟩
    · obtain ⟨n, hn⟩ := hport v hv
      have hconv : Dict.getItem (converted items) (text "port") = some (.int n) := by
        rw [getItem_converted_port, Option.mem_def.1 hv, Option.map_some, asInt, hn]
      rcases (assignment_isOk (by decide)).1 (hitem _ (by decide) _ hconv) with hk | hk | ⟨x, hx⟩
      · exact absurd hk (by decide)
      · exact absurd hk (by decide)
      · exact ⟨n, hn, (bindParam_int.1 hx).1⟩
    · obtain ⟨hallowed, h1, h2, h3⟩ := htext k hk
      have hconv : Dict.getItem (converted items) (text k) = some v := by
        rw [getItem_converted h3 h2]
        exact hv
      exact (((assignment_isOk hallowed).1 (hitem _ hallowed _ hconv)).resolve_left h1).resolve_left h2
  · rintro ⟨hports, hbound⟩ ⟨k, v⟩ hi
    obtain ⟨hi, hallowed⟩ := List.mem_filter.1 hi
    have hallowed : k ∈ allowed := by simpa using hallowed
    have hv := (Dict.getItem_eq_some hnd).2 hi
    refine (assignment_isOk hallowed).2 ?_
    by_cases h1 : k = text "enabled"
    · exact Or.inl h1
    · by_cases h2 : k = text "broadcast"
      · exact Or.inr (Or.inl h2)
      · refine Or.inr (Or.inr ?_)
        by_cases h3 : k = text "port"
        · subst h3
          rw [getItem_converted_port] at hv
          obtain ⟨v', hv', rfl⟩ := Option.map_eq_some_iff.1 hv
          obtain ⟨n, hn, hfits⟩ := hports v' hv'
          rw [asInt, hn]
          exact ⟨.int n, bindParam_int.2 ⟨hfits, rfl⟩⟩
        · rw [getItem_converted h3 h2] at hv
          obtain ⟨column, hcolumn, rfl⟩ := hrest k hallowed h1 h2 h3
          exact hbound column hcolumn v hv

theorem exec_updateEndpoint (Q : Sqlite) (sets : List Assignment) (now : ℤ)
    (h : t.endpoints.find? (fun o => o.id = id) = some e) :
    ∃ e', target e' = target (sets.foldl (Endpoint.assign Q) e) ∧
      (Statement.updateEndpoint id sets now).exec Q t =
        if e'.fits (t.endpoints.filter fun o => o.id ≠ id) then
          some { t with endpoints := t.endpoints.map fun o => if o.id = id then e' else o }
        else none := by
  refine ⟨{ sets.foldl (Endpoint.assign Q) e with updatedAt := now }, rfl, ?_⟩
  simp only [Statement.exec, h]

/-- A row after `endpoints_update` was there, or is one with the items of the body in it. -/
theorem mem_endpointsUpdate {json : Option Json}
    (hnd : ∀ items, payload json = .dict items → (items.map (·.1)).Nodup)
    (h : o ∈ (endpointsUpdate R t id json now).1.endpoints) :
    o ∈ t.endpoints ∨ ∃ items e, payload json = .dict items ∧ t.endpoints.find? (fun o => o.id = id) = some e ∧
      Taken R t id items e ∧ target o = (target e).patch R.sqlite items := by
  unfold endpointsUpdate at h
  split at h
  · exact Or.inl h
  · rename_i data₁ h1
    split at h
    · exact Or.inl h
    · rename_i t' ok h2
      obtain ⟨data₂, h2, hrest⟩ := bind_eq_ok.1 h2
      obtain ⟨items', h3, hrest⟩ := bind_eq_ok.1 hrest
      obtain ⟨items, hpayload, rfl, hport, hkeyword⟩ := convert_eq_ok h1 h2 h3
      have hnd := hnd items hpayload
      unfold updateEndpoint at hrest
      obtain ⟨sets, hsets, hrest⟩ := bind_eq_ok.1 hrest
      split at hrest
      · cases hrest
        exact Or.inl h
      · split at hrest
        · rename_i hrowid
          rcases hfind : t.endpoints.find? (fun o => o.id = id) with _ | e
          · simp only [Statement.exec, hfind] at hrest
            cases hrest
            exact Or.inl h
          · obtain ⟨e', he', hexec⟩ := exec_updateEndpoint R.sqlite sets now hfind
            rw [hexec] at hrest
            split at hrest
            · cases hrest
            · rename_i _ hstored
              cases hrest
              split at hstored
              · rename_i hfits
                rw [← Option.some.inj hstored] at h
                obtain ⟨hports, hbound⟩ := (mapM_converted hnd hport).1 ⟨sets, hsets⟩
                rw [target_patched hnd hports hsets] at he'
                obtain ⟨o', ho', rfl⟩ := List.mem_map.1 h
                split
                · refine Or.inr ⟨items, e, hpayload, hfind, ⟨hkeyword, hports, hbound, hrowid, ?_⟩, he'⟩
                  exact he' ▸ fits_iff.1 hfits
                · exact Or.inl ho'
              · cases hstored
        · cases hrest

theorem endpointsUpdate_stores (now : ℤ) {json : Option Json} (hpayload : payload json = .dict items)
    (hnd : (items.map (·.1)).Nodup) (hfind : t.endpoints.find? (fun o => o.id = id) = some e)
    (h : Taken R t id items e) :
    ∃ o ∈ (endpointsUpdate R t id json now).1.endpoints, target o = (target e).patch R.sqlite items := by
  have hport : ∀ v ∈ Dict.getItem items (text "port"), ∃ n, v.toInt = .ok n := fun v hv =>
    (h.port v hv).imp fun _ hn => hn.1
  obtain ⟨sets, hsets⟩ := (mapM_converted hnd hport).2 ⟨h.port, h.bound⟩
  have htarget := target_patched (Q := R.sqlite) hnd h.port hsets e
  have hkwargs : kwargs (.dict (converted items)) = .ok (converted items) :=
    kwargs_dict.2 ⟨keyword_converted.2 h.keyword, rfl⟩
  have hmem := List.mem_of_find?_eq_some hfind
  have hid : e.id = id := by simpa using List.find?_some hfind
  obtain ⟨t', ok, hupdate, hrow⟩ : ∃ t' ok, updateEndpoint R t id (converted items) now = .ok (t', ok) ∧
      ∃ o ∈ t'.endpoints, target o = (target e).patch R.sqlite items := by
    by_cases hnil : sets = []
    · subst hnil
      refine ⟨t, false, bind_eq_ok.2 ⟨[], hsets, rfl⟩, e, hmem, htarget⟩
    · obtain ⟨e', he', hexec⟩ := exec_updateEndpoint R.sqlite sets now hfind
      rw [htarget] at he'
      rw [if_pos (fits_iff.2 (he' ▸ h.fits))] at hexec
      refine ⟨{ t with endpoints := t.endpoints.map fun o => if o.id = id then e' else o },
        t.endpoints.any fun o => o.id = id, bind_eq_ok.2 ⟨sets, hsets, ?_⟩, e', ?_, he'⟩
      · rw [if_neg hnil, if_pos h.rowid, hexec]
        rfl
      · exact List.mem_map.2 ⟨e, hmem, if_pos hid⟩
  have hconvert : (do updateEndpoint R t id (← kwargs (← convertBroadcast
      (.dict (Dict.adjust items (text "port") asInt)))) now) = .ok (t', ok) := by
    rw [convertBroadcast_dict]
    exact bind_eq_ok.2 ⟨_, rfl, bind_eq_ok.2 ⟨_, hkwargs, hupdate⟩⟩
  unfold endpointsUpdate
  rw [hpayload, convertPort_dict.2 ⟨hport, rfl⟩]
  simp only [hconvert]
  exact hrow

theorem mem_endpointsDelete (h : o ∈ (endpointsDelete R t id).1.endpoints) : o ∈ t.endpoints := by
  rcases @endpointsDelete_cases R t id with heq | heq
  · rwa [heq] at h
  · rw [heq] at h
    exact (List.mem_filter.1 h).1

/-! ### The requests that keep the rows as they should be -/

/-- A column of text keeps text, and a column of integers an integer. -/
structure Affinity (Q : Sqlite) : Prop where
  text : ∀ s, Q.asText (.text s) = .text s
  integer : ∀ n, Q.asInteger (.int n) = .int n

/-- The fields of a new row are in their ranges. -/
structure NewOk (name host : Str) (port : ℤ) (protocol : Str) (broadcast : Bool) : Prop where
  name : name ≠ []
  host : host ≠ []
  port : 1 ≤ port ∧ port ≤ 65535
  broadcast : broadcast = true → protocol = "udp".toList
  protocol : .text protocol ∈ protocols

/-- The fields that are changed are in their ranges, and the flag goes with the protocol. -/
structure PatchOk (Q : Sqlite) (items : Dict PyStr Json) (e : Endpoint) : Prop where
  name : ∀ v ∈ Dict.getItem items (text "name"), nonEmpty (stored Q v) = true
  protocol : ∀ v ∈ Dict.getItem items (text "protocol"), stored Q v ∈ protocols
  host : ∀ v ∈ Dict.getItem items (text "host"), nonEmpty (stored Q v) = true
  port : ∀ v ∈ Dict.getItem items (text "port"), ∀ n, v.toInt = .ok n → 1 ≤ n ∧ n ≤ 65535
  broadcast : given items "broadcast" e.broadcast Json.truthy = true →
    given items "protocol" e.protocol (stored Q) = .text "udp".toList

/-- The fields of a request that is taken are in their ranges. -/
def InRange (R : Runtime) (t : Tables) : EndpointRequest → Prop
  | .add body _ => ∀ name host port protocol broadcast,
    Posted R (payload body.json) name host port protocol broadcast →
      (∀ o ∈ t.endpoints, o.name ≠ .text name) → NewOk name host port protocol broadcast
  | .update id body _ => ∀ items e, payload body.json = .dict items →
    t.endpoints.find? (fun o => o.id = id) = some e → Taken R t id items e → PatchOk R.sqlite items e
  | .delete _ => True

theorem postedRow_fits (hQ : Affinity R.sqlite) {name host protocol : Str} {port : ℤ} {broadcast : Bool} :
    (postedRow R name host port protocol broadcast).Fits t.endpoints ↔ ∀ o ∈ t.endpoints, o.name ≠ .text name := by
  simp [Target.Fits, postedRow, hQ.text, hQ.integer]

theorem postedRow_valid (hQ : Affinity R.sqlite) {name host protocol : Str} {port : ℤ} {broadcast : Bool} :
    (postedRow R name host port protocol broadcast).Valid ↔ NewOk name host port protocol broadcast := by
  simp only [postedRow, hQ.text, hQ.integer]
  constructor
  · rintro ⟨h1, h2, h3, h4, h5⟩
    exact ⟨by simpa [nonEmpty] using h1, by simpa [nonEmpty] using h3, by simpa [inPorts] using h4,
      fun hb => by simpa using h5 hb, h2⟩
  · rintro ⟨h1, h2, h3, h4, h5⟩
    exact ⟨by simpa [nonEmpty] using h1, h5, by simpa [nonEmpty] using h2, by simpa [inPorts] using h3,
      fun hb => by simpa using h4 hb⟩

/-- What holds of a column holds of it with the body in it, when it does of the item. -/
theorem given_iff {α : Type} {P : α → Prop} {k : String} {old : α} {f : Json → α} (items : Dict PyStr Json)
    (hold : P old) :
    P (given items k old f) ↔ ∀ v ∈ Dict.getItem items (text k), P (f v) := by
  unfold given
  cases Dict.getItem items (text k) <;> simp [hold]

theorem patch_valid (hQ : Affinity Q) (he : (target e).Valid)
    (hport : ∀ v ∈ Dict.getItem items (text "port"), ∃ n, v.toInt = .ok n ∧ fitsInt64 n = true) :
    ((target e).patch Q items).Valid ↔ PatchOk Q items e := by
  have hname := given_iff (P := fun x => nonEmpty x = true) (f := stored Q) (k := "name") items he.name
  have hprotocol := given_iff (P := fun x => x ∈ protocols) (f := stored Q) (k := "protocol") items he.protocol
  have hhost := given_iff (P := fun x => nonEmpty x = true) (f := stored Q) (k := "host") items he.host
  have hports := given_iff (P := fun x => inPorts x = true) (f := storedPort Q) (k := "port") items he.port
  have hport' : (∀ v ∈ Dict.getItem items (text "port"), inPorts (storedPort Q v) = true) ↔
      ∀ v ∈ Dict.getItem items (text "port"), ∀ n, v.toInt = .ok n → 1 ≤ n ∧ n ≤ 65535 := by
    refine forall₂_congr fun v hv => ?_
    obtain ⟨n, hn, -⟩ := hport v hv
    simp [storedPort, hn, hQ.integer, inPorts]
  rw [hport'] at hports
  constructor
  · rintro ⟨h1, h2, h3, h4, h5⟩
    exact ⟨hname.1 h1, hprotocol.1 h2, hhost.1 h3, hports.1 h4, h5⟩
  · rintro ⟨h1, h2, h3, h4, h5⟩
    exact ⟨hname.2 h1, hprotocol.2 h2, hhost.2 h3, hports.2 h4, h5⟩

/-- One request: the rows are as they should be exactly when its fields are in their ranges. -/
theorem serve_valid_iff (hQ : Affinity R.sqlite) (ht : ∀ e ∈ t.endpoints, (target e).Valid)
    (request : EndpointRequest) :
    (∀ o ∈ (serve R t request).1.endpoints, (target o).Valid) ↔ InRange R t request := by
  cases request with
  | add body now =>
    constructor
    · intro h name host port protocol broadcast hposted hfree
      obtain ⟨o, ho, htarget⟩ := endpointsAdd_stores now hposted ((postedRow_fits hQ).2 hfree)
      exact (postedRow_valid hQ).1 (htarget ▸ h o ho)
    · intro h o ho
      rcases mem_endpointsAdd ho with ho | ⟨name, host, port, protocol, broadcast, hposted, htarget, hfits⟩
      · exact ht o ho
      · rw [htarget] at hfits ⊢
        exact (postedRow_valid hQ).2 (h name host port protocol broadcast hposted ((postedRow_fits hQ).1 hfits))
  | update id body now =>
    have hnd := body.payload_nodup
    constructor
    · intro h items e hpayload hfind htaken
      obtain ⟨o, ho, htarget⟩ := endpointsUpdate_stores now hpayload (hnd items hpayload) hfind htaken
      exact (patch_valid hQ (ht e (List.mem_of_find?_eq_some hfind)) htaken.port).1 (htarget ▸ h o ho)
    · intro h o ho
      rcases mem_endpointsUpdate hnd ho with ho | ⟨items, e, hpayload, hfind, htaken, htarget⟩
      · exact ht o ho
      · rw [htarget]
        exact (patch_valid hQ (ht e (List.mem_of_find?_eq_some hfind)) htaken.port).2
          (h items e hpayload hfind htaken)
  | delete id =>
    refine iff_of_true (fun o ho => ht o ?_) trivial
    rw [show serve R t (.delete id) = endpointsDelete R t id from rfl] at ho
    exact mem_endpointsDelete ho

/-- The requests of the API as steps; each of them is possible. -/
def serveStep (R : Runtime) (t : Tables) (request : EndpointRequest) : Option Tables := some (serve R t request).1

/-- **The rows of the endpoints.**  From a table whose rows are as they should be, a sequence of requests leaves
them so at every point exactly when the fields of each request that is taken are in their ranges. -/
theorem stored_endpoints (hQ : Affinity R.sqlite) (ht : ∀ e ∈ t.endpoints, (target e).Valid)
    (requests : List EndpointRequest) :
    Guarded (serveStep R) (InRange R) t requests ↔
      ∀ fs, fs <+: requests → ∀ e ∈ (serveAll R t fs).endpoints, (target e).Valid := by
  have hrun : ∀ fs, run (serveStep R) t fs = some (serveAll R t fs) := run_total _ t
  rw [guarded_iff (I := fun t => ∀ e ∈ t.endpoints, (target e).Valid) (fun t r u ht hr hstep => ?_)
    (fun t ht => ht) (fun t r u ht hr hstep hu => ?_) ht (hrun requests)]
  · simp only [hrun, Option.some.injEq, forall_eq']
  · cases hstep
    exact (serve_valid_iff hQ ht r).2 hr
  · cases hstep
    exact hr ((serve_valid_iff hQ ht r).1 hu)

/-- A runtime for names in ASCII, with a database that stores what it is given. -/
def asciiRuntime : Runtime where
  bcrypt := { hashpw := fun password _ => password, checkpw := fun password hash => some (password = hash) }
  sqlite := ⟨fun v => v, fun v => v⟩
  lower := asciiLower
  excText := fun _ => []

/-- The body of a request with these fields. -/
def object (items : List (String × Json)) (h : (items.map fun i => text i.1).Nodup) : Body where
  json := some (.dict (items.map fun i => (text i.1, i.2)))
  distinct items' h' := by
    cases h'
    rwa [List.map_map]

/-- A broadcast endpoint is made, moved to another port and deleted. -/
def plotter : List EndpointRequest := [
  .add (object [("name", .str (text "plotter")), ("host", .str (text "192.168.1.255")), ("port", .str (text "10110")),
    ("protocol", .str (text "UDP")), ("broadcast", .bool true)] (by decide)) 0,
  .update 1 (object [("port", .int 4001)] (by decide)) 1,
  .delete 1]

theorem stored_endpoints_plotter : Guarded (serveStep asciiRuntime) (InRange asciiRuntime) {} plotter := by
  have hall : ∀ fs ∈ plotter.inits, ∀ e ∈ (serveAll asciiRuntime {} fs).endpoints, (target e).Valid := by
    decide +kernel
  refine (stored_endpoints ⟨fun _ => rfl, fun _ => rfl⟩ (by simp) plotter).2 fun fs hfs => ?_
  exact hall fs ((List.mem_inits _ _).2 hfs)

/-- A form that is filled in wrongly, and a protocol in capitals: the row has a port that no socket has, broadcasts
over TCP, and then has a protocol for which there is no loop. -/
theorem stored_endpoints_fails :
    let post : EndpointRequest := .add (object [("name", .str (text "plotter")), ("host", .str (text "192.168.1.20")),
      ("port", .int 70000), ("broadcast", .bool true)] (by decide)) 0
    let patch : EndpointRequest := .update 1 (object [("protocol", .str (text "UDP"))] (by decide)) 1
    (serveAll asciiRuntime {} [post]).endpoints.map target =
        [⟨.text "plotter".toList, .text "tcp".toList, .text "192.168.1.20".toList, .int 70000, true⟩] ∧
      (serveAll asciiRuntime {} [post, patch]).endpoints.map target =
        [⟨.text "plotter".toList, .text "UDP".toList, .text "192.168.1.20".toList, .int 70000, true⟩] ∧
      ∀ r ∈ [post, patch].inits.tail, ∃ e ∈ (serveAll asciiRuntime {} r).endpoints, ¬ (target e).Valid := by
  decide +kernel

end AisServer.Web
