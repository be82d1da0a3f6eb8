import AisServer.Forward.TestEndpoint
import AisServer.Lib.Json
import AisServer.Store.Database
import Mathlib.Algebra.Group.Int.Defs

/-!
# The endpoint routes of the JSON API

`endpoints_list`, `endpoints_add`, `endpoints_update`, `endpoints_delete` and `endpoints_test` of `api.py` with the
methods of `Database` that they call.  The body of a request is what `request.get_json(silent=True)` returns, `none` when that is
`None`; a response `serverError` is an exception that leaves the view.
-/

namespace AisServer.Web

open AisServer.Lib AisServer.Store

/-- What the program runs on: its libraries, and the Unicode tables and messages of Python. -/
structure Runtime where
  bcrypt : Bcrypt
  sqlite : Sqlite
  /-- `str.lower` -/
  lower : PyStr → PyStr
  /-- `str(exc)` -/
  excText : PyErr → Str

/-- `str.lower` as far as ASCII goes. -/
def asciiLower (s : PyStr) : PyStr := s.map fun
  | .char c => .char c.toLower
  | .surrogate n => .surrogate n

inductive Response
  | json (status : ℕ) (body : Json)
  | redirect (endpoint : Str)
  | template (name : Str) (flash : Option Str)
  /-- A download. -/
  | file
  | serverError (e : PyErr)

/-- `jsonify({"ok": ok})` -/
def okJson (ok : Bool) : Response := .json 200 (.dict [(text "ok", .bool ok)])

/-- `jsonify({"ok": ok, "message": message})` -/
def messageJson (ok : Bool) (message : Str) : Response :=
  .json 200 (.dict [(text "ok", .bool ok), (text "message", .str (.ofStr message))])

/-- `jsonify({"ok": False, "error": error}), status` -/
def errorJson (status : ℕ) (error : Str) : Response :=
  .json status (.dict [(text "ok", .bool false), (text "error", .str (.ofStr error))])

/-- `request.get_json(silent=True) or {}` -/
def payload (body : Option Json) : Json := (body.getD .null).or (.dict [])

/-- The integers that SQLite stores. -/
def fitsInt64 (n : ℤ) : Bool := -2 ^ 63 ≤ n ∧ n < 2 ^ 63

/-- An object that is bound to a parameter of a statement. -/
def bindParam : Json → Except PyErr Value
  | .null => .ok .null
  | .bool b => .ok (.int b.toNat)
  | .int n => if fitsInt64 n then .ok (.int n) else .error .overflow
  | .float (.finite q) => .ok (.real q)
  | .float (.inf negative) => .ok (.infinity negative)
  | .float .nan => .ok .null
  | .str s => s.encode.map .text
  | _ => .error .binding

/-! ### `GET /api/endpoints` -/

/-- What a column yields. -/
def ofValue : Value → Json
  | .null => .null
  | .int n => .int n
  | .real q => .float (.finite q)
  | .infinity negative => .float (.inf negative)
  | .text s => .str (.ofStr s)

/-- `ORDER BY name`; the names are text. -/
def nameLe (a b : Endpoint) : Bool :=
  match a.name, b.name with
  | .text s, .text t => !decide (t < s)
  | _, _ => true

def listEndpoints (t : Tables) : List Endpoint := t.endpoints.mergeSort nameLe

/-- `as_dict_endpoints` -/
def asDictEndpoints (t : Tables) : Json :=
  .list ((listEndpoints t).map fun e => .dict [
    (text "id", .int e.id), (text "name", ofValue e.name), (text "protocol", ofValue e.protocol),
    (text "host", ofValue e.host), (text "port", ofValue e.port), (text "path", ofValue e.path),
    (text "enabled", .bool e.enabled), (text "broadcast", .bool e.broadcast)])

/-! ### `POST /api/endpoints` -/

/-- The statement of `add_endpoint` with the arguments that `endpoints_add` reads from the body. -/
def addStatement (R : Runtime) (data : Json) (now : ℤ) : Except PyErr Statement := do
  let name ← (← data.index "name".toList).strip
  let host ← (← data.index "host".toList).strip
  let port ← (← data.index "port".toList).toInt
  let protocol ← ((← data.get "protocol".toList .null).or (.str (text "tcp"))).asText
  let path ← data.get "path".toList .null
  let enabled ← data.get "enabled".toList (.bool true)
  let broadcast ← data.get "broadcast".toList (.bool false)
  pure (.insertEndpoint (← bindParam (.str name)) (← bindParam (.str (R.lower protocol))) (← bindParam (.str host))
    (← bindParam (.int port)) (← bindParam path) enabled.truthy broadcast.truthy now)

/-- The view `endpoints_add`. -/
def endpointsAdd (R : Runtime) (t : Tables) (body : Option Json) (now : ℤ) : Tables × Response :=
  match addStatement R (payload body) now with
  | .error (.key k) => (t, errorJson 400 ("missing field: '".toList ++ k ++ ['\'']))
  | .error e => (t, errorJson 400 (R.excText e))
  | .ok st =>
    match st.exec R.sqlite t with
    | none => (t, errorJson 400 (R.excText .integrity))
    | some t' => (t', .json 200 (.dict [(text "ok", .bool true), (text "id", .int t'.lastEndpoint)]))

/-! ### `PATCH /api/endpoints/<id>` -/

/-- `if "port" in data: …` -/
def convertPort (data : Json) : Except Response Json :=
  match data.contains "port".toList with
  | .error e => .error (.serverError e)
  | .ok false => .ok data
  | .ok true =>
    match data.index "port".toList >>= Json.toInt with
    | .error .value => .error (errorJson 400 "bad port".toList)
    | .error e => .error (.serverError e)
    | .ok n => (data.set "port".toList (.int n)).mapError .serverError

/-- `if "broadcast" in data: …` -/
def convertBroadcast (data : Json) : Except PyErr Json := do
  if ← data.contains "broadcast".toList then
    data.set "broadcast".toList (.bool (← data.index "broadcast".toList).truthy)
  else pure data

/-- The keyword arguments of `update_endpoint(ep_id, **data)`. -/
def kwargs : Json → Except PyErr (Dict PyStr Json)
  | .dict items =>
    if items.any fun i => i.1 = text "self" ∨ i.1 = text "ep_id" then .error .type else .ok items
  | _ => .error .type

/-- The columns that `update_endpoint` may set. -/
def allowed : List PyStr :=
  ["name", "protocol", "host", "port", "path", "enabled", "broadcast"].map text

/-- One pass of the loop in `update_endpoint`, for an allowed key. -/
def assignment (k : PyStr) (v : Json) : Except PyErr Assignment :=
  if k = text "enabled" then .ok (.enabled v.truthy)
  else if k = text "broadcast" then .ok (.broadcast v.truthy)
  else if k = text "name" then (bindParam v).map .name
  else if k = text "protocol" then (bindParam v).map .protocol
  else if k = text "host" then (bindParam v).map .host
  else if k = text "port" then (bindParam v).map .port
  else (bindParam v).map .path

/-- `update_endpoint` -/
def updateEndpoint (R : Runtime) (t : Tables) (id : ℕ) (items : Dict PyStr Json) (now : ℤ) :
    Except PyErr (Tables × Bool) := do
  let sets ← (items.filter fun i => i.1 ∈ allowed).mapM fun i => assignment i.1 i.2
  if sets = [] then pure (t, false)
  else if fitsInt64 id then
    match (Statement.updateEndpoint id sets now).exec R.sqlite t with
    | none => .error .integrity
    | some t' => pure (t', t.endpoints.any fun e => e.id = id)
  else .error .overflow

/-- The view `endpoints_update`. -/
def endpointsUpdate (R : Runtime) (t : Tables) (id : ℕ) (body : Option Json) (now : ℤ) :
    Tables × Response :=
  match convertPort (payload body) with
  | .error r => (t, r)
  | .ok data =>
    match do updateEndpoint R t id (← kwargs (← convertBroadcast data)) now with
    | .error e => (t, .serverError e)
    | .ok (t', ok) => (t', okJson ok)

/-! ### `DELETE /api/endpoints/<id>` -/

/-- The view `endpoints_delete`. -/
def endpointsDelete (R : Runtime) (t : Tables) (id : ℕ) : Tables × Response :=
  if fitsInt64 id then
    ((Statement.deleteEndpoint id).apply R.sqlite t, okJson (t.endpoints.any fun e => e.id = id))
  else (t, .serverError .overflow)

/-! ### `POST /api/endpoints/<id>/test` -/

/-- The default of `test_endpoint`. -/
def defaultSentence : Str := "!AIVDM,1,1,,A,13aEOK?P00PD2wVMdLDRhgvL289?,0*26".toList

/-- The view `endpoints_test`. -/
def endpointsTest (net : Forward.Network) (t : Tables) (id : ℕ) : Response :=
  if fitsInt64 id then
    match t.endpoints.find? fun e => e.id = id with
    | none => errorJson 404 "not found".toList
    | some ep =>
      messageJson (Forward.testEndpoint net ep defaultSentence).1 (Forward.testEndpoint net ep defaultSentence).2
  else .serverError .overflow

/-! ### What the routes do to the tables -/

variable {R : Runtime} {t : Tables} {id : ℕ} {body : Option Json} {now : ℤ}

theorem addStatement_ok {data : Json} {st : Statement} (h : addStatement R data now = .ok st) :
    ∃ name protocol host port path enabled broadcast,
      st = .insertEndpoint name protocol host port path enabled broadcast now := by
  unfold addStatement at h
  simp only [bind_eq_ok] at h
  obtain ⟨_, -, name, -, _, -, host, -, _, -, port, -, _, -, protocol, -, path, -, enabled, -,
    broadcast, -, name', -, protocol', -, host', -, port', -, path', -, h⟩ := h
  cases h
  exact ⟨_, _, _, _, _, _, _, rfl⟩

theorem endpointsAdd_cases : (endpointsAdd R t body now).1 = t ∨
    ∃ st, addStatement R (payload body) now = .ok st ∧
      st.exec R.sqlite t = some (endpointsAdd R t body now).1 := by
  unfold endpointsAdd
  split
  · exact Or.inl rfl
  · exact Or.inl rfl
  · rename_i st hst
    split
    · exact Or.inl rfl
    · rename_i t' ht'
      exact Or.inr ⟨st, hst, ht'⟩

theorem updateEndpoint_cases {items : Dict PyStr Json} {t' : Tables} {ok : Bool}
    (h : updateEndpoint R t id items now = .ok (t', ok)) :
    t' = t ∨ ∃ sets, (Statement.updateEndpoint id sets now).exec R.sqlite t = some t' := by
  unfold updateEndpoint at h
  obtain ⟨sets, -, h⟩ := bind_eq_ok.1 h
  split at h
  · cases h
    exact Or.inl rfl
  · split at h
    · split at h
      · cases h
      · rename_i t'' ht''
        cases h
        exact Or.inr ⟨sets, ht''⟩
    · cases h

theorem endpointsUpdate_cases : (endpointsUpdate R t id body now).1 = t ∨
    ∃ sets, (Statement.updateEndpoint id sets now).exec R.sqlite t =
      some (endpointsUpdate R t id body now).1 := by
  unfold endpointsUpdate
  split
  · exact Or.inl rfl
  · split
    · exact Or.inl rfl
    · rename_i t' ok h
      obtain ⟨data, -, h⟩ := bind_eq_ok.1 h
      obtain ⟨items, -, h⟩ := bind_eq_ok.1 h
      exact updateEndpoint_cases h

theorem endpointsDelete_cases : (endpointsDelete R t id).1 = t ∨
    (endpointsDelete R t id).1 = (Statement.deleteEndpoint id).apply R.sqlite t := by
  unfold endpointsDelete
  split
  · exact Or.inr rfl
  · exact Or.inl rfl

end AisServer.Web
