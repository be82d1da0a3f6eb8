import AisServer.Lib.Run
import AisServer.Stream.Events
import AisServer.Web.Endpoints

/-!
# The web application

The state of the Flask application with its Socket.IO server, and `App.step` for what its clients and the
pipeline do.  `App.handle` is the routing table; a view behind `login_required` is wrapped in `loginRequired`.

What stands here for Flask and `flask_login` is what they document, not code of this program: Flask keeps no sessions,
a session is a signed cookie, so that a client presents one that the server has issued, or none; `login_user` and
`logout_user` put the id of the user into that cookie and take it out; and `login_required` sends a client whose cookie
names no user of the table to the login page.
-/

namespace AisServer.Web

open AisServer.Lib AisServer.Store AisServer.Stream

inductive Page
  | dashboard
  | wifi
  | nodes
  | dataIn
  | dataOut
  | endpoints
  | system

/-- The file that the view of a page renders. -/
def Page.template : Page → Str
  | .dashboard => "dashboard.html".toList
  | .wifi => "wifi.html".toList
  | .nodes => "nodes.html".toList
  | .dataIn => "data_in.html".toList
  | .dataOut => "data_out.html".toList
  | .endpoints => "endpoints.html".toList
  | .system => "system.html".toList

/-- The routes with what they read from the request; a form field or a query argument may be missing. -/
inductive Request
  | page (p : Page)
  | loginForm
  | login (username password : Option Str)
  | logout
  | changePasswordForm
  | changePassword (current new confirm : Option Str)
  | status
  | healthz
  | endpointsList
  | endpointsAdd (body : Option Json)
  | endpointsUpdate (id : ℕ) (body : Option Json)
  | endpointsDelete (id : ℕ)
  | endpointsTest (id : ℕ)
  | wifiScan
  | wifiCurrent
  | wifiEthernet
  | wifiSaved
  | wifiConnect (body : Option Json)
  | wifiForget (body : Option Json)
  | apiChangePassword (body : Option Json)
  | backup
  | backupsList
  | systemInfo
  | systemRestart
  | systemReboot
  | recentIncoming (n : Option Str)
  | recentOutgoing (n : Option Str)

/-- What a request meets outside the program. -/
structure World where
  now : ℤ
  /-- `bcrypt.gensalt` -/
  salt : Str
  /-- Whether `nmcli` is installed. -/
  nmcli : Bool
  /-- The exit code and the output of a command. -/
  process : ℤ × Str × Str
  /-- What `test_endpoint` meets. -/
  net : Forward.Network
  /-- What a read-out of the system or of the statistics yields. -/
  readOut : Json

/-- A process that is started to change the machine or its network. -/
inductive Command
  | restart
  | reboot
  | wifiConnect (ssid : PyStr) (password : Option PyStr)
  | wifiForget (ssid : PyStr)
  deriving DecidableEq

/-- Pipeline data that reached a client, and whether the client was logged in. -/
structure Receipt where
  client : ℕ
  loggedIn : Bool
  payload : UiEvent
  deriving DecidableEq

structure App where
  /-- `force_password_change_on_first_login` -/
  force : Bool
  tables : Tables
  events : EventBus
  /-- The user id in the session cookie that a client presents. -/
  cookie : ℕ → Option ℕ := fun _ => none
  /-- The user ids in the cookies that were issued. -/
  issued : List ℕ := []
  /-- The clients of the open connections to `/live`. -/
  sockets : List ℕ := []
  commands : List Command := []
  received : List Receipt := []

namespace App

variable (R : Runtime) (s : App) (c : ℕ) (w : World)

/-- `current_user` of `flask_login`, which calls the `user_loader`; `none` for an anonymous one. -/
def currentUser : Option User := (s.cookie c).bind s.tables.getUserById

/-- `login_required` of `flask_login`, with the view of `login_view`. -/
def loginRequired (view : User → App × Response) : App × Response :=
  match s.currentUser c with
  | none => (s, .redirect "auth.login".toList)
  | some user => view user

/-! ### Pages and passwords -/

def guardForcedChange (user : User) : Option Response :=
  if user.mustChangePassword && s.force then some (.redirect "auth.change_password".toList) else none

/-- The view of a page. -/
def page (p : Page) (user : User) : Response := (s.guardForcedChange user).getD (.template p.template none)

/-- `POST /login` -/
def login (username password : Option Str) : App × Response :=
  if (s.currentUser c).isSome then (s, .redirect "views.dashboard".toList)
  else
    match s.tables.verifyPassword R.bcrypt R.sqlite (strip spaces (username.getD []))
        (password.getD []) w.now with
    | (none, t) =>
      ({ s with tables := t }, .template "login.html".toList (some "Invalid username or password".toList))
    | (some user, t) =>
      ({ s with
          tables := t
          cookie := Function.update s.cookie c (some user.id)
          issued := user.id :: s.issued },
        .redirect (if user.mustChangePassword && s.force then "auth.change_password".toList
          else "views.dashboard".toList))

/-- `logout_user` -/
def logout : App × Response :=
  ({ s with cookie := Function.update s.cookie c none }, .redirect "auth.login".toList)

/-- `POST /change-password` -/
def changePassword (user : User) (current new confirm : Option Str) : App × Response :=
  let failed (t : Tables) (message : String) : App × Response :=
    ({ s with tables := t }, .template "change_password.html".toList (some message.toList))
  match s.tables.verifyPassword R.bcrypt R.sqlite user.username (current.getD []) w.now with
  | (none, t) => failed t "Current password is incorrect"
  | (some _, t) =>
    if (new.getD []).length < 8 then failed t "New password must be at least 8 characters"
    else if new.getD [] ≠ confirm.getD [] then failed t "Passwords do not match"
    else ({ s with tables := (t.setPassword R.bcrypt R.sqlite user.username (new.getD []) w.salt true).2 },
      .redirect "views.dashboard".toList)

/-- `verify_password`, which catches the exception of a text that cannot be encoded. -/
def verifyText (user : User) (cur : PyStr) : Option User × Tables :=
  match cur.encode with
  | .error _ => (none, s.tables)
  | .ok cur => s.tables.verifyPassword R.bcrypt R.sqlite user.username cur w.now

/-- `POST /api/system/change-password` -/
def apiChangePassword (user : User) (body : Option Json) : App × Response :=
  let data := payload body
  match do
      let cur ← data.get "current_password".toList .null
      let new ← data.get "new_password".toList .null
      pure (← (cur.or (.str [])).asText, new.or (.str [])) with
  | .error e => (s, .serverError e)
  | .ok (cur, new) =>
    match s.verifyText R w user cur with
    | (none, t) => ({ s with tables := t }, errorJson 400 "wrong current password".toList)
    | (some _, t) =>
      match do
          if (← new.len) < 8 then pure none else pure (some (← (← new.asText).encode)) with
      | .error e => ({ s with tables := t }, .serverError e)
      | .ok none => ({ s with tables := t }, errorJson 400 "min 8 chars".toList)
      | .ok (some new) =>
        ({ s with tables := (t.setPassword R.bcrypt R.sqlite user.username new w.salt true).2 },
          okJson true)

/-! ### Wi-Fi, system and recent data -/

/-- `(data.get("ssid") or "").strip()`, which must not be empty. -/
def ssidOf (data : Json) : Except Response PyStr :=
  match do ((← data.get "ssid".toList .null).or (.str [])).strip with
  | .error e => .error (.serverError e)
  | .ok ssid => if ssid = [] then .error (errorJson 400 "ssid required".toList) else .ok ssid

/-- A code point that `os.fsencode` can encode: a byte that is not UTF-8 stands as a surrogate in file names. -/
def fsEncodable : CodePoint → Bool
  | .char _ => true
  | .surrogate n => 0xdc80 ≤ 0xd800 + n.val ∧ 0xd800 + n.val ≤ 0xdcff

/-- An argument of a process: text that can be encoded, without a null character. -/
def processArg : Json → Except Response PyStr
  | .str s =>
    if s.all fsEncodable then
      if .char '\x00' ∈ s then .error (.serverError .value) else .ok s
    else .error (.serverError .encoding)
  | _ => .error (.serverError .type)

/-- The command that `wifi_connect` runs, or its response when it runs none. -/
def connectCommand (body : Option Json) : Except Response Command := do
  let data := payload body
  let ssid ← ssidOf data
  let password ← (data.get "password".toList .null).mapError .serverError
  if w.nmcli then
    let ssid ← processArg (.str ssid)
    if password.truthy then pure (.wifiConnect ssid (some (← processArg password)))
    else pure (.wifiConnect ssid none)
  else .error (messageJson false "nmcli not available".toList)

/-- The command that `wifi_forget` runs, or its response when it runs none. -/
def forgetCommand (body : Option Json) : Except Response Command := do
  let ssid ← ssidOf (payload body)
  if w.nmcli then pure (.wifiForget (← processArg (.str ssid)))
  else .error (messageJson false "nmcli not available".toList)

/-- `(text or other).strip()` for the first text that is not empty. -/
def firstText (texts : List Str) : Str := strip spaces ((texts.find? (· ≠ [])).getD [])

/-- What `connect` and `forget` report of the process. -/
def processReport (success : World → Str) (failure : String) : Response :=
  if w.process.1 = 0 then messageJson true (success w)
  else messageJson false (firstText [w.process.2.2, w.process.2.1, failure.toList])

/-- A view that runs a command, if the request is in order. -/
def runCommand (command : Except Response Command) (report : Response) : App × Response :=
  match command with
  | .error r => (s, r)
  | .ok command => ({ s with commands := s.commands ++ [command] }, report)

/-- The payload of an event as JSON. -/
def ofUiEvent : UiEvent → Json
  | .incoming sentence peer ts mmsi => .dict [
    (text "sentence", .str (.ofStr sentence)), (text "peer", .str (.ofStr peer)), (text "ts", .float (.finite ts)),
    (text "mmsi", (mmsi.map fun n => Json.int n).getD .null)]
  | .outgoing endpointId endpoint sentence ts => .dict [
    (text "endpoint_id", .int endpointId), (text "endpoint", .str (.ofStr endpoint)),
    (text "sentence", .str (.ofStr sentence)), (text "ts", .float (.finite ts))]

/-- `recent(topic, n)`, where a negative `n` leaves out the first payloads. -/
def recentPayloads (topic : Str) (n : ℤ) : List UiEvent :=
  if n < 0 then (s.events.rings topic).drop n.natAbs else s.events.recent topic n.toNat

/-- `recent_incoming` and `recent_outgoing` -/
def recent (topic : Str) (n : Option Str) : App × Response :=
  match (n.elim (Json.int 100) fun n => .str (.ofStr n)).toInt with
  | .error e => (s, .serverError e)
  | .ok n =>
    let payloads := s.recentPayloads topic (min n 500)
    ({ s with received := s.received ++ payloads.map fun p => ⟨c, (s.currentUser c).isSome, p⟩ },
      .json 200 (.list (payloads.map ofUiEvent)))

/-! ### Requests and events -/

/-- A view that changes the tables only. -/
def onTables (r : Tables × Response) : App × Response := ({ s with tables := r.1 }, r.2)

/-- The view of a route. -/
def handle : Request → App × Response
  | .page p => s.loginRequired c fun user => (s, s.page p user)
  | .loginForm =>
    (s, if (s.currentUser c).isSome then .redirect "views.dashboard".toList
      else .template "login.html".toList none)
  | .login username password => s.login R c w username password
  | .logout => s.loginRequired c fun _ => s.logout c
  | .changePasswordForm => s.loginRequired c fun _ => (s, .template "change_password.html".toList none)
  | .changePassword current new confirm =>
    s.loginRequired c fun user => s.changePassword R w user current new confirm
  | .healthz => (s, .json 200 (.dict [(text "ok", .bool true), (text "uptime", w.readOut)]))
  | .status => s.loginRequired c fun _ => (s, .json 200 w.readOut)
  | .endpointsList => s.loginRequired c fun _ => (s, .json 200 (asDictEndpoints s.tables))
  | .endpointsAdd body =>
    s.loginRequired c fun _ => s.onTables (endpointsAdd R s.tables body w.now)
  | .endpointsUpdate id body =>
    s.loginRequired c fun _ => s.onTables (endpointsUpdate R s.tables id body w.now)
  | .endpointsDelete id => s.loginRequired c fun _ => s.onTables (endpointsDelete R s.tables id)
  | .endpointsTest id => s.loginRequired c fun _ => (s, endpointsTest w.net s.tables id)
  | .wifiScan => s.loginRequired c fun _ => (s, .json 200 w.readOut)
  | .wifiCurrent => s.loginRequired c fun _ => (s, .json 200 w.readOut)
  | .wifiEthernet => s.loginRequired c fun _ => (s, .json 200 w.readOut)
  | .wifiSaved => s.loginRequired c fun _ => (s, .json 200 w.readOut)
  | .wifiConnect body => s.loginRequired c fun _ => s.runCommand (connectCommand w body)
      (processReport w (fun w => firstText [w.process.2.1, "connected".toList]) "connect failed")
  | .wifiForget body => s.loginRequired c fun _ => s.runCommand (forgetCommand w body)
      (processReport w (fun _ => "forgotten".toList) "not found")
  | .apiChangePassword body => s.loginRequired c fun user => s.apiChangePassword R w user body
  | .backup => s.loginRequired c fun _ => (s, .file)
  | .backupsList => s.loginRequired c fun _ => (s, .json 200 w.readOut)
  | .systemInfo => s.loginRequired c fun _ => (s, .json 200 w.readOut)
  | .systemRestart =>
    s.loginRequired c fun _ => s.runCommand (.ok .restart) (messageJson true "restarting".toList)
  | .systemReboot =>
    s.loginRequired c fun _ => s.runCommand (.ok .reboot) (messageJson true "rebooting".toList)
  | .recentIncoming n => s.loginRequired c fun _ => s.recent c "incoming".toList n
  | .recentOutgoing n => s.loginRequired c fun _ => s.recent c "outgoing".toList n

/-- `sio.emit(…, namespace="/live")`: every open connection gets the payload. -/
def emit (p : UiEvent) : List Receipt := s.sockets.map fun c => ⟨c, (s.currentUser c).isSome, p⟩

end App

inductive AppEvent
  | http (c : ℕ) (w : World) (r : Request)
  /-- The client presents another cookie from now on, or none: it lost it or it expired. -/
  | present (c : ℕ) (cookie : Option ℕ)
  /-- A connection to the namespace `/live`. -/
  | connect (c : ℕ)
  | disconnect (c : ℕ)
  /-- The pipeline publishes a payload to its topic. -/
  | publish (p : UiEvent)

/-- The topic of a payload. -/
def topicOf : UiEvent → Str
  | .incoming .. => "incoming".toList
  | .outgoing .. => "outgoing".toList

/-- `register_sockets`: a callback for each topic, which emits the payload. -/
def registerSockets (bus : EventBus) : EventBus :=
  (bus.subscribe "incoming".toList 0).subscribe "outgoing".toList 1

def App.step (R : Runtime) (s : App) : AppEvent → Option App
  | .http c w r => some (s.handle R c w r).1
  | .present c cookie =>
    if ∀ uid ∈ cookie, uid ∈ s.issued then
      some { s with cookie := Function.update s.cookie c cookie }
    else none
  | .connect c => some { s with sockets := s.sockets ++ [c] }
  | .disconnect c => some { s with sockets := s.sockets.erase c }
  | .publish p =>
    some { s with
      events := s.events.publish (topicOf p) p
      received := s.received ++ (s.events.subs (topicOf p)).flatMap fun _ => s.emit p }

end AisServer.Web
