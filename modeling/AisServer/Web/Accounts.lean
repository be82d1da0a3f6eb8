import AisServer.Web.ForcedChange

/-!
# The account over the life of an installation

`seed_default_user` makes one account when the server is started for the first time.  From then on the only way to
another password is a change that was granted on the one in force, and the only way in is a login with it.

* `verifyPassword_single`, `setPassword_single` — what the methods of `Database` do to the one account;
* `Account.step` — every request and every start of the server keeps the account in line with the passwords that were
  set;
* `password_in_force` — so which password lets whom in, and that nothing happens before someone has shown it.
-/

namespace AisServer.Web

open AisServer.Lib AisServer.Store AisServer.Stream

/-! ### One account -/

section Tables

variable {B : Bcrypt} {Q : Sqlite} {t : Tables} {u : User} {username password salt : Str} {now : ℤ}

/-- The tables with one account. -/
def withUser (t : Tables) (u : User) : Tables := { t with users := [u] }

theorem verifyPassword_single (ht : t.users = [u]) :
    t.verifyPassword B Q username password now =
      if username = u.username ∧ B.checkpw password u.pwHash = some true then
        (some u, withUser t { u with lastLogin := some now })
      else (none, t) := by
  have hfind : t.getUserByName username = if username = u.username then some u else none := by
    rw [Tables.getUserByName, ht]
    by_cases h : username = u.username
    · simp [h]
    · simp [h, Ne.symm h]
  unfold Tables.verifyPassword
  rw [hfind]
  by_cases hname : username = u.username
  · rw [if_pos hname]
    rcases hcheck : B.checkpw password u.pwHash with _ | _ | _
    · simp [hcheck]
    · simp [hcheck]
    · simp [hcheck, hname, Statement.apply, Statement.exec, ht, withUser]
  · rw [if_neg hname, if_neg fun h => hname h.1]

theorem setPassword_single (ht : t.users = [u]) :
    (t.setPassword B Q u.username password salt true).2 =
      withUser t { u with pwHash := B.hashpw password salt, mustChangePassword := false } := by
  simp [Tables.setPassword, Statement.apply, Statement.exec, ht, withUser]

end Tables

/-! ### What was shown and what was set -/

/-- The application over several starts of the server. -/
structure Accounts where
  app : App
  /-- The passwords that were set, each with its salt. -/
  passwords : List (Str × Str)
  /-- The passwords that a login or a change was granted on, each with the one that was in force. -/
  shown : List (Str × Str × Str) := []

inductive AccountEvent
  | app (e : AppEvent)
  /-- The server is started again; `keyKept` says whether it has the secret key of the cookies that were issued. -/
  | restart (salt : Str) (now : ℤ) (keyKept : Bool)

/-- A password in the body of a request. -/
def passwordField (body : Option Json) (key : String) : Str :=
  match (payload body).get key.toList .null >>= fun v => (v.or (.str [])).asText >>= PyStr.encode with
  | .ok password => password
  | .error _ => []

/-- The password that a request showed and the one that it set, when the response to it says that it was granted. -/
def granted (s : App) (c : ℕ) (w : World) : Request → Response → Option (Str × Option (Str × Str))
  | .login _ password, .redirect _ => if (s.currentUser c).isSome then none else some (password.getD [], none)
  | .changePassword current new _, .redirect endpoint =>
    if endpoint = "views.dashboard".toList then some (current.getD [], some (new.getD [], w.salt)) else none
  | .apiChangePassword body, .json status _ =>
    if status = 200 then
      some (passwordField body "current_password", some (passwordField body "new_password", w.salt))
    else none
  | _, _ => none

namespace Accounts

variable (R : Runtime)

/-- The password that was set last, with its salt. -/
def inForce (s : Accounts) : Str × Str := s.passwords.getLastD ([], [])

/-- The hash of the password in force. -/
def hash (s : Accounts) : Str := R.bcrypt.hashpw s.inForce.1 s.inForce.2

/-- What `main` does to the tables. -/
def seed (t : Tables) (salt : Str) (now : ℤ) : Tables := (t.seedDefaultUser R.bcrypt R.sqlite salt now).getD t

/-- The first start of a new installation. -/
def start (force : Bool) (ringSize : ℕ) (salt : Str) (now : ℤ) : Accounts :=
  { app := App.start force ringSize (seed R {} salt now), passwords := [(Tables.defaultPassword, salt)] }

/-- What was granted to a request. -/
def grantedBy (s : Accounts) : AppEvent → Option (Str × Option (Str × Str))
  | .http c w r => granted s.app c w r (s.app.handle R c w r).2
  | _ => none

def step (s : Accounts) : AccountEvent → Option Accounts
  | .app e =>
    (s.app.step R e).map fun app =>
      { app
        passwords := s.passwords ++ ((s.grantedBy R e).bind (·.2)).toList
        shown := s.shown ++ (s.grantedBy R e).toList.map fun g => (g.1, s.inForce) }
  | .restart salt now keyKept =>
    some { s with
      app := { s.app with
        tables := seed R s.app.tables salt now
        events := registerSockets { ringSize := s.app.events.ringSize }
        sockets := []
        cookie := if keyKept then s.app.cookie else fun _ => none
        issued := if keyKept then s.app.issued else [] } }

end Accounts

/-! ### What a request does to the account -/

/-- The same account after another login. -/
structure SameAccount (u v : User) : Prop where
  id : v.id = u.id
  username : v.username = u.username
  pwHash : v.pwHash = u.pwHash
  flag : v.mustChangePassword = u.mustChangePassword

theorem SameAccount.refl (u : User) : SameAccount u u := ⟨rfl, rfl, rfl, rfl⟩

theorem sameAccount_login (u : User) (now : ℤ) : SameAccount u { u with lastLogin := some now } := ⟨rfl, rfl, rfl, rfl⟩

/-- What a request does to the one account and to the cookies, for what was granted to it. -/
inductive Outcome (R : Runtime) (s : App) (u : User) (t : App) : Option (Str × Option (Str × Str)) → Prop
  | refused {v : User} (hv : SameAccount u v) (ht : t.tables.users = [v]) (hissued : t.issued = s.issued)
    (hcookie : ∀ c uid, t.cookie c = some uid → s.cookie c = some uid) : Outcome R s u t none
  | login {v : User} {password : Str} (hcheck : R.bcrypt.checkpw password u.pwHash = some true)
    (hv : SameAccount u v) (ht : t.tables.users = [v]) (hissued : t.issued = u.id :: s.issued)
    (hcookie : ∀ c uid, t.cookie c = some uid → s.cookie c = some uid ∨ uid = u.id) :
    Outcome R s u t (some (password, none))
  | change {v : User} {password new salt : Str} (hcheck : R.bcrypt.checkpw password u.pwHash = some true)
    (hv : SameAccount u v)
    (ht : t.tables.users = [{ v with pwHash := R.bcrypt.hashpw new salt, mustChangePassword := false }])
    (hissued : t.issued = s.issued) (hcookie : t.cookie = s.cookie) :
    Outcome R s u t (some (password, some (new, salt)))

variable {R : Runtime} {s : App} {c : ℕ} {w : World} {u : User}

theorem Outcome.same {t : App} (hs : s.tables.users = [u]) (hu : t.tables.users = s.tables.users)
    (hissued : t.issued = s.issued) (hcookie : t.cookie = s.cookie) : Outcome R s u t none :=
  .refused (.refl u) (hu.trans hs) hissued fun _ _ h => hcookie ▸ h

theorem outcome_login (hs : s.tables.users = [u]) (username password : Option Str) :
    Outcome R s u (s.login R c w username password).1
      (granted s c w (.login username password) (s.login R c w username password).2) := by
  unfold App.login
  by_cases hin : (s.currentUser c).isSome = true
  · rw [if_pos hin]
    simp only [granted, if_pos hin]
    exact .same hs rfl rfl rfl
  · rw [if_neg hin, verifyPassword_single hs]
    by_cases hok : strip spaces (username.getD []) = u.username ∧
        R.bcrypt.checkpw (password.getD []) u.pwHash = some true
    · rw [if_pos hok]
      simp only [granted, if_neg hin]
      refine .login hok.2 (sameAccount_login u w.now) rfl rfl fun c' uid h => ?_
      change Function.update s.cookie c (some u.id) c' = some uid at h
      by_cases hc : c' = c
      · subst hc
        rw [Function.update_self] at h
        exact Or.inr (Option.some.inj h).symm
      · rw [Function.update_of_ne hc] at h
        exact Or.inl h
    · rw [if_neg hok]
      exact .same hs rfl rfl rfl

theorem outcome_changePassword (hs : s.tables.users = [u]) (current new confirm : Option Str) :
    Outcome R s u (s.changePassword R w u current new confirm).1
      (granted s c w (.changePassword current new confirm) (s.changePassword R w u current new confirm).2) := by
  unfold App.changePassword
  rw [verifyPassword_single hs]
  by_cases hok : u.username = u.username ∧ R.bcrypt.checkpw (current.getD []) u.pwHash = some true
  · rw [if_pos hok]
    have hrefused : Outcome R s u { s with tables := withUser s.tables { u with lastLogin := some w.now } } none :=
      .refused (sameAccount_login u w.now) rfl rfl fun _ _ h => h
    dsimp only
    split
    · exact hrefused
    · split
      · exact hrefused
      · simp only [granted, if_true]
        have hset := @setPassword_single R.bcrypt R.sqlite (withUser s.tables { u with lastLogin := some w.now })
          { u with lastLogin := some w.now } (new.getD []) w.salt rfl
        exact .change hok.2 (sameAccount_login u w.now) (congrArg Tables.users hset) rfl rfl
  · rw [if_neg hok]
    exact .same hs rfl rfl rfl

/-- `apiChangePassword` reads the two passwords with the same defaults. -/
theorem outcome_apiChangePassword (hs : s.tables.users = [u]) (body : Option Json) :
    Outcome R s u (s.apiChangePassword R w u body).1
      (granted s c w (.apiChangePassword body) (s.apiChangePassword R w u body).2) := by
  unfold App.apiChangePassword
  dsimp only
  split
  · exact .same hs rfl rfl rfl
  · rename_i cur new hbody
    obtain ⟨cur', hcur, hbody⟩ := bind_eq_ok.1 hbody
    obtain ⟨new', hnew, hbody⟩ := bind_eq_ok.1 hbody
    obtain ⟨text, htext, hbody⟩ := bind_eq_ok.1 hbody
    obtain ⟨rfl, rfl⟩ := Prod.mk.inj (Except.ok.inj hbody)
    unfold App.verifyText
    rcases hencode : text.encode with _ | current
    · exact .same hs rfl rfl rfl
    have hcurrent : passwordField body "current_password" = current := by
      unfold passwordField
      rw [bind_eq_ok.2 ⟨cur', hcur, bind_eq_ok.2 ⟨text, htext, hencode⟩⟩]
    dsimp only
    rw [verifyPassword_single hs]
    by_cases hok : u.username = u.username ∧ R.bcrypt.checkpw current u.pwHash = some true
    · rw [if_pos hok]
      have hrefused : Outcome R s u { s with tables := withUser s.tables { u with lastLogin := some w.now } } none :=
        .refused (sameAccount_login u w.now) rfl rfl fun _ _ h => h
      dsimp only
      split
      · exact hrefused
      · exact hrefused
      · rename_i password hpassword
        have hnew : passwordField body "new_password" = password := by
          obtain ⟨n, -, hpassword⟩ := bind_eq_ok.1 hpassword
          split at hpassword
          · cases hpassword
          · obtain ⟨text', htext', hpassword⟩ := bind_eq_ok.1 hpassword
            obtain ⟨password', hencode', hpassword⟩ := bind_eq_ok.1 hpassword
            obtain rfl := Option.some.inj (Except.ok.inj hpassword)
            unfold passwordField
            rw [bind_eq_ok.2 ⟨new', hnew, bind_eq_ok.2 ⟨text', htext', hencode'⟩⟩]
        have hset := @setPassword_single R.bcrypt R.sqlite (withUser s.tables { u with lastLogin := some w.now })
          { u with lastLogin := some w.now } password w.salt rfl
        simp only [granted, okJson, if_true, hcurrent, hnew]
        exact .change hok.2 (sameAccount_login u w.now) (congrArg Tables.users hset) rfl rfl
    · rw [if_neg hok]
      exact .same hs rfl rfl rfl

/-- The requests that show a password. -/
def showsPassword : Request → Bool
  | .login _ _ | .changePassword _ _ _ | .apiChangePassword _ => true
  | _ => false

theorem outcome_loginRequired {r : Request} {view : User → App × Response} (hs : s.tables.users = [u])
    (hnone : granted s c w r (.redirect "auth.login".toList) = none)
    (h : s.currentUser c = some u → Outcome R s u (view u).1 (granted s c w r (view u).2)) :
    Outcome R s u (s.loginRequired c view).1 (granted s c w r (s.loginRequired c view).2) := by
  unfold App.loginRequired
  rcases hu : s.currentUser c with _ | user
  · dsimp only
    rw [hnone]
    exact .same hs rfl rfl rfl
  · obtain ⟨uid, -, hget⟩ := Option.bind_eq_some_iff.1 hu
    have hmem : user ∈ s.tables.users := List.mem_of_find?_eq_some hget
    rw [hs] at hmem
    obtain rfl := List.mem_singleton.1 hmem
    exact h hu

theorem users_endpointsAdd {tables : Tables} (body : Option Json) :
    (endpointsAdd R tables body w.now).1.users = tables.users := by
  rcases @endpointsAdd_cases R tables body w.now with h | ⟨st, hst, h⟩
  · rw [h]
  · obtain ⟨_, _, _, _, _, _, _, rfl⟩ := addStatement_ok hst
    exact (Tables.exec_insertEndpoint h).1

theorem users_endpointsUpdate {tables : Tables} (id : ℕ) (body : Option Json) :
    (endpointsUpdate R tables id body w.now).1.users = tables.users := by
  rcases @endpointsUpdate_cases R tables id body w.now with h | ⟨sets, h⟩
  · rw [h]
  · exact (Tables.exec_updateEndpoint h).1

theorem users_endpointsDelete {tables : Tables} (id : ℕ) : (endpointsDelete R tables id).1.users = tables.users := by
  rcases @endpointsDelete_cases R tables id with h | h
  · rw [h]
  · rw [h]
    rfl

/-- A request that shows no password leaves the account as it is. -/
theorem outcome_of_not_shows {r : Request} (hs : s.tables.users = [u]) (hr : showsPassword r = false) :
    Outcome R s u (s.handle R c w r).1 none := by
  have hview : ∀ view : User → App × Response, (∀ user, Outcome R s u (view user).1 none) →
      Outcome R s u (s.loginRequired c view).1 none := by
    intro view h
    exact @outcome_loginRequired R s c w u .healthz view hs rfl fun _ => h u
  have hsame : Outcome R s u s none := .same hs rfl rfl rfl
  have htables : ∀ out : Tables × Response, out.1.users = s.tables.users → Outcome R s u (s.onTables out).1 none :=
    fun out hout => .same hs hout rfl rfl
  have hcommand : ∀ command report, Outcome R s u (s.runCommand command report).1 none := by
    intro command report
    cases command with
    | error r => exact hsame
    | ok command => exact .same hs rfl rfl rfl
  have hrecent : ∀ topic n, Outcome R s u (s.recent c topic n).1 none := by
    intro topic n
    unfold App.recent
    split
    · exact hsame
    · exact .same hs rfl rfl rfl
  cases r with
  | login | changePassword | apiChangePassword => cases hr
  | logout =>
    refine hview _ fun user => .refused (.refl u) hs rfl fun c' uid h => ?_
    change Function.update s.cookie c none c' = some uid at h
    by_cases hc : c' = c
    · subst hc
      rw [Function.update_self] at h
      cases h
    · rwa [Function.update_of_ne hc] at h
  | endpointsAdd body => exact hview _ fun _ => htables _ (users_endpointsAdd body)
  | endpointsUpdate id body => exact hview _ fun _ => htables _ (users_endpointsUpdate id body)
  | endpointsDelete id => exact hview _ fun _ => htables _ (users_endpointsDelete id)
  | wifiConnect | wifiForget | systemRestart | systemReboot => exact hview _ fun _ => hcommand _ _
  | recentIncoming | recentOutgoing => exact hview _ fun _ => hrecent _ _
  | loginForm | healthz => exact hsame
  | page | changePasswordForm | status | endpointsList | endpointsTest | wifiScan | wifiCurrent | wifiEthernet
  | wifiSaved | backup | backupsList | systemInfo => exact hview _ fun _ => hsame

/-- **What a request does to the account.** -/
theorem handle_outcome {r : Request} (hs : s.tables.users = [u]) :
    Outcome R s u (s.handle R c w r).1 (granted s c w r (s.handle R c w r).2) := by
  by_cases hr : showsPassword r = false
  · have hnone : granted s c w r (s.handle R c w r).2 = none := by
      cases r with
      | login | changePassword | apiChangePassword => cases hr
      | _ => rfl
    rw [hnone]
    exact outcome_of_not_shows hs hr
  · cases r with
    | login username password => exact outcome_login hs username password
    | changePassword current new confirm =>
      refine outcome_loginRequired hs ?_ fun _ => outcome_changePassword hs current new confirm
      rw [granted, if_neg (by decide)]
    | apiChangePassword body => exact outcome_loginRequired hs rfl fun _ => outcome_apiChangePassword hs body
    | _ => exact absurd rfl hr

/-! ### The passwords that were set -/

namespace Accounts

/-- The account has the password that was set last, the cookies are those of logins that were granted, and whoever was
granted something had shown the password in force; before that nothing was done. -/
structure Account (R : Runtime) (salt : Str) (s : Accounts) : Prop where
  user : ∃ u, s.app.tables.users = [u] ∧ u.username = Tables.defaultUsername ∧ u.pwHash = s.hash R ∧
    (u.mustChangePassword = true ↔ s.passwords = [(Tables.defaultPassword, salt)])
  first : ∃ set, s.passwords = (Tables.defaultPassword, salt) :: set
  shown : ∀ x ∈ s.shown, x.2 ∈ s.passwords ∧ R.bcrypt.checkpw x.1 (R.bcrypt.hashpw x.2.1 x.2.2) = some true
  changes : s.passwords.length ≤ s.shown.length + 1
  cookie : ∀ c uid, s.app.cookie c = some uid → uid ∈ s.app.issued
  issued : s.shown = [] → s.app.issued = []
  undone : s.shown = [] → s.app.tables.endpoints = [] ∧ s.app.commands = []

variable {salt : Str} {a b : Accounts} {e : AppEvent}

theorem account_start (R : Runtime) (force : Bool) (ringSize : ℕ) (salt : Str) (now : ℤ) :
    Account R salt (start R force ringSize salt now) where
  user := ⟨_, rfl, rfl, rfl, iff_of_true rfl rfl⟩
  first := ⟨[], rfl⟩
  shown := by simp [start]
  changes := le_rfl
  cookie c uid h := by cases h
  issued _ := rfl
  undone _ := ⟨rfl, rfl⟩

/-- Nobody who has not shown a password is logged in. -/
theorem Account.anonymous (ha : Account R salt a) (hnone : a.shown = []) (c : ℕ) : a.app.currentUser c = none := by
  rw [App.currentUser, Option.bind_eq_none_iff]
  intro uid huid
  have hmem := ha.cookie c uid huid
  rw [ha.issued hnone] at hmem
  cases hmem

/-- So requests change no endpoint and run no command. -/
theorem Account.undone_handle (ha : Account R salt a) (hnone : a.shown = []) (r : Request) :
    (a.app.handle R c w r).1.tables.endpoints = [] ∧ (a.app.handle R c w r).1.commands = [] := by
  obtain ⟨hendpoints, hcommands⟩ := ha.undone hnone
  have hanonymous : ¬ (a.app.currentUser c).isSome = true := by rw [ha.anonymous hnone c]; simp
  have heffect : Effect R a.app c w r (a.app.handle R c w r).1 := handle_effect
  generalize (a.app.handle R c w r).1 = t at heffect ⊢
  cases heffect with
  | unchanged => exact ⟨hendpoints, hcommands⟩
  | users h => exact ⟨h.endpoints.trans hendpoints, hcommands⟩
  | login h hid => exact ⟨h.endpoints.trans hendpoints, hcommands⟩
  | logout => exact ⟨hendpoints, hcommands⟩
  | endpoints hu h hadd => exact absurd hu hanonymous
  | command hu h => exact absurd hu hanonymous
  | deliver payloads => exact ⟨hendpoints, hcommands⟩

theorem Account.inForce_mem (ha : Account R salt a) : a.inForce ∈ a.passwords := by
  obtain ⟨set, hset⟩ := ha.first
  rw [inForce, hset, List.getLastD_cons]
  exact List.getLastD_mem_cons

theorem Account.handle (ha : Account R salt a) {r : Request} (h : a.step R (.app (.http c w r)) = some b) :
    Account R salt b := by
  obtain ⟨u, hu, hname, hhash, hflag⟩ := ha.user
  have houtcome : Outcome R a.app u (a.app.handle R c w r).1 (a.grantedBy R (.http c w r)) := handle_outcome hu
  obtain rfl := Option.some.inj h
  have hundone := fun hnone => @Account.undone_handle R c w salt a ha hnone r
  generalize (a.app.handle R c w r).1 = t at houtcome hundone ⊢
  generalize a.grantedBy R (.http c w r) = g at houtcome ⊢
  -- what was granted was granted on the password in force
  have hgranted : ∀ {password}, R.bcrypt.checkpw password u.pwHash = some true →
      R.bcrypt.checkpw password (R.bcrypt.hashpw a.inForce.1 a.inForce.2) = some true := by
    intro password hcheck
    rwa [hhash, hash] at hcheck
  cases houtcome with
  | @refused v hv ht hissued hcookie =>
    simp only [Option.bind_none, Option.toList_none, List.map_nil, List.append_nil]
    refine ⟨⟨v, ht, hv.username.trans hname, hv.pwHash.trans hhash, hv.flag ▸ hflag⟩, ha.first, ha.shown, ha.changes,
      fun c uid h => ?_, fun hnone => hissued.trans (ha.issued hnone), hundone⟩
    exact hissued ▸ ha.cookie c uid (hcookie c uid h)
  | @login v password hcheck hv ht hissued hcookie =>
    simp only [Option.bind_some, Option.toList_none, Option.toList_some, List.map_cons, List.map_nil, List.append_nil]
    refine ⟨⟨v, ht, hv.username.trans hname, hv.pwHash.trans hhash, hv.flag ▸ hflag⟩, ha.first, fun x hx => ?_,
      ?_, fun c uid h => ?_, fun hnone => ?_, fun hnone => ?_⟩
    · rcases List.mem_append.1 hx with hx | hx
      · exact ha.shown x hx
      · obtain rfl := List.mem_singleton.1 hx
        exact ⟨ha.inForce_mem, hgranted hcheck⟩
    · exact ha.changes.trans (by simp)
    · show uid ∈ t.issued
      rw [hissued]
      rcases hcookie c uid h with h | rfl
      · exact List.mem_cons_of_mem _ (ha.cookie c uid h)
      · exact List.mem_cons_self
    · simp at hnone
    · simp at hnone
  | @change v password new salt' hcheck hv ht hissued hcookie =>
    simp only [Option.bind_some, Option.toList_some, List.map_cons, List.map_nil]
    obtain ⟨set, hset⟩ := ha.first
    refine ⟨⟨_, ht, hv.username.trans hname, ?_, ?_⟩, ⟨set ++ [(new, salt')], by rw [hset]; rfl⟩, fun x hx => ?_, ?_,
      fun c uid h => ?_, fun hnone => ?_, fun hnone => ?_⟩
    · simp [hash, inForce]
    · simp [hset]
    · rcases List.mem_append.1 hx with hx | hx
      · exact ⟨List.mem_append_left _ (ha.shown x hx).1, (ha.shown x hx).2⟩
      · obtain rfl := List.mem_singleton.1 hx
        exact ⟨List.mem_append_left _ ha.inForce_mem, hgranted hcheck⟩
    · have hchanges := ha.changes
      simp only [List.length_append, List.length_singleton]
      omega
    · show uid ∈ t.issued
      rw [hissued]
      exact ha.cookie c uid (hcookie ▸ h)
    · simp at hnone
    · simp at hnone

theorem Account.step {e : AccountEvent} (ha : Account R salt a) (h : a.step R e = some b) : Account R salt b := by
  cases e with
  | restart salt' now keyKept =>
    obtain rfl := Option.some.inj h
    obtain ⟨u, hu, hname, hhash, hflag⟩ := ha.user
    have htables : seed R a.app.tables salt' now = a.app.tables := by
      simp [seed, Tables.seedDefaultUser, hu]
    simp only [htables]
    refine ⟨⟨u, hu, hname, hhash, hflag⟩, ha.first, ha.shown, ha.changes, fun c uid h => ?_, fun hnone => ?_, ha.undone⟩
    · cases keyKept with
      | false => cases h
      | true => exact ha.cookie c uid h
    · cases keyKept with
      | false => rfl
      | true => exact ha.issued hnone
  | app e =>
    cases e with
    | http c w r => exact ha.handle h
    | present c cookie =>
      obtain ⟨app, happ, rfl⟩ := Option.map_eq_some_iff.1 h
      simp only [App.step] at happ
      split at happ
      · rename_i hcookie
        obtain rfl := Option.some.inj happ
        simp only [grantedBy, Option.bind_none, Option.toList_none, List.map_nil, List.append_nil]
        refine { ha with cookie := fun c' uid h => ?_ }
        change Function.update a.app.cookie c cookie c' = some uid at h
        by_cases hc : c' = c
        · subst hc
          rw [Function.update_self] at h
          exact hcookie uid h
        · rw [Function.update_of_ne hc] at h
          exact ha.cookie c' uid h
      · cases happ
    | connect c | disconnect c | publish p =>
      obtain rfl := Option.some.inj h
      simp only [grantedBy, Option.bind_none, Option.toList_none, List.map_nil, List.append_nil]
      exact { ha with }

end Accounts

/-! ### Who gets in -/

theorem login_iff (hs : s.tables.users = [u]) (hanonymous : s.currentUser c = none) (username password : Option Str) :
    ((s.login R c w username password).1.currentUser c).isSome = true ↔
      strip spaces (username.getD []) = u.username ∧ R.bcrypt.checkpw (password.getD []) u.pwHash = some true := by
  unfold App.login
  rw [hanonymous, if_neg (by decide), verifyPassword_single hs]
  by_cases hok : strip spaces (username.getD []) = u.username ∧
      R.bcrypt.checkpw (password.getD []) u.pwHash = some true
  · rw [if_pos hok]
    refine iff_of_true ?_ hok
    show ((Function.update s.cookie c (some u.id) c).bind
      (withUser s.tables { u with lastLogin := some w.now }).getUserById).isSome = true
    rw [Function.update_self]
    simp [Tables.getUserById, withUser]
  · rw [if_neg hok]
    refine iff_of_false ?_ hok
    show ¬ (s.currentUser c).isSome = true
    rw [hanonymous]
    exact Bool.false_ne_true

/-- A change of the password ends no session. -/
theorem currentUser_change {r : Request} {password : Str} {new : Str × Str} (hs : s.tables.users = [u])
    (hg : granted s c w r (s.handle R c w r).2 = some (password, some new)) (c' : ℕ) :
    ((s.handle R c w r).1.currentUser c').isSome = (s.currentUser c').isSome := by
  have houtcome : Outcome R s u (s.handle R c w r).1 (granted s c w r (s.handle R c w r).2) := handle_outcome hs
  rw [hg] at houtcome
  cases houtcome with
  | @change v _ _ _ hcheck hv ht hissued hcookie =>
    simp only [App.currentUser, hcookie]
    cases s.cookie c' with
    | none => rfl
    | some uid =>
      simp only [Option.bind_some, Tables.getUserById, ht, hs, List.find?_cons, hv.id]
      by_cases hid : u.id = uid <;> simp [hid]

/-- **The password in force.**  Over every run of requests of any clients and of starts of the server, from the first
start of a new installation on: there is one account; its hash is that of the password that was set last, and its flag
is cleared by the first change; who is not logged in is logged in exactly with the name of the account and a password
that this hash accepts; everything that was granted was granted on such a password; before that nobody is logged in, no
endpoint is stored and no command was run; and a change of the password logs nobody out. -/
theorem password_in_force {force : Bool} {ringSize : ℕ} {salt : Str} {now : ℤ} {es : List AccountEvent} {a : Accounts}
    (h : run (Accounts.step R) (Accounts.start R force ringSize salt now) es = some a) :
    (∃ u, a.app.tables.users = [u] ∧ u.username = Tables.defaultUsername ∧ u.pwHash = a.hash R ∧
      (u.mustChangePassword = true ↔ a.passwords = [(Tables.defaultPassword, salt)])) ∧
    (∀ c w username password, a.app.currentUser c = none →
      (((a.app.login R c w username password).1.currentUser c).isSome = true ↔
        strip spaces (username.getD []) = Tables.defaultUsername ∧
          R.bcrypt.checkpw (password.getD []) (a.hash R) = some true)) ∧
    (∀ x ∈ a.shown, x.2 ∈ a.passwords ∧ R.bcrypt.checkpw x.1 (R.bcrypt.hashpw x.2.1 x.2.2) = some true) ∧
    a.passwords.length ≤ a.shown.length + 1 ∧
    (a.shown = [] → (∀ c, a.app.currentUser c = none) ∧ a.app.tables.endpoints = [] ∧ a.app.commands = []) ∧
    ∀ c w r password new, granted a.app c w r (a.app.handle R c w r).2 = some (password, some new) →
      ∀ c', ((a.app.handle R c w r).1.currentUser c').isSome = (a.app.currentUser c').isSome := by
  have ha : Accounts.Account R salt a := run_inv_of_step (I := Accounts.Account R salt) (fun _ _ _ ha h => ha.step h)
    (Accounts.account_start R force ringSize salt now) h
  obtain ⟨u, hu, hname, hhash, hflag⟩ := id ha.user
  refine ⟨⟨u, hu, hname, hhash, hflag⟩, fun c w username password hanonymous => ?_, ha.shown, ha.changes,
    fun hnone => ⟨ha.anonymous hnone, ha.undone hnone⟩, fun c w r password new hg => currentUser_change hu hg⟩
  rw [← hname, ← hhash]
  exact login_iff hu hanonymous username password

/-- The password is changed, the server is started again, and the user logs in with the new one. -/
def secondStart : List AccountEvent :=
  [.app defaultLogin, .app (.http 0 plainWorld (.changePassword (some Tables.defaultPassword)
    (some "longenough".toList) (some "longenough".toList))), .app (.http 0 plainWorld .logout),
    .restart "$2b$12$zyxwvutsrqponmlkjihgfe".toList 1700000200 false, .app defaultLogin,
    .app (.http 0 plainWorld (.login (some Tables.defaultUsername) (some "longenough".toList)))]

theorem password_in_force_secondStart :
    ∃ a, run (Accounts.step plainRuntime) (Accounts.start plainRuntime true 500 plainSalt 1700000000) secondStart =
        some a ∧
      a.passwords = [(Tables.defaultPassword, plainSalt), ("longenough".toList, plainSalt)] ∧
      a.shown.map Prod.fst = [Tables.defaultPassword, Tables.defaultPassword, "longenough".toList] ∧
      ∃ u, a.app.tables.users = [u] ∧ u.mustChangePassword = false := by
  have hrun : (run (Accounts.step plainRuntime) (Accounts.start plainRuntime true 500 plainSalt 1700000000)
      secondStart).map (fun a => (a.passwords, a.shown.map Prod.fst)) =
      some ([(Tables.defaultPassword, plainSalt), ("longenough".toList, plainSalt)],
        [Tables.defaultPassword, Tables.defaultPassword, "longenough".toList]) := by decide +kernel
  obtain ⟨a, ha, hfacts⟩ := Option.map_eq_some_iff.1 hrun
  obtain ⟨hpasswords, hshown⟩ := Prod.mk.inj hfacts
  obtain ⟨⟨u, hu, -, -, hflag⟩, -⟩ := password_in_force ha
  refine ⟨a, ha, hpasswords, hshown, u, hu, Bool.not_eq_true _ ▸ fun htrue => ?_⟩
  rw [hflag, hpasswords] at htrue
  cases htrue

end AisServer.Web
