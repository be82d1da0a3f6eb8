import AisServer.Web.App

/-!
# The forced change of the password

As long as the seeded user has not changed the password, nobody should be able to do more than that.  The
guard stands in the pages only.

* `handle_effect` — what a request can do to the state;
* `forced_change` — when the flag keeps everyone from the endpoints, the machine and the live data.
-/

namespace AisServer.Web

open AisServer.Lib AisServer.Store AisServer.Stream

variable {R : Runtime} {s t : App} {c : ℕ} {w : World} {r : Request}

/-- The request stores a new endpoint. -/
def addsRow (R : Runtime) (t : Tables) (w : World) : Request → Bool
  | .endpointsAdd body =>
    match addStatement R (payload body) w.now with
    | .ok st => (st.exec R.sqlite t).isSome
    | .error _ => false
  | _ => false

/-- The command that the request runs. -/
def commandOf (w : World) : Request → Option Command
  | .wifiConnect body => (App.connectCommand w body).toOption
  | .wifiForget body => (App.forgetCommand w body).toOption
  | .systemRestart => some .restart
  | .systemReboot => some .reboot
  | _ => none

/-- The request logs a client out that is connected to `/live`. -/
def dropsSession (s : App) (c : ℕ) : Request → Bool
  | .logout => c ∈ s.sockets
  | _ => false

/-! ### What a request does -/

/-- What a request can do to the state, and who can make it do so. -/
inductive Effect (R : Runtime) (s : App) (c : ℕ) (w : World) : Request → App → Prop
  | unchanged {r : Request} : Effect R s c w r s
  | users {r : Request} {t : Tables} (h : s.tables.UsersOnly t) :
    Effect R s c w r { s with tables := t }
  | login {r : Request} {t : Tables} {uid : ℕ} (h : s.tables.UsersOnly t)
    (hid : uid ∈ s.tables.users.map (·.id)) :
    Effect R s c w r { s with
      tables := t, cookie := Function.update s.cookie c (some uid), issued := uid :: s.issued }
  | logout : Effect R s c w .logout (s.logout c).1
  | endpoints {r : Request} {t : Tables} (hu : (s.currentUser c).isSome = true)
    (h : t.users = s.tables.users)
    (ha : s.tables.endpoints = [] → t.endpoints = [] ∨ addsRow R s.tables w r = true) :
    Effect R s c w r { s with tables := t }
  | command {r : Request} {command : Command} (hu : (s.currentUser c).isSome = true)
    (h : commandOf w r = some command) :
    Effect R s c w r { s with commands := s.commands ++ [command] }
  | deliver {r : Request} (payloads : List UiEvent) :
    Effect R s c w r { s with received := s.received ++ payloads.map fun p => ⟨c, true, p⟩ }

theorem effect_loginRequired {view : User → App × Response}
    (h : (s.currentUser c).isSome = true → ∀ user, Effect R s c w r (view user).1) :
    Effect R s c w r (s.loginRequired c view).1 := by
  unfold App.loginRequired
  rcases hu : s.currentUser c with _ | user
  · exact .unchanged
  · exact h (by rw [hu]; rfl) user

theorem effect_login {username password : Option Str} :
    Effect R s c w r (s.login R c w username password).1 := by
  unfold App.login
  split
  · exact .unchanged
  · have hkeep := Tables.verifyPassword_usersOnly (B := R.bcrypt) (Q := R.sqlite) (t := s.tables)
      (strip spaces (username.getD [])) (password.getD []) w.now
    split
    · rename_i t ht
      rw [ht] at hkeep
      exact .users hkeep
    · rename_i user t ht
      rw [ht] at hkeep
      have hmem : user ∈ s.tables.users :=
        Tables.verifyPassword_user (congrArg Prod.fst ht)
      exact .login hkeep (List.mem_map_of_mem hmem)

theorem effect_changePassword {user : User} {current new confirm : Option Str} :
    Effect R s c w r (s.changePassword R w user current new confirm).1 := by
  have hkeep := Tables.verifyPassword_usersOnly (B := R.bcrypt) (Q := R.sqlite) (t := s.tables)
    user.username (current.getD []) w.now
  unfold App.changePassword
  dsimp only
  split
  · rename_i t ht
    rw [ht] at hkeep
    exact .users hkeep
  · rename_i t ht
    rw [ht] at hkeep
    split
    · exact .users hkeep
    · split
      · exact .users hkeep
      · exact .users (hkeep.trans (Tables.setPassword_usersOnly ..))

theorem verifyText_usersOnly {user : User} {cur : PyStr} :
    Tables.UsersOnly s.tables (s.verifyText R w user cur).2 := by
  unfold App.verifyText
  split
  · exact .refl _
  · exact Tables.verifyPassword_usersOnly ..

theorem effect_apiChangePassword {user : User} {body : Option Json} :
    Effect R s c w r (s.apiChangePassword R w user body).1 := by
  unfold App.apiChangePassword
  dsimp only
  split
  · exact .unchanged
  · rename_i cur new hbody
    have hkeep := @verifyText_usersOnly R s w user cur
    split
    · rename_i t ht
      rw [ht] at hkeep
      exact .users hkeep
    · rename_i t ht
      rw [ht] at hkeep
      split
      · exact .users hkeep
      · exact .users hkeep
      · exact .users (hkeep.trans (Tables.setPassword_usersOnly ..))

theorem effect_endpointsAdd {body : Option Json} (hu : (s.currentUser c).isSome = true) :
    Effect R s c w (.endpointsAdd body) (s.onTables (endpointsAdd R s.tables body w.now)).1 := by
  rcases @endpointsAdd_cases R s.tables body w.now with h | ⟨st, hst, h⟩
  · unfold App.onTables
    rw [h]
    exact .unchanged
  · obtain ⟨_, _, _, _, _, _, _, rfl⟩ := addStatement_ok hst
    refine .endpoints hu (Tables.exec_insertEndpoint h).1 fun _ => Or.inr ?_
    simp only [addsRow, hst, h, Option.isSome_some]

theorem effect_endpointsUpdate {id : ℕ} {body : Option Json} (hu : (s.currentUser c).isSome = true) :
    Effect R s c w (.endpointsUpdate id body)
      (s.onTables (endpointsUpdate R s.tables id body w.now)).1 := by
  rcases @endpointsUpdate_cases R s.tables id body w.now with h | ⟨sets, h⟩
  · unfold App.onTables
    rw [h]
    exact .unchanged
  · obtain ⟨husers, hnil⟩ := Tables.exec_updateEndpoint h
    exact .endpoints hu husers fun he => Or.inl (hnil he)

theorem effect_endpointsDelete {id : ℕ} (hu : (s.currentUser c).isSome = true) :
    Effect R s c w (.endpointsDelete id) (s.onTables (endpointsDelete R s.tables id)).1 := by
  unfold App.onTables
  rcases @endpointsDelete_cases R s.tables id with h | h
  · rw [h]
    exact .unchanged
  · rw [h]
    refine .endpoints hu rfl fun he => Or.inl ?_
    simp [Statement.apply, Statement.exec, he]

theorem effect_runCommand {command : Except Response Command} {report : Response}
    (hu : (s.currentUser c).isSome = true) (h : commandOf w r = command.toOption) :
    Effect R s c w r (s.runCommand command report).1 := by
  rcases command with _ | command
  · exact .unchanged
  · exact .command hu h

theorem effect_recent {topic : Str} {n : Option Str} (hu : (s.currentUser c).isSome = true) :
    Effect R s c w r (s.recent c topic n).1 := by
  unfold App.recent
  split
  · exact .unchanged
  · dsimp only
    rw [hu]
    exact .deliver _

/-- **What a request does.** -/
theorem handle_effect : Effect R s c w r (s.handle R c w r).1 := by
  cases r with
  | login username password => exact effect_login
  | logout => exact effect_loginRequired fun _ _ => .logout
  | changePassword current new confirm => exact effect_loginRequired fun _ _ => effect_changePassword
  | apiChangePassword body => exact effect_loginRequired fun _ _ => effect_apiChangePassword
  | endpointsAdd body => exact effect_loginRequired fun hu _ => effect_endpointsAdd hu
  | endpointsUpdate id body => exact effect_loginRequired fun hu _ => effect_endpointsUpdate hu
  | endpointsDelete id => exact effect_loginRequired fun hu _ => effect_endpointsDelete hu
  | wifiConnect body => exact effect_loginRequired fun hu _ => effect_runCommand hu rfl
  | wifiForget body => exact effect_loginRequired fun hu _ => effect_runCommand hu rfl
  | systemRestart => exact effect_loginRequired fun hu _ => effect_runCommand hu rfl
  | systemReboot => exact effect_loginRequired fun hu _ => effect_runCommand hu rfl
  | recentIncoming n => exact effect_loginRequired fun hu _ => effect_recent hu
  | recentOutgoing n => exact effect_loginRequired fun hu _ => effect_recent hu
  | loginForm | healthz => exact .unchanged
  | page | changePasswordForm | status | endpointsList | endpointsTest | wifiScan | wifiCurrent
  | wifiEthernet | wifiSaved | backup | backupsList | systemInfo =>
    exact effect_loginRequired fun _ _ => .unchanged

/-- A request publishes nothing. -/
theorem Effect.events (h : Effect R s c w r t) : t.events = s.events := by
  cases h <;> rfl

/-! ### While the flag is set -/

namespace App

/-- A freshly seeded database without endpoints, and nobody logged in. -/
def start (force : Bool) (ringSize : ℕ) (users : Tables) : App :=
  { force, tables := users, events := registerSockets { ringSize } }

def flagged (s : App) : Bool := s.tables.flagged

/-- While the password is to be changed there is no endpoint, no command was run, and pipeline data went to
clients that were logged in. -/
def Safe (s : App) : Prop :=
  s.flagged = true →
    s.tables.endpoints = [] ∧ s.commands = [] ∧ ∀ x ∈ s.received, x.loggedIn = true

/-- While the password is to be changed no logged-in client stores an endpoint or runs a command, nobody
connects to `/live` without being logged in, and nobody who is connected logs out or loses the session. -/
def Confined (R : Runtime) (s : App) (e : AppEvent) : Prop :=
  s.flagged = true → match e with
    | .http c w r => (s.currentUser c).isSome = true →
        addsRow R s.tables w r = false ∧ commandOf w r = none ∧ dropsSession s c r = false
    | .present c cookie => c ∈ s.sockets → (cookie.bind s.tables.getUserById).isSome = true
    | .connect c => (s.currentUser c).isSome = true
    | .disconnect _ => True
    | .publish _ => True

instance (R : Runtime) (s : App) : (e : AppEvent) → Decidable (Confined R s e)
  | .http c w r => inferInstanceAs (Decidable (s.flagged = true → (s.currentUser c).isSome = true →
      addsRow R s.tables w r = false ∧ commandOf w r = none ∧ dropsSession s c r = false))
  | .present c cookie => inferInstanceAs (Decidable (s.flagged = true → c ∈ s.sockets →
      (cookie.bind s.tables.getUserById).isSome = true))
  | .connect c => inferInstanceAs (Decidable (s.flagged = true → (s.currentUser c).isSome = true))
  | .disconnect _ => isTrue fun _ => trivial
  | .publish _ => isTrue fun _ => trivial

/-- Moreover every open connection is that of a logged-in client. -/
structure Inv (s : App) : Prop where
  safe : s.Safe
  sockets : s.flagged = true → ∀ c ∈ s.sockets, (s.currentUser c).isSome = true

/-- Each topic has a subscriber. -/
def Wired (s : App) : Prop := ∀ p, s.events.subs (topicOf p) ≠ []

variable {e : AppEvent}

theorem wired_start (force : Bool) (ringSize : ℕ) (users : Tables) :
    (start force ringSize users).Wired := by
  rintro (_ | _)
  · exact List.ne_nil_of_mem (EventBus.mem_subs_subscribe (EventBus.mem_subs_self _ _ 0))
  · exact List.ne_nil_of_mem (EventBus.mem_subs_self _ _ 1)

theorem Wired.step (hs : Wired s) (h : s.step R e = some t) : Wired t := by
  cases e with
  | http c w r =>
    obtain rfl := Option.some.inj h
    intro p
    rw [handle_effect.events]
    exact hs p
  | present c cookie =>
    simp only [App.step] at h
    split at h
    · obtain rfl := Option.some.inj h
      exact hs
    · cases h
  | connect c | disconnect c | publish p =>
    obtain rfl := Option.some.inj h
    exact hs

/-- A session holds on as long as its cookie does: users do not go. -/
theorem currentUser_isSome (h : (s.currentUser c).isSome = true)
    (hids : t.tables.users.map (·.id) = s.tables.users.map (·.id)) (hc : t.cookie c = s.cookie c) :
    (t.currentUser c).isSome = true := by
  unfold currentUser at h ⊢
  rw [hc]
  cases hcookie : s.cookie c with
  | none =>
    rw [hcookie] at h
    cases h
  | some uid =>
    rw [hcookie] at h
    rw [Option.bind_some, Tables.getUserById_isSome] at h ⊢
    rwa [hids]

theorem Inv.handle (hs : Inv s)
    (hc : s.flagged = true → (s.currentUser c).isSome = true →
      addsRow R s.tables w r = false ∧ commandOf w r = none ∧ dropsSession s c r = false)
    (h : Effect R s c w r t) : Inv t := by
  cases h with
  | unchanged => exact hs
  | users h =>
    refine ⟨fun hf => ?_, fun hf d hd => ?_⟩
    · obtain ⟨he, hcmd, hrec⟩ := hs.safe (h.flag hf)
      exact ⟨h.endpoints.trans he, hcmd, hrec⟩
    · exact currentUser_isSome (hs.sockets (h.flag hf) d hd) h.ids rfl
  | @login _ t uid h hid =>
    refine ⟨fun hf => ?_, fun hf d hd => ?_⟩
    · obtain ⟨he, hcmd, hrec⟩ := hs.safe (h.flag hf)
      exact ⟨h.endpoints.trans he, hcmd, hrec⟩
    · by_cases hdc : d = c
      · subst hdc
        simp only [currentUser, Function.update_self, Option.bind_some, Tables.getUserById_isSome]
        rwa [h.ids]
      · exact currentUser_isSome (hs.sockets (h.flag hf) d hd) h.ids (Function.update_of_ne hdc _ _)
  | logout =>
    refine ⟨hs.safe, fun hf d hd => ?_⟩
    by_cases hu : (s.currentUser c).isSome = true
    · have hdc : d ≠ c := by
        rintro rfl
        exact of_decide_eq_false (hc hf hu).2.2 hd
      exact currentUser_isSome (hs.sockets hf d hd) rfl (Function.update_of_ne hdc _ _)
    · have hdc : d ≠ c := by
        rintro rfl
        exact hu (hs.sockets hf d hd)
      exact currentUser_isSome (hs.sockets hf d hd) rfl (Function.update_of_ne hdc _ _)
  | @endpoints _ t hu husers ha =>
    have hflag : t.flagged = s.tables.flagged := by
      unfold Tables.flagged
      rw [husers]
    refine ⟨fun hf => ?_, fun hf d hd => ?_⟩
    · have hf' : s.flagged = true := hflag.symm.trans hf
      obtain ⟨he, hcmd, hrec⟩ := hs.safe hf'
      refine ⟨(ha he).resolve_right ?_, hcmd, hrec⟩
      rw [(hc hf' hu).1]
      decide
    · exact currentUser_isSome (hs.sockets (hflag.symm.trans hf) d hd) (congrArg _ husers) rfl
  | command hu h =>
    have hnot : ¬ s.flagged = true := by
      intro hf
      rw [(hc hf hu).2.1] at h
      cases h
    exact ⟨fun hf => absurd hf hnot, fun hf => absurd hf hnot⟩
  | deliver payloads =>
    refine ⟨fun hf => ?_, hs.sockets⟩
    obtain ⟨he, hcmd, hrec⟩ := hs.safe hf
    refine ⟨he, hcmd, fun x hx => ?_⟩
    rcases List.mem_append.1 hx with hx | hx
    · exact hrec x hx
    · obtain ⟨p, -, rfl⟩ := List.mem_map.1 hx
      rfl

theorem Inv.step (hs : Inv s) (hc : Confined R s e) (h : s.step R e = some t) : Inv t := by
  cases e with
  | http c w r =>
    obtain rfl := Option.some.inj h
    exact hs.handle hc handle_effect
  | present c cookie =>
    simp only [App.step] at h
    split at h
    · obtain rfl := Option.some.inj h
      refine ⟨hs.safe, fun hf d hd => ?_⟩
      by_cases hdc : d = c
      · subst hdc
        simpa only [currentUser, Function.update_self] using hc hf hd
      · exact currentUser_isSome (hs.sockets hf d hd) rfl (Function.update_of_ne hdc _ _)
    · cases h
  | connect c =>
    obtain rfl := Option.some.inj h
    refine ⟨hs.safe, fun hf d hd => ?_⟩
    rcases List.mem_append.1 hd with hd | hd
    · exact hs.sockets hf d hd
    · obtain rfl := List.mem_singleton.1 hd
      exact hc hf
  | disconnect c =>
    obtain rfl := Option.some.inj h
    exact ⟨hs.safe, fun hf d hd => hs.sockets hf d (List.mem_of_mem_erase hd)⟩
  | publish p =>
    obtain rfl := Option.some.inj h
    refine ⟨fun hf => ?_, hs.sockets⟩
    obtain ⟨he, hcmd, hrec⟩ := hs.safe hf
    refine ⟨he, hcmd, fun x hx => ?_⟩
    rcases List.mem_append.1 hx with hx | hx
    · exact hrec x hx
    · obtain ⟨-, -, hx⟩ := List.mem_flatMap.1 hx
      obtain ⟨d, hd, rfl⟩ := List.mem_map.1 hx
      exact hs.sockets hf d hd

/-- The next sentence that is published reaches a client that is not logged in. -/
theorem leak (hw : s.Wired) (hf : s.flagged = true) (hd : c ∈ s.sockets)
    (hu : ¬ (s.currentUser c).isSome = true) (p : UiEvent) :
    ∃ u, run (App.step R) s [.publish p] = some u ∧ ¬ u.Safe := by
  refine ⟨_, rfl, fun hsafe => ?_⟩
  obtain ⟨callback, hcb⟩ := List.exists_mem_of_ne_nil _ (hw p)
  have hx : (⟨c, (s.currentUser c).isSome, p⟩ : Receipt) ∈
      (s.events.subs (topicOf p)).flatMap fun _ => s.emit p :=
    List.mem_flatMap.2 ⟨callback, hcb, List.mem_map.2 ⟨c, hd, rfl⟩⟩
  exact hu ((hsafe hf).2.2 _ (List.mem_append_right _ hx))

theorem loginRequired_of_isSome (view : User → App × Response) (hu : (s.currentUser c).isSome = true) :
    ∃ user, s.loginRequired c view = view user := by
  obtain ⟨user, hu⟩ := Option.isSome_iff_exists.1 hu
  refine ⟨user, ?_⟩
  unfold loginRequired
  rw [hu]

theorem handle_addsRow (hu : (s.currentUser c).isSome = true) (ha : addsRow R s.tables w r = true) :
    ∃ t e, (s.handle R c w r).1 = { s with tables := t } ∧ t.users = s.tables.users ∧
      t.endpoints = s.tables.endpoints ++ [e] := by
  cases r with
  | endpointsAdd body =>
    obtain ⟨user, hview⟩ :=
      loginRequired_of_isSome (fun _ => s.onTables (endpointsAdd R s.tables body w.now)) hu
    simp only [addsRow] at ha
    split at ha
    · rename_i st hst
      obtain ⟨t, ht⟩ := Option.isSome_iff_exists.1 ha
      obtain ⟨_, _, _, _, _, _, _, rfl⟩ := addStatement_ok hst
      obtain ⟨husers, e, he⟩ := Tables.exec_insertEndpoint ht
      refine ⟨t, e, ?_, husers, he⟩
      have hadd : (endpointsAdd R s.tables body w.now).1 = t := by
        simp only [endpointsAdd, hst, ht]
      calc (s.handle R c w (.endpointsAdd body)).1
          = (s.onTables (endpointsAdd R s.tables body w.now)).1 := congrArg Prod.fst hview
        _ = { s with tables := t } := by rw [onTables, hadd]
    · cases ha
  | _ => cases ha

theorem handle_command {command : Command} (hu : (s.currentUser c).isSome = true)
    (h : commandOf w r = some command) :
    (s.handle R c w r).1 = { s with commands := s.commands ++ [command] } := by
  have hrun : ∀ {x : Except Response Command} {report : Response}, x.toOption = some command →
      (s.loginRequired c fun _ => s.runCommand x report).1 =
        { s with commands := s.commands ++ [command] } := by
    intro x report hx
    obtain ⟨user, hview⟩ := loginRequired_of_isSome (fun _ => s.runCommand x report) hu
    rw [hview]
    rcases x with _ | command'
    · cases hx
    · cases hx
      rfl
  cases r with
  | wifiConnect body => exact hrun h
  | wifiForget body => exact hrun h
  | systemRestart => exact hrun h
  | systemReboot => exact hrun h
  | _ => cases h

/-- Outside the condition something is let through, at once or with the next sentence. -/
theorem not_safe_of_not_confined (hs : Inv s) (hw : s.Wired) (hc : ¬ Confined R s e)
    (h : s.step R e = some t) :
    ∃ gs u, (∀ e ∈ gs, ∃ p, e = .publish p) ∧ run (App.step R) t gs = some u ∧ ¬ u.Safe := by
  have hleak : ∀ c, t.flagged = true → c ∈ t.sockets → ¬ (t.currentUser c).isSome = true →
      ∃ gs u, (∀ e ∈ gs, ∃ p, e = AppEvent.publish p) ∧ run (App.step R) t gs = some u ∧ ¬ u.Safe := by
    intro c hf hd hu
    obtain ⟨u, hrun, hbad⟩ := leak (hw.step h) hf hd hu (.incoming [] [] 0 none)
    exact ⟨_, u, by simp, hrun, hbad⟩
  obtain ⟨hf, hc⟩ := Classical.not_imp.1 hc
  obtain ⟨he, hcmd, -⟩ := hs.safe hf
  cases e with
  | http c w r =>
    obtain rfl := Option.some.inj h
    obtain ⟨hu, hc⟩ := Classical.not_imp.1 hc
    by_cases ha : addsRow R s.tables w r = true
    · obtain ⟨t, e, ht, husers, hend⟩ := handle_addsRow hu ha
      refine ⟨[], _, by simp, rfl, fun hsafe => ?_⟩
      rw [ht] at hsafe
      have hflag : t.flagged = true := by
        unfold Tables.flagged
        rw [husers]
        exact hf
      have hnil : t.endpoints = [] := (hsafe hflag).1
      rw [hend] at hnil
      simp at hnil
    · rcases hcom : commandOf w r with _ | command
      · have hlog : dropsSession s c r = true := by
          by_contra hlog
          exact hc ⟨by simpa using ha, hcom, by simpa using hlog⟩
        obtain ⟨rfl, hd⟩ : r = .logout ∧ c ∈ s.sockets := by
          cases r with
          | logout => exact ⟨rfl, of_decide_eq_true hlog⟩
          | _ => cases hlog
        obtain ⟨user, hview⟩ := loginRequired_of_isSome (fun _ => s.logout c) hu
        have ht : (s.handle R c w .logout).1 = (s.logout c).1 := congrArg Prod.fst hview
        rw [ht] at hleak ⊢
        refine hleak c hf hd ?_
        simp [currentUser, logout]
      · refine ⟨[], _, by simp, rfl, fun hsafe => ?_⟩
        rw [handle_command hu hcom] at hsafe
        have hnil := (hsafe hf).2.1
        simp at hnil
  | present c cookie =>
    simp only [App.step] at h
    split at h
    · obtain rfl := Option.some.inj h
      obtain ⟨hd, hu⟩ := Classical.not_imp.1 hc
      refine hleak c hf hd ?_
      simpa only [currentUser, Function.update_self] using hu
    · cases h
  | connect c =>
    obtain rfl := Option.some.inj h
    exact hleak c hf (by simp) hc
  | disconnect c => exact absurd trivial hc
  | publish p => exact absurd trivial hc

end App

/-- **The forced change of the password.**  From a freshly seeded database, while the password is to be
changed no endpoint is stored, no command is run and no pipeline data goes to a client that is not logged
in, however a run goes on with published sentences, exactly when on the run no logged-in client sends a
request that would, no client connects to `/live` without being logged in, and no client that is connected
logs out or loses its session, as long as the password is to be changed. -/
theorem forced_change {users : Tables} {salt : Str} {now : ℤ} {force : Bool} {ringSize : ℕ}
    {es : List AppEvent} {s : App}
    (hseed : ({} : Tables).seedDefaultUser R.bcrypt R.sqlite salt now = some users)
    (h : run (App.step R) (.start force ringSize users) es = some s) :
    Guarded (App.step R) (App.Confined R) (.start force ringSize users) es ↔
      Throughout (App.step R) (fun _ _ => True) (fun e => ∃ p, e = .publish p) App.Safe
        (.start force ringSize users) es := by
  refine guarded_iff_throughout (I := fun s => s.Inv ∧ s.Wired)
    (fun s e t hs _ hc hst => ⟨hs.1.step hc hst, hs.2.step hst⟩)
    (fun s hs => hs.1.safe) ?_ ?_ ?_ h (guarded_true _ _)
  · rintro s e ⟨p, rfl⟩ -
    trivial
  · intro s e t hs hst hc
    obtain ⟨gs, u, hgs, hu, hbad⟩ := App.not_safe_of_not_confined hs.1 hs.2 hc hst
    exact ⟨gs, u, hgs, guarded_true _ _, hu, hbad⟩
  · have hend : users.endpoints = [] := by
      cases hseed
      rfl
    have hinv : (App.start force ringSize users).Inv :=
      ⟨fun _ => ⟨hend, rfl, by simp [App.start]⟩, fun _ => by simp [App.start]⟩
    exact ⟨hinv, App.wired_start force ringSize users⟩

/-! ### Two runs -/

/-- A runtime on which a hash is the salt and the password. -/
def plainRuntime : Runtime where
  bcrypt := {
    hashpw := fun password salt => salt ++ password
    checkpw := fun password hash => some (hash.take 29 ++ password = hash) }
  sqlite := ⟨id, id⟩
  lower := asciiLower
  excText := fun _ => []

/-- A salt of 29 characters, as `bcrypt.gensalt` makes them. -/
def plainSalt : Str := "$2b$12$abcdefghijklmnopqrstuv".toList

/-- The tables after `seed_default_user`. -/
def seeded : Tables where
  users := [⟨1, Tables.defaultUsername, plainSalt ++ Tables.defaultPassword, true, 1700000000, none⟩]
  lastUser := 1

/-- A network on which everything is taken. -/
def openNetwork : Forward.Network where
  connect _ _ := .ok
  sendall _ := none
  sendto _ _ _ _ := .ok
  post _ _ := .ok 200
  str _ := []
  encodeError _ := []

def plainWorld : World := ⟨1700000100, plainSalt, true, (0, [], []), openNetwork, .null⟩

/-- The default user logs in. -/
def defaultLogin : AppEvent :=
  .http 0 plainWorld (.login (some Tables.defaultUsername) (some Tables.defaultPassword))

/-- A client asks for a new endpoint. -/
def addPlotter : AppEvent :=
  .http 0 plainWorld (.endpointsAdd (some (.dict [(text "name", .str (text "plotter")),
    (text "host", .str (text "192.168.1.20")), (text "port", .int 4001)])))

/-- The password is changed before anything else is done. -/
def changedFirst : List AppEvent :=
  [defaultLogin, .http 0 plainWorld (.page .endpoints), .connect 0,
    .publish (.incoming "!AIVDM".toList ['p'] 0 none),
    .http 0 plainWorld (.changePassword (some Tables.defaultPassword) (some "longenough".toList)
      (some "longenough".toList)), addPlotter]

theorem forced_change_changedFirst :
    ∃ s, run (App.step plainRuntime) (.start true 500 seeded) changedFirst = some s ∧
      Throughout (App.step plainRuntime) (fun _ _ => True) (fun e => ∃ p, e = .publish p) App.Safe
        (.start true 500 seeded) changedFirst := by
  have hrun : (run (App.step plainRuntime) (.start true 500 seeded) changedFirst).isSome = true := by
    decide +kernel
  obtain ⟨s, hs⟩ := Option.isSome_iff_exists.1 hrun
  have hseed : ({} : Tables).seedDefaultUser plainRuntime.bcrypt plainRuntime.sqlite plainSalt
      1700000000 = some seeded := by decide +kernel
  exact ⟨s, hs, (forced_change hseed hs).1 (by decide +kernel)⟩

/-- The default user stores an endpoint; and a client that never logged in gets the next sentence. -/
theorem forced_change_fails :
    (∃ s, run (App.step plainRuntime) (.start true 500 seeded) [defaultLogin, addPlotter] = some s ∧
      ¬ s.Safe) ∧
    ∃ s, run (App.step plainRuntime) (.start true 500 seeded)
      [.connect 0, .publish (.incoming "!AIVDM".toList ['p'] 0 none)] = some s ∧ ¬ s.Safe := by
  constructor
  · have hrun : (run (App.step plainRuntime) (.start true 500 seeded) [defaultLogin, addPlotter]).map
        (fun s => (s.flagged, s.tables.endpoints.length)) = some (true, 1) := by decide +kernel
    obtain ⟨s, hs, hfacts⟩ := Option.map_eq_some_iff.1 hrun
    obtain ⟨hf, hlen⟩ := Prod.mk.inj hfacts
    refine ⟨s, hs, fun hsafe => ?_⟩
    rw [(hsafe hf).1] at hlen
    cases hlen
  · have hrun : (run (App.step plainRuntime) (.start true 500 seeded)
        [.connect 0, .publish (.incoming "!AIVDM".toList ['p'] 0 none)]).map
        (fun s => (s.flagged, s.received.all (·.loggedIn))) = some (true, false) := by decide +kernel
    obtain ⟨s, hs, hfacts⟩ := Option.map_eq_some_iff.1 hrun
    obtain ⟨hf, hall⟩ := Prod.mk.inj hfacts
    refine ⟨s, hs, fun hsafe => ?_⟩
    rw [List.all_eq_true.2 (hsafe hf).2.2] at hall
    cases hall

end AisServer.Web
