import AisServer.Store.Rows
import AisServer.Web.App

/-!
# The statements of a request

* `handle_executes` — whatever is requested, the tables change by statements of `db.py` only;
* `App.later_of_step` — so an endpoint keeps its id, and no other endpoint gets it.
-/

namespace AisServer.Web

open AisServer.Lib AisServer.Store AisServer.Stream

/-- The tables after some statements. -/
def Executed (Q : Sqlite) (t t' : Tables) : Prop := ∃ sts : List Statement, t' = sts.foldl (Statement.apply Q) t

variable {R : Runtime} {s t : App} {c : ℕ} {w : World} {r : Request} {tables tables' : Tables}

theorem Executed.refl (Q : Sqlite) (t : Tables) : Executed Q t t := ⟨[], rfl⟩

theorem Executed.apply (st : Statement) (h : Executed R.sqlite tables tables') :
    Executed R.sqlite tables (st.apply R.sqlite tables') := by
  obtain ⟨sts, rfl⟩ := h
  exact ⟨sts ++ [st], by simp⟩

theorem Executed.of_exec {st : Statement} (h : st.exec R.sqlite tables = some tables') :
    Executed R.sqlite tables tables' := ⟨[st], by simp [Statement.apply, h]⟩

theorem executed_verifyPassword {username password : Str} {now : ℤ} :
    Executed R.sqlite tables (tables.verifyPassword R.bcrypt R.sqlite username password now).2 := by
  unfold Tables.verifyPassword
  split
  · exact .refl _ _
  · split
    · exact (Executed.refl _ _).apply (.updateLastLogin _ _)
    · exact .refl _ _

theorem Executed.setPassword {username new salt : Str} {clear : Bool} (h : Executed R.sqlite tables tables') :
    Executed R.sqlite tables (tables'.setPassword R.bcrypt R.sqlite username new salt clear).2 :=
  h.apply (.updatePassword _ _ _)

theorem executed_login {username password : Option Str} :
    Executed R.sqlite s.tables (s.login R c w username password).1.tables := by
  unfold App.login
  split
  · exact .refl _ _
  · have hverify := @executed_verifyPassword R s.tables (strip spaces (username.getD [])) (password.getD []) w.now
    split
    · rename_i t ht
      rwa [ht] at hverify
    · rename_i user t ht
      rwa [ht] at hverify

theorem executed_changePassword {user : User} {current new confirm : Option Str} :
    Executed R.sqlite s.tables (s.changePassword R w user current new confirm).1.tables := by
  have hverify := @executed_verifyPassword R s.tables user.username (current.getD []) w.now
  unfold App.changePassword
  dsimp only
  split
  · rename_i t ht
    rwa [ht] at hverify
  · rename_i t ht
    rw [ht] at hverify
    split
    · exact hverify
    · split
      · exact hverify
      · exact hverify.setPassword

theorem executed_verifyText {user : User} {cur : PyStr} :
    Executed R.sqlite s.tables (s.verifyText R w user cur).2 := by
  unfold App.verifyText
  split
  · exact .refl _ _
  · exact executed_verifyPassword

theorem executed_apiChangePassword {user : User} {body : Option Json} :
    Executed R.sqlite s.tables (s.apiChangePassword R w user body).1.tables := by
  unfold App.apiChangePassword
  dsimp only
  split
  · exact .refl _ _
  · rename_i cur new hbody
    have hverify := @executed_verifyText R s w user cur
    split
    · rename_i t ht
      rwa [ht] at hverify
    · rename_i t ht
      rw [ht] at hverify
      split
      · exact hverify
      · exact hverify
      · exact hverify.setPassword

theorem executed_loginRequired {view : User → App × Response}
    (h : ∀ user, Executed R.sqlite s.tables (view user).1.tables) :
    Executed R.sqlite s.tables (s.loginRequired c view).1.tables := by
  unfold App.loginRequired
  split
  · exact .refl _ _
  · exact h _

theorem executed_runCommand {command : Except Response Command} {report : Response} :
    Executed R.sqlite s.tables (s.runCommand command report).1.tables := by
  cases command <;> exact .refl _ _

theorem executed_recent {topic : Str} {n : Option Str} :
    Executed R.sqlite s.tables (s.recent c topic n).1.tables := by
  unfold App.recent
  split <;> exact .refl _ _

theorem executed_onTables {out : Tables × Response} (h : Executed R.sqlite s.tables out.1) :
    Executed R.sqlite s.tables (s.onTables out).1.tables := h

theorem executed_endpointsAdd {body : Option Json} :
    Executed R.sqlite s.tables (endpointsAdd R s.tables body w.now).1 := by
  rcases @endpointsAdd_cases R s.tables body w.now with h | ⟨st, -, h⟩
  · exact ⟨[], h⟩
  · exact .of_exec h

theorem executed_endpointsUpdate {id : ℕ} {body : Option Json} :
    Executed R.sqlite s.tables (endpointsUpdate R s.tables id body w.now).1 := by
  rcases @endpointsUpdate_cases R s.tables id body w.now with h | ⟨sets, h⟩
  · exact ⟨[], h⟩
  · exact .of_exec h

theorem executed_endpointsDelete {id : ℕ} : Executed R.sqlite s.tables (endpointsDelete R s.tables id).1 := by
  rcases @endpointsDelete_cases R s.tables id with h | h
  · exact ⟨[], h⟩
  · exact ⟨[.deleteEndpoint id], h⟩

/-- **What a request executes.** -/
theorem handle_executes : Executed R.sqlite s.tables (s.handle R c w r).1.tables := by
  cases r with
  | login username password => exact executed_login
  | logout => exact executed_loginRequired fun _ => .refl _ _
  | changePassword current new confirm => exact executed_loginRequired fun _ => executed_changePassword
  | apiChangePassword body => exact executed_loginRequired fun _ => executed_apiChangePassword
  | endpointsAdd body => exact executed_loginRequired fun _ => executed_onTables executed_endpointsAdd
  | endpointsUpdate id body => exact executed_loginRequired fun _ => executed_onTables executed_endpointsUpdate
  | endpointsDelete id => exact executed_loginRequired fun _ => executed_onTables executed_endpointsDelete
  | wifiConnect | wifiForget => exact executed_loginRequired fun _ => executed_runCommand
  | recentIncoming | recentOutgoing => exact executed_loginRequired fun _ => executed_recent
  | loginForm | healthz => exact .refl _ _
  | page | changePasswordForm | status | endpointsList | endpointsTest | wifiScan | wifiCurrent
  | wifiEthernet | wifiSaved | backup | backupsList | systemInfo | systemRestart | systemReboot =>
    exact executed_loginRequired fun _ => .refl _ _

namespace App

variable {e : AppEvent}

theorem step_executes (h : s.step R e = some t) : Executed R.sqlite s.tables t.tables := by
  cases e with
  | http c w r =>
    obtain rfl := Option.some.inj h
    exact handle_executes
  | present c cookie =>
    simp only [step] at h
    split at h
    · obtain rfl := Option.some.inj h
      exact .refl _ _
    · cases h
  | connect c =>
    obtain rfl := Option.some.inj h
    exact .refl _ _
  | disconnect c =>
    obtain rfl := Option.some.inj h
    exact .refl _ _
  | publish p =>
    obtain rfl := Option.some.inj h
    exact .refl _ _

theorem numbered_of_step (hs : s.tables.Numbered) (h : s.step R e = some t) : t.tables.Numbered := by
  obtain ⟨sts, hsts⟩ := step_executes h
  exact hsts ▸ hs.apply

theorem later_of_step (h : s.step R e = some t) : s.tables.Later t.tables := by
  obtain ⟨sts, hsts⟩ := step_executes h
  exact hsts ▸ Tables.Later.apply

end App

end AisServer.Web
