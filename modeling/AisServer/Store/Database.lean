import AisServer.Lib.Text
import Mathlib.Data.List.AList
import Mathlib.Data.Rat.Defs

/-!
# The database

The tables of `db.py` and the statements that change them.  SQLite and bcrypt are parameters: `Sqlite` is
what a column stores for a value that is bound to it, `Bcrypt` is the password hash.  A statement either
takes effect as a whole or raises (`none`).
-/

namespace AisServer.Store

open AisServer.Lib

/-- A value in a cell of a table. -/
inductive Value
  | null
  | int (n : ℤ)
  | real (q : ℚ)
  | infinity (negative : Bool)
  | text (s : Str)
  deriving DecidableEq

/-- The values that columns of `TEXT` and `INTEGER` affinity store. -/
structure Sqlite where
  asText : Value → Value
  asInteger : Value → Value

structure Bcrypt where
  hashpw : Str → Str → Str
  /-- `none` is the `ValueError` of a text that is no hash. -/
  checkpw : Str → Str → Option Bool

/-- A row of `users`. -/
structure User where
  id : ℕ
  username : Str
  pwHash : Str
  mustChangePassword : Bool
  createdAt : ℤ
  lastLogin : Option ℤ := none
  deriving DecidableEq

/-- A row of `endpoints`. -/
structure Endpoint where
  id : ℕ
  name : Value
  protocol : Value
  host : Value
  port : Value
  path : Value
  enabled : Bool
  createdAt : ℤ
  updatedAt : ℤ
  broadcast : Bool := false
  deriving DecidableEq

/-- By the entries, so that the kernel can compute it. -/
instance : DecidableEq (AList fun _ : Str => Str) := fun a b =>
  decidable_of_iff (a.entries = b.entries) AList.ext_iff.symm

/-- The tables, with the last `AUTOINCREMENT` values. -/
structure Tables where
  users : List User := []
  lastUser : ℕ := 0
  endpoints : List Endpoint := []
  lastEndpoint : ℕ := 0
  kv : AList fun _ : Str => Str := ∅
  deriving DecidableEq

/-- One assignment of an `UPDATE endpoints`. -/
inductive Assignment
  | name (v : Value)
  | protocol (v : Value)
  | host (v : Value)
  | port (v : Value)
  | path (v : Value)
  | enabled (b : Bool)
  | broadcast (b : Bool)

/-- The statements of `db.py` that change a table. -/
inductive Statement
  | insertUser (username pwHash : Str) (mustChange : Bool) (now : ℤ)
  | updateLastLogin (id : ℕ) (now : ℤ)
  | updatePassword (username pwHash : Str) (clearMustChange : Bool)
  | insertEndpoint (name protocol host port path : Value) (enabled broadcast : Bool) (now : ℤ)
  | updateEndpoint (id : ℕ) (sets : List Assignment) (now : ℤ)
  | deleteEndpoint (id : ℕ)
  | upsertKv (k v : Str)

namespace Endpoint

/-- `NOT NULL` and `UNIQUE`: the row may stand beside the others. -/
def fits (e : Endpoint) (others : List Endpoint) : Bool :=
  e.name ≠ .null && e.protocol ≠ .null && e.host ≠ .null && e.port ≠ .null &&
    others.all fun o => o.name ≠ e.name

def assign (Q : Sqlite) (e : Endpoint) : Assignment → Endpoint
  | .name v => { e with name := Q.asText v }
  | .protocol v => { e with protocol := Q.asText v }
  | .host v => { e with host := Q.asText v }
  | .port v => { e with port := Q.asInteger v }
  | .path v => { e with path := Q.asText v }
  | .enabled b => { e with enabled := b }
  | .broadcast b => { e with broadcast := b }

end Endpoint

/-- One statement; `none` is an `IntegrityError`. -/
def Statement.exec (Q : Sqlite) (t : Tables) : Statement → Option Tables
  | .insertUser username pwHash mustChange now =>
    if t.users.any fun u => u.username = username then none
    else some { t with
      users := t.users ++
        [⟨t.lastUser + 1, username, pwHash, mustChange, now, none⟩]
      lastUser := t.lastUser + 1 }
  | .updateLastLogin id now =>
    some { t with
      users := t.users.map fun u => if u.id = id then { u with lastLogin := some now } else u }
  | .updatePassword username pwHash clear =>
    some { t with
      users := t.users.map fun u =>
        if u.username = username then
          { u with pwHash, mustChangePassword := if clear then false else u.mustChangePassword }
        else u }
  | .insertEndpoint name protocol host port path enabled broadcast now =>
    let e : Endpoint :=
      { id := t.lastEndpoint + 1
        name := Q.asText name, protocol := Q.asText protocol, host := Q.asText host
        port := Q.asInteger port, path := Q.asText path
        enabled, createdAt := now, updatedAt := now, broadcast }
    if e.fits t.endpoints then
      some { t with endpoints := t.endpoints ++ [e], lastEndpoint := t.lastEndpoint + 1 }
    else none
  | .updateEndpoint id sets now =>
    match t.endpoints.find? fun e => e.id = id with
    | none => some t
    | some e =>
      let e' := { sets.foldl (Endpoint.assign Q) e with updatedAt := now }
      if e'.fits (t.endpoints.filter fun o => o.id ≠ id) then
        some { t with endpoints := t.endpoints.map fun o => if o.id = id then e' else o }
      else none
  | .deleteEndpoint id => some { t with endpoints := t.endpoints.filter fun e => e.id ≠ id }
  | .upsertKv k v => some { t with kv := t.kv.insert k v }

/-- What a statement that was executed leaves behind; an error rolls it back. -/
def Statement.apply (Q : Sqlite) (t : Tables) (st : Statement) : Tables := (st.exec Q t).getD t

/-! ### Users -/

namespace Tables

section

variable (B : Bcrypt) (Q : Sqlite) (t : Tables)

def defaultUsername : Str := "JLBMaritime".toList
def defaultPassword : Str := "Admin".toList

def createUser (username password salt : Str) (mustChange : Bool) (now : ℤ) : Option Tables :=
  (Statement.insertUser username (B.hashpw password salt) mustChange now).exec Q t

def seedDefaultUser (salt : Str) (now : ℤ) : Option Tables :=
  if t.users ≠ [] then some t else t.createUser B Q defaultUsername defaultPassword salt true now

def getUserById (uid : ℕ) : Option User := t.users.find? fun u => u.id = uid

def getUserByName (username : Str) : Option User := t.users.find? fun u => u.username = username

def verifyPassword (username password : Str) (now : ℤ) : Option User × Tables :=
  match t.getUserByName username with
  | none => (none, t)
  | some user =>
    match B.checkpw password user.pwHash with
    | some true => (some user, (Statement.updateLastLogin user.id now).apply Q t)
    | _ => (none, t)

def setPassword (username newPassword salt : Str) (clearMustChange : Bool) : Bool × Tables :=
  (t.users.any fun u => u.username = username,
    (Statement.updatePassword username (B.hashpw newPassword salt) clearMustChange).apply Q t)

end

/-! ### What the methods of the users keep -/

variable {B : Bcrypt} {Q : Sqlite} {t t' t'' : Tables}

/-- Some user has to change the password. -/
def flagged (t : Tables) : Bool := t.users.any (·.mustChangePassword)

/-- The tables differ in the login times and passwords of the users only, and no flag was set. -/
structure UsersOnly (t t' : Tables) : Prop where
  endpoints : t'.endpoints = t.endpoints
  ids : t'.users.map (·.id) = t.users.map (·.id)
  flag : t'.flagged = true → t.flagged = true

theorem UsersOnly.refl (t : Tables) : UsersOnly t t := ⟨rfl, rfl, id⟩

theorem UsersOnly.trans (h : UsersOnly t t') (h' : UsersOnly t' t'') : UsersOnly t t'' :=
  ⟨h'.endpoints.trans h.endpoints, h'.ids.trans h.ids, h.flag ∘ h'.flag⟩

theorem usersOnly_map {f : User → User} (hid : ∀ u, (f u).id = u.id)
    (hflag : ∀ u, (f u).mustChangePassword = true → u.mustChangePassword = true) :
    UsersOnly t { t with users := t.users.map f } := by
  refine ⟨rfl, ?_, fun h => ?_⟩
  · rw [List.map_map]
    exact List.map_congr_left fun u _ => hid u
  · obtain ⟨v, hv, hm⟩ := List.any_eq_true.1 h
    obtain ⟨u, hu, rfl⟩ := List.mem_map.1 hv
    exact List.any_eq_true.2 ⟨u, hu, hflag u hm⟩

theorem verifyPassword_usersOnly (username password : Str) (now : ℤ) :
    UsersOnly t (t.verifyPassword B Q username password now).2 := by
  unfold verifyPassword
  split
  · exact .refl t
  · split
    · refine usersOnly_map (fun u => ?_) fun u => ?_ <;> split <;> simp
    · exact .refl t

theorem verifyPassword_user {username password : Str} {now : ℤ} {user : User}
    (h : (t.verifyPassword B Q username password now).1 = some user) : user ∈ t.users := by
  unfold verifyPassword at h
  split at h
  · cases h
  · rename_i u hu
    split at h
    · obtain rfl := Option.some.inj h
      exact List.mem_of_find?_eq_some hu
    · cases h

theorem setPassword_usersOnly (username new salt : Str) (clear : Bool) :
    UsersOnly t (t.setPassword B Q username new salt clear).2 := by
  refine usersOnly_map (fun u => ?_) fun u => ?_
  · split <;> rfl
  · split
    · cases clear <;> simp
    · exact id

theorem getUserById_isSome {uid : ℕ} : (t.getUserById uid).isSome = true ↔ uid ∈ t.users.map (·.id) := by
  simp [getUserById, List.mem_map]

/-! ### Statements on endpoints -/

theorem exec_insertEndpoint {name protocol host port path : Value} {enabled broadcast : Bool} {now : ℤ}
    (h : (Statement.insertEndpoint name protocol host port path enabled broadcast now).exec Q t = some t') :
    t'.users = t.users ∧ ∃ e, t'.endpoints = t.endpoints ++ [e] := by
  simp only [Statement.exec] at h
  split at h
  · obtain rfl := Option.some.inj h
    exact ⟨rfl, _, rfl⟩
  · cases h

theorem exec_updateEndpoint {id : ℕ} {sets : List Assignment} {now : ℤ}
    (h : (Statement.updateEndpoint id sets now).exec Q t = some t') :
    t'.users = t.users ∧ (t.endpoints = [] → t'.endpoints = []) := by
  simp only [Statement.exec] at h
  split at h
  · obtain rfl := Option.some.inj h
    exact ⟨rfl, fun h => h⟩
  · rename_i e he
    split at h
    · obtain rfl := Option.some.inj h
      refine ⟨rfl, fun hnil => ?_⟩
      rw [hnil] at he
      cases he
    · cases h

end Tables

end AisServer.Store
