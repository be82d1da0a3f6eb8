import AisServer.Lib.Calendar
import AisServer.Lib.Table
import AisServer.Lib.Text

/-!
# The node registry

`NodeRegistry` is the dictionary of logical nodes, keyed by the source id of their tag blocks or by their
host.  Each method is one atomic step; the session threads and the maintenance loop share the registry.

* `onSessionStart_get`, `onSessionEnd_get`, `setSourceId_cases`, `touch_get`, `pruneInactive_get` — the
  node under a key after each method.
-/

namespace AisServer.Ingest

open AisServer.Lib

/-- One logical node; it may aggregate several TCP sessions. -/
structure NodeInfo where
  key : Str
  host : Str
  sourceId : Option Str
  firstSeen : Time
  lastSeen : Time := 0
  connectedAt : Time := 0
  messages : ℕ := 0
  invalid : ℕ := 0
  bytesRx : ℕ := 0
  sessions : ℕ := 0
  activeSessions : ℕ := 0
  lastPeer : Str := []

def NodeInfo.connected (n : NodeInfo) : Bool := 0 < n.activeSessions

abbrev NodeRegistry := Table Str NodeInfo

namespace NodeRegistry

/-- `source_id or host` -/
def sessionKey (sourceId : Option Str) (host : Str) : Str :=
  match sourceId with
  | some (c :: id) => c :: id
  | _ => host

/-- What a new session does to its node. -/
def startSession (peer host : Str) (now : Time) (info : NodeInfo) : NodeInfo :=
  { info with
    lastPeer := peer, host, sessions := info.sessions + 1
    activeSessions := info.activeSessions + 1, connectedAt := now, lastSeen := now }

/-- A node that is registered by a session. -/
def newNode (key host : Str) (sourceId : Option Str) (now : Time) : NodeInfo :=
  { key, host, sourceId, firstSeen := now, lastSeen := now, connectedAt := now }

def onSessionStart (g : NodeRegistry) (peer host : Str) (sourceId : Option Str) (now : Time) :
    Ref × NodeRegistry :=
  let key := sessionKey sourceId host
  match g.refs.lookup key with
  | some r => (r, g.modify r (startSession peer host now))
  | none =>
    (g.objs.length, g.add key (startSession peer host now (newNode key host sourceId now)))

/-- `if info and info.active_sessions > 0: info.active_sessions -= 1` -/
def endSession (info : NodeInfo) : NodeInfo :=
  if 0 < info.activeSessions then { info with activeSessions := info.activeSessions - 1 } else info

def onSessionEnd (g : NodeRegistry) (key : Str) : NodeRegistry := g.update key endSession

/-- `set_source_id`: the object that it returns and the registry; `none` is the `KeyError` of a key
that equals the source id and is not registered. -/
def setSourceId (g : NodeRegistry) (oldKey sourceId : Str) (now : Time) :
    Option (Ref × NodeRegistry) :=
  match g.refs.lookup sourceId with
  | some r => some (r, g)
  | none =>
    if oldKey = sourceId then none
    else match h : g.refs.lookup oldKey with
      | none => some (g.objs.length, g.add sourceId
          { key := sourceId, host := [], sourceId := some sourceId, firstSeen := now, lastSeen := now })
      | some r => some (r, (g.rename h sourceId).update sourceId fun info =>
          { info with key := sourceId, sourceId := some sourceId })

/-- What a `touch` does to its node. -/
def touchNode (nbytes : ℕ) (msg invalid : Bool) (now : Time) (info : NodeInfo) : NodeInfo :=
  { info with
    lastSeen := now, bytesRx := info.bytesRx + nbytes
    messages := if msg then info.messages + 1 else info.messages
    invalid := if invalid then info.invalid + 1 else info.invalid }

def touch (g : NodeRegistry) (key : Str) (nbytes : ℕ) (msg invalid : Bool) (now : Time) :
    NodeRegistry := g.update key (touchNode nbytes msg invalid now)

/-- The nodes that `prune_inactive` drops. -/
def stale (maxAge now : Time) (n : NodeInfo) : Bool := n.activeSessions = 0 ∧ maxAge < now - n.lastSeen

/-- One turn of the loop of `prune_inactive`. -/
def pruneKey (maxAge now : Time) (s : ℕ × NodeRegistry) (key : Str) : ℕ × NodeRegistry :=
  match s.2.get key with
  | none => s
  | some n => if stale maxAge now n then (s.1 + 1, s.2.erase key) else s

/-- `prune_inactive`: the number of entries removed and the registry. -/
def pruneInactive (g : NodeRegistry) (maxAge now : Time) : ℕ × NodeRegistry :=
  if maxAge ≤ 0 then (0, g) else g.refs.keys.foldl (pruneKey maxAge now) (0, g)

variable {g g' : NodeRegistry} {k key peer host oldKey sid : Str} {sourceId : Option Str}
  {now maxAge : Time} {r : Ref}

/-! ### The node under a key -/

theorem onSessionStart_get : (g.onSessionStart peer host sourceId now).2.get k =
    if k = sessionKey sourceId host then
      some (startSession peer host now
        ((g.get (sessionKey sourceId host)).getD (newNode (sessionKey sourceId host) host sourceId now)))
    else g.get k := by
  unfold onSessionStart
  rcases h : g.refs.lookup (sessionKey sourceId host) with _ | r
  · simp only [h, Table.get_add, Table.get_eq_none.2 h, Option.getD_none]
  · simp only [h, Table.get_modify]
    by_cases hk : k = sessionKey sourceId host
    · subst hk
      rcases hg : g.get (sessionKey sourceId host) with _ | n
      · rw [Table.get_eq_none.1 hg] at h
        cases h
      · rw [if_pos h, if_pos rfl]
        rfl
    · rw [if_neg hk, if_neg fun h' => hk (g.inj h' h)]

theorem onSessionEnd_get : (g.onSessionEnd key).get k =
    if k = key then (g.get key).map endSession else g.get k := Table.get_update

theorem touch_get {nbytes : ℕ} {msg invalid : Bool} : (g.touch key nbytes msg invalid now).get k =
    if k = key then (g.get key).map (touchNode nbytes msg invalid now) else g.get k := Table.get_update

/-- **`set_source_id`** leaves a registered source id as it is, and otherwise moves the node of the old
key to it; without an old one it registers a new node. -/
theorem setSourceId_cases (h : g.setSourceId oldKey sid now = some (r, g')) :
    (g.get sid ≠ none ∧ g' = g) ∨
    (g.get sid = none ∧ g.get oldKey ≠ none ∧ oldKey ≠ sid ∧ ∀ k, g'.get k =
      if k = sid then
        (g.get oldKey).map fun info => { info with key := sid, sourceId := some sid }
      else if k = oldKey then none else g.get k) ∨
    (g.get sid = none ∧ g.get oldKey = none ∧ oldKey ≠ sid ∧ ∀ k, g'.get k =
      if k = sid then
        some { key := sid, host := [], sourceId := some sid, firstSeen := now, lastSeen := now }
      else g.get k) := by
  unfold setSourceId at h
  rcases hs : g.refs.lookup sid with _ | r'
  · simp only [hs] at h
    have hnone : g.get sid = none := Table.get_eq_none.2 hs
    by_cases hne : oldKey = sid
    · simp [hne] at h
    · rw [if_neg hne] at h
      split at h
      · rename_i ho
        obtain ⟨-, rfl⟩ := Prod.mk.inj (Option.some.inj h)
        exact Or.inr (Or.inr ⟨hnone, Table.get_eq_none.2 ho, hne, fun k => Table.get_add⟩)
      · rename_i r'' ho
        obtain ⟨-, rfl⟩ := Prod.mk.inj (Option.some.inj h)
        refine Or.inr (Or.inl ⟨hnone, ?_, hne, fun k => ?_⟩)
        · rw [Ne, Table.get_eq_none, ho]
          simp
        · rw [Table.get_update]
          by_cases hk : k = sid
          · subst hk
            rw [if_pos rfl, if_pos rfl, Table.get_rename, if_pos rfl]
          · rw [if_neg hk, if_neg hk, Table.get_rename, if_neg hk]
  · simp only [hs, Option.some.injEq, Prod.mk.injEq] at h
    refine Or.inl ⟨?_, h.2.symm⟩
    rw [Ne, Table.get_eq_none, hs]
    simp

theorem setSourceId_eq_none (h : g.setSourceId oldKey sid now = none) : g.get oldKey = none := by
  unfold setSourceId at h
  rcases hs : g.refs.lookup sid with _ | r'
  · simp only [hs] at h
    by_cases hne : oldKey = sid
    · rw [hne]
      exact Table.get_eq_none.2 hs
    · rw [if_neg hne] at h
      split at h <;> cases h
  · simp [hs] at h

theorem pruneKey_get {s : ℕ × NodeRegistry} : (pruneKey maxAge now s key).2.get k =
    if k = key then (s.2.get k).filter fun n => !stale maxAge now n else s.2.get k := by
  unfold pruneKey
  rcases hg : s.2.get key with _ | n
  · by_cases hk : k = key
    · subst hk
      simp [hg]
    · simp [hk]
  · by_cases hst : stale maxAge now n = true
    · simp only [hst, if_true, Table.get_erase]
      by_cases hk : k = key
      · subst hk
        simp [Option.filter, hg, hst]
      · simp [hk]
    · by_cases hk : k = key
      · subst hk
        simp [Option.filter, hg, hst]
      · simp [hk, hst]

/-- **`prune_inactive`** drops the nodes without a session that were silent for too long. -/
theorem pruneInactive_get : (g.pruneInactive maxAge now).2.get k =
    if maxAge ≤ 0 then g.get k else (g.get k).filter fun n => !stale maxAge now n := by
  unfold pruneInactive
  by_cases hm : maxAge ≤ 0
  · rw [if_pos hm, if_pos hm]
  · rw [if_neg hm, if_neg hm]
    have hloop : ∀ (keys : List Str) (s : ℕ × NodeRegistry),
        (keys.foldl (pruneKey maxAge now) s).2.get k =
          if k ∈ keys then (s.2.get k).filter fun n => !stale maxAge now n else s.2.get k := by
      intro keys
      induction keys with
      | nil => intro s; simp
      | cons key keys ih =>
        intro s
        rw [List.foldl_cons, ih, pruneKey_get]
        by_cases hk : k = key
        · subst hk
          simp
        · simp [hk]
    rw [hloop]
    by_cases hk : k ∈ g.refs.keys
    · rw [if_pos hk]
    · rw [if_neg hk, Table.get_eq_none.2 (AList.lookup_eq_none.2 fun h => hk (AList.mem_keys.1 h))]
      rfl

end NodeRegistry

end AisServer.Ingest
