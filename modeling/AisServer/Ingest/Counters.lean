import AisServer.Ingest.Accounting
import Mathlib.Algebra.BigOperators.Group.List.Basic

/-!
# The counters of the nodes

`touch` counts on the node that is registered under the key of the session, and does nothing when there is
none.  `Ledger` is the server with a log of what its sessions did; `Complete` says that every open session has
a registered node and that the counters agree with the log.

* `Complete.step` — every step keeps it, as long as no key is taken away from an open session;
* `not_registered_of_not_keepsKeys` — any other step leaves an open session without a node at once;
* `counters_complete` — so the counters are complete throughout exactly when no step is of that kind.
-/

namespace AisServer.Ingest

open AisServer.Lib

/-! ### Counters -/

namespace NodeRegistry

/-- A counter of a node that nothing but `touch` moves. -/
structure IsCounter (n : NodeInfo → ℕ) : Prop where
  fresh : ∀ key host sourceId firstSeen lastSeen connectedAt,
    n { key, host, sourceId, firstSeen, lastSeen, connectedAt } = 0
  start : ∀ peer host now info, n (startSession peer host now info) = n info
  stop : ∀ info, n (endSession info) = n info
  rekey : ∀ key sourceId info, n { info with key, sourceId } = n info

theorem isCounter_messages : IsCounter (·.messages) where
  fresh _ _ _ _ _ _ := rfl
  start _ _ _ _ := rfl
  stop info := by
    unfold endSession
    split <;> rfl
  rekey _ _ _ := rfl

theorem isCounter_invalid : IsCounter (·.invalid) where
  fresh _ _ _ _ _ _ := rfl
  start _ _ _ _ := rfl
  stop info := by
    unfold endSession
    split <;> rfl
  rekey _ _ _ := rfl

theorem isCounter_bytesRx : IsCounter (·.bytesRx) where
  fresh _ _ _ _ _ _ := rfl
  start _ _ _ _ := rfl
  stop info := by
    unfold endSession
    split <;> rfl
  rekey _ _ _ := rfl

variable {g g' : NodeRegistry} {k key peer host oldKey sid : Str} {sourceId : Option Str}
  {now maxAge : Time} {r r' : Ref} {n : NodeInfo → ℕ} {m nbytes : ℕ} {msg invalid : Bool}

theorem total_onSessionStart (hn : IsCounter n) :
    (g.onSessionStart peer host sourceId now).2.total n = g.total n := by
  unfold onSessionStart
  dsimp only
  split
  · rename_i r hr
    exact Table.total_modify (m := 0) (hn.start peer host now) (g.valid hr)
  · show (g.add _ _).total n = g.total n
    rw [Table.total_add, hn.start, newNode, hn.fresh, Nat.add_zero]

theorem total_onSessionEnd (hn : IsCounter n) : (g.onSessionEnd key).total n = g.total n :=
  Table.total_update_same hn.stop

theorem total_setSourceId (hn : IsCounter n) (h : g.setSourceId oldKey sid now = some (r, g')) :
    g'.total n = g.total n := by
  unfold setSourceId at h
  split at h
  · obtain ⟨-, rfl⟩ := Prod.mk.inj (Option.some.inj h)
    rfl
  · split at h
    · cases h
    · split at h
      · obtain ⟨-, rfl⟩ := Prod.mk.inj (Option.some.inj h)
        rw [Table.total_add, hn.fresh, Nat.add_zero]
      · rename_i r' ho
        obtain ⟨-, rfl⟩ := Prod.mk.inj (Option.some.inj h)
        exact Table.total_update_same fun info => hn.rekey sid (some sid) info

/-- A `touch` of a registered node counts. -/
theorem total_touch (hn : ∀ info, n (touchNode nbytes msg invalid now info) = n info + m)
    (hk : g.get key ≠ none) : (g.touch key nbytes msg invalid now).total n = g.total n + m :=
  Table.total_update hn hk

/-! ### The nodes that are pruned -/

/-- The nodes that a sweep drops. -/
def prunedBy (g : NodeRegistry) (maxAge now : Time) : List Ref :=
  if maxAge ≤ 0 then []
  else g.refs.keys.filterMap fun k =>
    if (g.get k).any (stale maxAge now) then g.refs.lookup k else none

theorem pruneInactive_frame : (g.pruneInactive maxAge now).2.objs = g.objs ∧
    ((g.pruneInactive maxAge now).2.refs.lookup k = none ∨
      (g.pruneInactive maxAge now).2.refs.lookup k = g.refs.lookup k) := by
  unfold pruneInactive
  split
  · exact ⟨rfl, Or.inr rfl⟩
  · have hloop : ∀ (keys : List Str) (s : ℕ × NodeRegistry),
        (keys.foldl (pruneKey maxAge now) s).2.objs = s.2.objs ∧
          ((keys.foldl (pruneKey maxAge now) s).2.refs.lookup k = none ∨
            (keys.foldl (pruneKey maxAge now) s).2.refs.lookup k = s.2.refs.lookup k) := by
      intro keys
      induction keys with
      | nil => exact fun s => ⟨rfl, Or.inr rfl⟩
      | cons key keys ih =>
        intro s
        have hturn : (pruneKey maxAge now s key).2.objs = s.2.objs ∧
            ((pruneKey maxAge now s key).2.refs.lookup k = none ∨
              (pruneKey maxAge now s key).2.refs.lookup k = s.2.refs.lookup k) := by
          unfold pruneKey
          split
          · exact ⟨rfl, Or.inr rfl⟩
          · split
            · refine ⟨rfl, ?_⟩
              show (s.2.refs.erase key).lookup k = none ∨ _
              by_cases hk : k = key
              · subst hk
                exact Or.inl (AList.lookup_erase _ _)
              · exact Or.inr (AList.lookup_erase_ne hk)
            · exact ⟨rfl, Or.inr rfl⟩
        rw [List.foldl_cons]
        obtain ⟨hobjs, hlookup⟩ := ih (pruneKey maxAge now s key)
        refine ⟨hobjs.trans hturn.1, ?_⟩
        rcases hlookup with h | h
        · exact Or.inl h
        · rw [h]
          exact hturn.2
    exact hloop _ _

theorem listed_pruneInactive (h : g.Listed r) :
    (g.pruneInactive maxAge now).2.Listed r ∨ r ∈ g.prunedBy maxAge now := by
  obtain ⟨k, hk⟩ := h
  have hget := @pruneInactive_get g k now maxAge
  by_cases hstale : maxAge ≤ 0 ∨ ¬ (g.get k).any (stale maxAge now) = true
  · left
    refine ⟨k, (pruneInactive_frame.2.resolve_left fun hnone => ?_).trans hk⟩
    have hsame : (g.pruneInactive maxAge now).2.get k = g.get k := by
      rw [hget]
      rcases hstale with hm | hst
      · rw [if_pos hm]
      · split
        · rfl
        · rcases hg : g.get k with _ | info
          · rfl
          · simp only [hg, Option.any_some] at hst
            simp [Option.filter, hst]
    rw [Table.get_eq_none.2 hnone] at hsame
    rw [Table.get_eq_none.1 hsame.symm] at hk
    cases hk
  · right
    obtain ⟨hm, hst⟩ := not_or.1 hstale
    unfold prunedBy
    rw [if_neg hm, List.mem_filterMap]
    refine ⟨k, ?_, ?_⟩
    · exact AList.mem_keys.1 (AList.lookup_isSome.1 (by rw [hk]; rfl))
    · rw [if_pos (not_not.1 hst), hk]

/-- Every node that was ever registered still is, or is one of `pruned`. -/
def Kept (g : NodeRegistry) (pruned : List Ref) : Prop :=
  ∀ r < g.objs.length, g.Listed r ∨ r ∈ pruned

variable {pruned : List Ref}

theorem Kept.update (hg : g.Kept pruned) (f : NodeInfo → NodeInfo) : Kept (g.update key f) pruned := by
  intro r hr
  rw [Table.length_update] at hr
  exact (hg r hr).imp_left Table.listed_update.2

theorem Kept.add (hg : g.Kept pruned) (hk : g.refs.lookup key = none) (info : NodeInfo) :
    Kept (g.add key info) pruned := by
  intro r hr
  rw [Table.listed_add hk]
  have hr : r < g.objs.length + 1 := by simpa [Table.add] using hr
  rcases Nat.lt_succ_iff_lt_or_eq.1 hr with hr | hr
  · exact (hg r hr).imp_left Or.inl
  · exact Or.inl (Or.inr hr)

theorem Kept.onSessionStart (hg : g.Kept pruned) :
    (g.onSessionStart peer host sourceId now).2.Kept pruned := by
  unfold NodeRegistry.onSessionStart
  dsimp only
  split
  · intro r hr
    exact hg r (by simpa [Table.modify] using hr)
  · rename_i hnone
    exact hg.add hnone _

theorem Kept.setSourceId (hg : g.Kept pruned) (h : g.setSourceId oldKey sid now = some (r, g')) :
    g'.Kept pruned := by
  unfold NodeRegistry.setSourceId at h
  split at h
  · obtain ⟨-, rfl⟩ := Prod.mk.inj (Option.some.inj h)
    exact hg
  · rename_i hnone
    split at h
    · cases h
    · split at h
      · obtain ⟨-, rfl⟩ := Prod.mk.inj (Option.some.inj h)
        exact hg.add hnone _
      · rename_i r' ho
        obtain ⟨-, rfl⟩ := Prod.mk.inj (Option.some.inj h)
        refine Kept.update (fun r hr => ?_) _
        exact (hg r hr).imp_left (Table.listed_rename ho hnone).2

theorem Kept.pruneInactive (hg : g.Kept pruned) :
    (g.pruneInactive maxAge now).2.Kept (pruned ++ g.prunedBy maxAge now) := by
  intro r hr
  rw [(pruneInactive_frame (k := [])).1] at hr
  rcases hg r hr with hl | hp
  · exact (listed_pruneInactive hl).imp_right (List.mem_append_right _)
  · exact Or.inr (List.mem_append_left _ hp)

end NodeRegistry

/-! ### The nodes of the open sessions -/

namespace TcpIngest

variable {s t : TcpIngest} {e : IngestEvent} {i : ℕ} {x x' : Session} {k : Str} {now maxAge : Time}

/-- The key of every open session is registered. -/
def Registered (s : TcpIngest) : Prop :=
  ∀ x ∈ s.sessions, x.isOpen = true → s.registry.get x.key ≠ none

/-- An upgrade to a registered source id, or of a session that has its key for itself. -/
def Unshared (s : TcpIngest) (x : Session) : Prop :=
  match x.pc with
  | .upgrade sid _ => s.registry.get sid ≠ none ∨ s.openSessions x.key = 1
  | _ => True

instance (s : TcpIngest) (x : Session) : Decidable (Unshared s x) :=
  match hpc : x.pc with
  | .upgrade sid _ =>
    decidable_of_iff ((s.registry.get sid).isSome = true ∨ s.openSessions x.key = 1) (by
      simp only [Unshared, hpc, Option.isSome_iff_ne_none])
  | .recv | .lines | .judge _ | .closing | .closed => isTrue (by simp only [Unshared, hpc])

/-- No upgrade takes its node away from another session, and no sweep drops the node of an open one. -/
def KeepsKeys (s : TcpIngest) : IngestEvent → Prop
  | .upgrade i _ => ∀ x ∈ s.sessions[i]?, Unshared s x
  | .prune maxAge now => 0 < maxAge → ∀ x ∈ s.sessions, x.isOpen = true →
      (s.registry.get x.key).any (NodeRegistry.stale maxAge now) = false
  | _ => True

instance (s : TcpIngest) : ∀ e, Decidable (KeepsKeys s e)
  | .upgrade i _ => inferInstanceAs (Decidable (∀ x ∈ s.sessions[i]?, Unshared s x))
  | .prune maxAge _ => inferInstanceAs (Decidable (0 < maxAge → _))
  | .start .. | .recv .. | .hangup _ | .line _ | .judge .. | .finish _ =>
    inferInstanceAs (Decidable True)

theorem isOpen_of_pc {pc : Pc} (hpc : x.pc = pc) (hne : pc ≠ .closed) : x.isOpen = true :=
  isOpen_iff.2 (hpc ▸ hne)

theorem Registered.set (hs : Registered s) (hx : s.sessions[i]? = some x) (ho : x.isOpen = true)
    (hk : x'.key = x.key) {g : NodeRegistry} (hg : ∀ k, s.registry.get k ≠ none → g.get k ≠ none)
    (handed : List (Str × Str × Time)) : Registered ⟨g, s.sessions.set i x', handed⟩ := by
  intro y hy hyo
  rcases List.mem_or_eq_of_mem_set hy with hy | rfl
  · exact hg _ (hs y hy hyo)
  · rw [hk]
    exact hg _ (hs x (List.mem_of_getElem? hx) ho)

theorem get_update_ne_none {g : NodeRegistry} {f : NodeInfo → NodeInfo} {key : Str}
    (h : g.get k ≠ none) : (Table.update g key f).get k ≠ none := by
  rw [Table.get_update]
  by_cases hk : k = key
  · subst hk
    simpa using h
  · rwa [if_neg hk]

/-- An upgrade that moves its node moves it for the one session that has it. -/
theorem Registered.upgrade (hs : Registered s) {sid sentence : Str} {r : Ref} {g : NodeRegistry}
    (hx : s.sessions[i]? = some x) (hpc : x.pc = .upgrade sid sentence) (hc : Unshared s x)
    (hset : s.registry.setSourceId x.key sid now = some (r, g)) :
    Registered { s with
      registry := g, sessions := s.sessions.set i { x with key := sid, pc := .judge sentence } } := by
  have ho : x.isOpen = true := isOpen_of_pc hpc Pc.noConfusion
  have hreg := hs x (List.mem_of_getElem? hx) ho
  have hshare : s.registry.get sid ≠ none ∨ s.openSessions x.key = 1 := by
    simpa [Unshared, hpc] using hc
  intro y hy hyo
  show g.get y.key ≠ none
  rcases NodeRegistry.setSourceId_cases hset with ⟨hsid, rfl⟩ | ⟨hnone, -, hne, hget⟩ | ⟨-, hnone, -, -⟩
  · rcases List.mem_or_eq_of_mem_set hy with hy | rfl
    · exact hs y hy hyo
    · exact hsid
  · rw [hget]
    by_cases hys : y.key = sid
    · rw [if_pos hys]
      simpa using hreg
    · rw [if_neg hys]
      -- any other session with the old key would have been counted
      have hold : y.key ≠ x.key := by
        intro hk
        have hcount := openSessions_rekey hx g s.handed (isOpen_iff.1 ho)
          (show Session.pc { x with key := sid, pc := .judge sentence } ≠ .closed by simp) hne x.key
        rw [if_neg hne, if_pos rfl, hshare.resolve_left (not_not.2 hnone)] at hcount
        have hpos : 0 < TcpIngest.openSessions
            ⟨g, s.sessions.set i { x with key := sid, pc := .judge sentence }, s.handed⟩ x.key :=
          List.countP_pos_iff.2 ⟨y, hy, holds_iff.2 ⟨hyo, hk⟩⟩
        omega
      rw [if_neg hold]
      refine hs y ((List.mem_or_eq_of_mem_set hy).resolve_right ?_) hyo
      rintro rfl
      exact hys rfl
  · exact absurd hnone hreg

theorem Registered.step (hs : Registered s) (hc : KeepsKeys s e) (h : s.step e = some t) :
    Registered t := by
  cases e with
  | start peer host now =>
    obtain rfl := Option.some.inj h
    have hget : ∀ k, s.registry.get k ≠ none ∨ k = host →
        (s.registry.onSessionStart peer host none now).2.get k ≠ none := by
      intro k hk
      rw [NodeRegistry.onSessionStart_get]
      by_cases hh : k = host
      · rw [if_pos (show k = NodeRegistry.sessionKey none host from hh)]
        exact Option.some_ne_none _
      · rw [if_neg (show ¬ k = NodeRegistry.sessionKey none host from hh)]
        exact hk.resolve_right hh
    intro y hy hyo
    rcases List.mem_append.1 hy with hy | hy
    · exact hget _ (Or.inl (hs y hy hyo))
    · obtain rfl := List.mem_singleton.1 hy
      exact hget _ (Or.inr rfl)
  | recv i data now =>
    obtain ⟨x, hx, hpc, -, rfl⟩ := step_recv h
    exact hs.set hx (isOpen_of_pc hpc Pc.noConfusion) (by rfl) (fun k => get_update_ne_none) _
  | hangup i =>
    obtain ⟨x, hx, hpc, rfl⟩ := step_hangup h
    exact hs.set hx (isOpen_of_pc hpc Pc.noConfusion) (by rfl) (fun k hk => hk) _
  | line i =>
    obtain ⟨x, hx, hpc, rfl⟩ := step_line h
    exact hs.set hx (isOpen_of_pc hpc Pc.noConfusion) (takeLine_key s x) (fun k hk => hk) _
  | upgrade i now =>
    obtain ⟨x, sid, sentence, hx, hpc, ⟨-, rfl⟩ | ⟨r, g, hset, rfl⟩⟩ := step_upgrade h
    · exact hs.set hx (isOpen_of_pc hpc Pc.noConfusion) (by rfl) (fun k hk => hk) _
    · exact hs.upgrade hx hpc (hc x hx) hset
  | judge i now =>
    obtain ⟨x, sentence, hx, hpc, rfl⟩ := step_judge h
    exact hs.set hx (isOpen_of_pc hpc Pc.noConfusion) (by rfl) (fun k => get_update_ne_none) _
  | finish i =>
    obtain ⟨x, hx, hpc, rfl⟩ := step_finish h
    exact hs.set hx (isOpen_of_pc hpc Pc.noConfusion) (by rfl) (fun k => get_update_ne_none) _
  | prune maxAge now =>
    obtain rfl := Option.some.inj h
    intro y hy hyo
    show (s.registry.pruneInactive maxAge now).2.get y.key ≠ none
    rw [NodeRegistry.pruneInactive_get]
    by_cases hm : maxAge ≤ 0
    · rw [if_pos hm]
      exact hs y hy hyo
    · rw [if_neg hm]
      have hkeep := hc (not_le.1 hm) y hy hyo
      obtain ⟨n, hn⟩ := Option.ne_none_iff_exists'.1 (hs y hy hyo)
      simp only [hn, Option.any_some] at hkeep
      simp [hn, Option.filter, hkeep]

/-- Any other step takes the node of an open session out of the registry. -/
theorem not_registered_of_not_keepsKeys (hs : Registered s) (hc : ¬ KeepsKeys s e)
    (h : s.step e = some t) : ¬ Registered t := by
  intro ht
  cases e with
  | upgrade i now =>
    obtain ⟨x, sid, sentence, hx, hpc, hstep⟩ := step_upgrade h
    have ho : x.isOpen = true := isOpen_of_pc hpc Pc.noConfusion
    have hreg := hs x (List.mem_of_getElem? hx) ho
    have hnot : ¬ (s.registry.get sid ≠ none ∨ s.openSessions x.key = 1) := by
      intro hshare
      refine hc fun y hy => ?_
      rw [hx, Option.mem_some_iff] at hy
      subst hy
      simpa [Unshared, hpc] using hshare
    obtain ⟨hnone, hone⟩ := not_or.1 hnot
    have hnone := not_not.1 hnone
    rcases hstep with ⟨hset, -⟩ | ⟨r, g, hset, rfl⟩
    · exact hreg (NodeRegistry.setSourceId_eq_none hset)
    · rcases NodeRegistry.setSourceId_cases hset with ⟨hsid, -⟩ | ⟨-, -, hne, hget⟩ | ⟨-, hold, -, -⟩
      · exact hsid hnone
      · have hcount := openSessions_rekey hx g s.handed (isOpen_iff.1 ho)
          (show Session.pc { x with key := sid, pc := .judge sentence } ≠ .closed by simp) hne x.key
        rw [if_neg hne, if_pos rfl] at hcount
        have hpos := openSessions_pos hx ho
        obtain ⟨y, hy, hyk⟩ := List.countP_pos_iff.1
          (show 0 < TcpIngest.openSessions
            ⟨g, s.sessions.set i { x with key := sid, pc := .judge sentence }, s.handed⟩ x.key by omega)
        obtain ⟨hyo, hyk⟩ := holds_iff.1 hyk
        refine ht y hy hyo ?_
        show g.get y.key = none
        rw [hyk, hget, if_neg hne, if_pos rfl]
      · exact hreg hold
  | prune maxAge now =>
    obtain rfl := Option.some.inj h
    unfold KeepsKeys at hc
    push Not at hc
    obtain ⟨hm, x, hx, ho, hstale⟩ := hc
    refine ht x hx ho ?_
    show (s.registry.pruneInactive maxAge now).2.get x.key = none
    rw [NodeRegistry.pruneInactive_get, if_neg (not_le.2 hm)]
    rcases hn : s.registry.get x.key with _ | n
    · rfl
    · simp only [hn, Option.any_some] at hstale
      simp [Option.filter, hstale]
  | start peer host now => exact hc trivial
  | recv i data now => exact hc trivial
  | hangup i => exact hc trivial
  | line i => exact hc trivial
  | judge i now => exact hc trivial
  | finish i => exact hc trivial

/-- `set_source_id` of an open session with a registered key raises no `KeyError`. -/
theorem Registered.setSourceId_ne_none (hs : Registered s) (hx : x ∈ s.sessions) {sid sentence : Str}
    (hpc : x.pc = .upgrade sid sentence) (now : Time) :
    s.registry.setSourceId x.key sid now ≠ none :=
  fun h => hs x hx (isOpen_of_pc hpc Pc.noConfusion) (NodeRegistry.setSourceId_eq_none h)

end TcpIngest

/-! ### The log of the sessions -/

/-- The server, with what its sessions received, passed to `_handle_line` and rejected so far, each with the
number of the session, and the nodes that were pruned. -/
structure Ledger where
  server : TcpIngest := {}
  received : List (ℕ × List UInt8) := []
  lines : List (ℕ × List UInt8) := []
  rejected : List (ℕ × Str) := []
  pruned : List Ref := []

namespace Ledger

/-- The chunk that a step receives. -/
def receivedBy : IngestEvent → List (ℕ × List UInt8)
  | .recv i data _ => [(i, data)]
  | _ => []

/-- The line that a step takes out of a buffer. -/
def linesBy (s : TcpIngest) : IngestEvent → List (ℕ × List UInt8)
  | .line i => ((s.sessions[i]?.bind fun x => split1 10 x.buf).map fun r => (i, r.1)).toList
  | _ => []

/-- The sentence of a line that a step rejects. -/
def rejectedBy (s : TcpIngest) : IngestEvent → List (ℕ × Str)
  | .judge i _ => ((s.sessions[i]?.bind fun x => x.pc.sentence).filter fun q => !wellFormed q).toList.map
      fun q => (i, q)
  | _ => []

def prunedBy (s : TcpIngest) : IngestEvent → List Ref
  | .prune maxAge now => s.registry.prunedBy maxAge now
  | _ => []

def step (s : Ledger) (e : IngestEvent) : Option Ledger :=
  (s.server.step e).map fun server =>
    { server
      received := s.received ++ receivedBy e
      lines := s.lines ++ linesBy s.server e
      rejected := s.rejected ++ rejectedBy s.server e
      pruned := s.pruned ++ prunedBy s.server e }

/-- The number of bytes received. -/
def bytes (s : Ledger) : ℕ := (s.received.map fun c => c.2.length).sum

/-- **The counters are complete.**  Every open session has a registered node, so that `set_source_id` raises no
`KeyError`; every node there ever was is registered or was pruned; and over all of them `messages` counts the
calls of `on_sentence`, `invalid` the rejected lines and `bytes_rx` the bytes received. -/
structure Complete (s : Ledger) : Prop where
  registered : s.server.Registered
  noKeyError : ∀ x ∈ s.server.sessions, ∀ sid q, x.pc = .upgrade sid q →
    ∀ now, s.server.registry.setSourceId x.key sid now ≠ none
  kept : s.server.registry.Kept s.pruned
  messages : s.server.registry.total (·.messages) = s.server.handed.length
  invalid : s.server.registry.total (·.invalid) = s.rejected.length
  bytesRx : s.server.registry.total (·.bytesRx) = s.bytes

/-- No step of the run takes its node away from an open session. -/
def KeepsKeys (s : Ledger) (e : IngestEvent) : Prop := s.server.KeepsKeys e

instance (s : Ledger) (e : IngestEvent) : Decidable (KeepsKeys s e) :=
  inferInstanceAs (Decidable (s.server.KeepsKeys e))

variable {s t : Ledger} {e : IngestEvent}

theorem step_eq_some (h : s.step e = some t) : ∃ server, s.server.step e = some server ∧ t =
    { server
      received := s.received ++ receivedBy e
      lines := s.lines ++ linesBy s.server e
      rejected := s.rejected ++ rejectedBy s.server e
      pruned := s.pruned ++ prunedBy s.server e } := by
  obtain ⟨server, hstep, rfl⟩ := Option.map_eq_some_iff.1 h
  exact ⟨server, hstep, rfl⟩

theorem rejectedBy_judge {server : TcpIngest} {i : ℕ} {x : Session} {sentence : Str} {now : Time}
    (hx : server.sessions[i]? = some x) (hpc : x.pc = .judge sentence) :
    rejectedBy server (.judge i now) = if wellFormed sentence then [] else [(i, sentence)] := by
  rcases hw : wellFormed sentence with _ | _ <;>
    simp [rejectedBy, hx, hpc, Pc.sentence, Option.filter_some, hw]

theorem complete_start : Complete {} where
  registered := by simp [TcpIngest.Registered]
  noKeyError := by simp
  kept := by simp [NodeRegistry.Kept, Table.empty]
  messages := rfl
  invalid := rfl
  bytesRx := rfl

/-- A step that moves no counter. -/
theorem Complete.quiet (hs : Complete s) {server : TcpIngest} {pruned : List Ref}
    {lines : List (ℕ × List UInt8)} (hreg : server.Registered) (hkept : server.registry.Kept pruned)
    (htotal : ∀ n, NodeRegistry.IsCounter n → server.registry.total n = s.server.registry.total n)
    (hhanded : server.handed = s.server.handed) :
    Complete { s with server, lines, pruned } where
  registered := hreg
  noKeyError _ hx _ _ hpc := hreg.setSourceId_ne_none hx hpc
  kept := hkept
  messages := by
    rw [htotal _ NodeRegistry.isCounter_messages, hs.messages, hhanded]
  invalid := (htotal _ NodeRegistry.isCounter_invalid).trans hs.invalid
  bytesRx := (htotal _ NodeRegistry.isCounter_bytesRx).trans hs.bytesRx

theorem Complete.step (hs : Complete s) (hc : KeepsKeys s e) (h : s.step e = some t) : Complete t := by
  obtain ⟨server, hstep, rfl⟩ := step_eq_some h
  have hreg : server.Registered := hs.registered.step hc hstep
  cases e with
  | start peer host now =>
    obtain rfl := Option.some.inj hstep
    simpa [receivedBy, rejectedBy, prunedBy] using hs.quiet hreg hs.kept.onSessionStart
      (fun _ hn => NodeRegistry.total_onSessionStart hn) rfl
  | hangup i =>
    obtain ⟨x, -, -, rfl⟩ := TcpIngest.step_hangup hstep
    simpa [receivedBy, rejectedBy, prunedBy] using hs.quiet hreg hs.kept (fun _ _ => rfl) rfl
  | line i =>
    obtain ⟨x, -, -, rfl⟩ := TcpIngest.step_line hstep
    simpa [receivedBy, rejectedBy, prunedBy] using hs.quiet hreg hs.kept (fun _ _ => rfl) rfl
  | upgrade i now =>
    obtain ⟨x, sid, sentence, -, -, ⟨-, rfl⟩ | ⟨r, g, hset, rfl⟩⟩ := TcpIngest.step_upgrade hstep
    · simpa [receivedBy, rejectedBy, prunedBy] using hs.quiet hreg hs.kept (fun _ _ => rfl) rfl
    · simpa [receivedBy, rejectedBy, prunedBy] using hs.quiet hreg (hs.kept.setSourceId hset)
        (fun _ hn => NodeRegistry.total_setSourceId hn hset) rfl
  | finish i =>
    obtain ⟨x, -, -, rfl⟩ := TcpIngest.step_finish hstep
    simpa [receivedBy, rejectedBy, prunedBy] using hs.quiet hreg (hs.kept.update _)
      (fun _ hn => NodeRegistry.total_onSessionEnd hn) rfl
  | prune maxAge now =>
    obtain rfl := Option.some.inj hstep
    have htotal : ∀ n, (s.server.registry.pruneInactive maxAge now).2.total n = s.server.registry.total n := by
      intro n
      unfold Table.total
      rw [(NodeRegistry.pruneInactive_frame (k := [])).1]
    simpa [receivedBy, rejectedBy, prunedBy] using hs.quiet hreg hs.kept.pruneInactive
      (fun n _ => htotal n) rfl
  | recv i data now =>
    obtain ⟨x, hx, hpc, -, rfl⟩ := TcpIngest.step_recv hstep
    have hk : s.server.registry.get x.key ≠ none :=
      hs.registered x (List.mem_of_getElem? hx) (TcpIngest.isOpen_of_pc hpc Pc.noConfusion)
    refine ⟨hreg, fun _ hx _ _ hpc => hreg.setSourceId_ne_none hx hpc, ?_, ?_, ?_, ?_⟩
    · show NodeRegistry.Kept _ (s.pruned ++ [])
      rw [List.append_nil]
      exact hs.kept.update _
    · exact (NodeRegistry.total_touch (m := 0) (fun _ => rfl) hk).trans hs.messages
    · simpa [rejectedBy] using (NodeRegistry.total_touch (m := 0) (fun _ => rfl) hk).trans hs.invalid
    · refine (NodeRegistry.total_touch (m := data.length) (fun _ => rfl) hk).trans ?_
      rw [hs.bytesRx]
      simp [bytes, receivedBy]
  | judge i now =>
    obtain ⟨x, sentence, hx, hpc, rfl⟩ := TcpIngest.step_judge hstep
    have hk : s.server.registry.get x.key ≠ none :=
      hs.registered x (List.mem_of_getElem? hx) (TcpIngest.isOpen_of_pc hpc Pc.noConfusion)
    refine ⟨hreg, fun _ hx _ _ hpc => hreg.setSourceId_ne_none hx hpc, ?_, ?_, ?_, ?_⟩
    · show NodeRegistry.Kept _ (s.pruned ++ [])
      rw [List.append_nil]
      exact hs.kept.update _
    · rcases hw : wellFormed sentence with _ | _
      · exact (NodeRegistry.total_touch (m := 0) (fun _ => rfl) hk).trans hs.messages
      · refine (NodeRegistry.total_touch (m := 1) (fun _ => rfl) hk).trans ?_
        simp [hs.messages]
    · rw [rejectedBy_judge hx hpc]
      rcases hw : wellFormed sentence with _ | _
      · refine (NodeRegistry.total_touch (m := 1) (fun _ => rfl) hk).trans ?_
        simp [hs.invalid]
      · refine (NodeRegistry.total_touch (m := 0) (fun _ => rfl) hk).trans ?_
        simp [hs.invalid]
    · simpa [bytes, receivedBy] using (NodeRegistry.total_touch (m := 0) (fun _ => rfl) hk).trans hs.bytesRx

end Ledger

/-- **No sentence is lost from the counters.**  In every state that a run passes the counters are complete,
exactly when every upgrade of the run is to a registered source id or by the only open session of its key, and
no sweep finds the node of an open session without active sessions and silent for longer than `max_age`. -/
theorem counters_complete {es : List IngestEvent} {s : Ledger} (h : run Ledger.step {} es = some s) :
    Guarded Ledger.step Ledger.KeepsKeys {} es ↔
      ∀ fs, fs <+: es → ∀ t, run Ledger.step {} fs = some t → t.Complete := by
  refine guarded_iff (I := Ledger.Complete) (fun s e t hs hc hst => hs.step hc hst) (fun s hs => hs) ?_
    Ledger.complete_start h
  intro s e t hs hc hst ht
  obtain ⟨server, hstep, rfl⟩ := Ledger.step_eq_some hst
  exact TcpIngest.not_registered_of_not_keepsKeys hs.registered hc hstep ht.registered

/-- A session, and a sweep after it. -/
def sessionAndSweep : List IngestEvent := session 0 ['p'] 1 ++ [.prune 10 100]

theorem counters_complete_sweep :
    ∃ s, run Ledger.step {} sessionAndSweep = some s ∧ s.pruned = [0] ∧ s.Complete := by
  have hrun : (run Ledger.step {} sessionAndSweep).map (·.pruned) = some [0] := by decide +kernel
  obtain ⟨s, hs, hpruned⟩ := Option.map_eq_some_iff.1 hrun
  exact ⟨s, hs, hpruned, (counters_complete hs).1 (by decide +kernel) _ List.prefix_rfl s hs⟩

/-- Two sessions of host `H`: the first takes the node with it to the source id `S`, and then the second hands
a sentence on. -/
def twoSessions : List IngestEvent :=
  [.start ['p'] ['H'] 1, .start ['q'] ['H'] 1, .recv 0 (encodeAscii "\\s:S\\x\n".toList) 2, .line 0,
    .upgrade 0 2, .judge 0 2,
    .recv 1 (encodeAscii "!AIVDM,1,1,,A,13aEOK?P00PD2wVMdLDRhgvL289?,0*26\n".toList) 3, .line 1,
    .judge 1 3]

/-- The sentence and the bytes of the second session are counted nowhere. -/
theorem counters_complete_fails :
    ∃ s, run Ledger.step {} twoSessions = some s ∧ s.server.handed.length = 1 ∧
      s.server.registry.total (·.messages) = 0 ∧ ¬ s.Complete := by
  have hrun : (run Ledger.step {} twoSessions).map
      (fun s => (s.server.handed.length, s.server.registry.total (·.messages))) = some (1, 0) := by
    decide +kernel
  obtain ⟨s, hs, hfacts⟩ := Option.map_eq_some_iff.1 hrun
  obtain ⟨hhanded, htotal⟩ := Prod.mk.inj hfacts
  refine ⟨s, hs, hhanded, htotal, fun hcomplete => ?_⟩
  have hmessages := hcomplete.messages
  omega

end AisServer.Ingest
