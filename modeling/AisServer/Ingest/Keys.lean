import AisServer.Ingest.Sessions

/-!
# The keys of the nodes

A node is registered under the host of a session or under a source id that was read from a line.  `snapshot` tells of
each node its key, under the name `peer`, and `on_sentence` is given the key of the session.

* `mem_rows` — the rows of a snapshot;
* `keyed_of_run` — in any run each node has the key it is registered under, and all keys are hosts or source ids.
-/

namespace AisServer.Ingest

open AisServer.Lib

/-! ### What a snapshot tells -/

/-- A row of `snapshot`, as far as the live view reads it. -/
structure NodeRow where
  peer : Str
  sourceId : Option Str
  connected : Bool
  lastSeen : Time
  deriving DecidableEq

def NodeInfo.row (n : NodeInfo) : NodeRow where
  peer := n.key
  sourceId := n.sourceId
  connected := n.connected
  lastSeen := n.lastSeen

/-- `key=lambda x: (not x["connected"], -x["last_seen"])` -/
def NodeRow.Before (a b : NodeRow) : Prop :=
  a.connected = true ∧ b.connected = false ∨ a.connected = b.connected ∧ b.lastSeen ≤ a.lastSeen

instance (a b : NodeRow) : Decidable (a.Before b) :=
  inferInstanceAs (Decidable (a.connected = true ∧ b.connected = false ∨
    a.connected = b.connected ∧ b.lastSeen ≤ a.lastSeen))

namespace NodeRegistry

variable {K : Str → Prop} {g g' : NodeRegistry} {row : NodeRow} {key peer host sid : Str} {now : Time}

def rows (g : NodeRegistry) : List NodeRow := g.refs.keys.filterMap fun k => (g.get k).map NodeInfo.row

/-- `snapshot`: the rows of the nodes, sorted.  Nodes that compare as equal stand in the order in which they were
registered, which is left open here. -/
def IsSnapshot (g : NodeRegistry) (rows : List NodeRow) : Prop := rows.Perm g.rows ∧ rows.Pairwise NodeRow.Before

instance (rows : List NodeRow) : Decidable (g.IsSnapshot rows) :=
  inferInstanceAs (Decidable (rows.Perm g.rows ∧ rows.Pairwise NodeRow.Before))

theorem mem_rows : row ∈ g.rows ↔ ∃ k n, g.get k = some n ∧ n.row = row := by
  rw [rows, List.mem_filterMap]
  constructor
  · rintro ⟨k, -, h⟩
    obtain ⟨n, hn, rfl⟩ := Option.map_eq_some_iff.1 h
    exact ⟨k, n, hn, rfl⟩
  · rintro ⟨k, n, hn, rfl⟩
    refine ⟨k, ?_, by rw [hn, Option.map_some]⟩
    by_contra hk
    rw [Table.get_eq_none.2 (AList.lookup_eq_none.2 hk)] at hn
    cases hn

/-! ### Nodes under their keys -/

/-- Each node has the key that it is registered under, and the keys are in `K`. -/
def Keyed (K : Str → Prop) (g : NodeRegistry) : Prop := ∀ k n, g.get k = some n → n.key = k ∧ K k

theorem Keyed.onSessionStart (hg : g.Keyed K) (hhost : K host) :
    (g.onSessionStart peer host none now).2.Keyed K := by
  intro k n h
  rw [onSessionStart_get] at h
  split at h
  · rename_i hk
    obtain rfl : k = host := hk
    obtain rfl := Option.some.inj h
    refine ⟨?_, hhost⟩
    show ((g.get k).getD (newNode k k none now)).key = k
    rcases hold : g.get k with _ | old
    · rfl
    · exact (hg k old hold).1
  · exact hg k n h

theorem Keyed.update (hg : g.Keyed K) {f : NodeInfo → NodeInfo} (hf : ∀ n, (f n).key = n.key) :
    Keyed K (g.update key f) := by
  intro k n h
  rw [Table.get_update] at h
  split at h
  · rename_i hk
    subst hk
    obtain ⟨old, hold, rfl⟩ := Option.map_eq_some_iff.1 h
    exact ⟨(hf old).trans (hg k old hold).1, (hg k old hold).2⟩
  · exact hg k n h

theorem Keyed.setSourceId {oldKey : Str} {r : Ref} (hg : g.Keyed K) (hsid : K sid)
    (h : g.setSourceId oldKey sid now = some (r, g')) : g'.Keyed K := by
  rcases setSourceId_cases h with ⟨-, rfl⟩ | ⟨-, -, -, hget⟩ | ⟨-, -, -, hget⟩
  · exact hg
  · intro k n hn
    rw [hget] at hn
    split at hn
    · rename_i hk
      subst hk
      obtain ⟨old, -, rfl⟩ := Option.map_eq_some_iff.1 hn
      exact ⟨rfl, hsid⟩
    · split at hn
      · cases hn
      · exact hg k n hn
  · intro k n hn
    rw [hget] at hn
    split at hn
    · rename_i hk
      subst hk
      obtain rfl := Option.some.inj hn
      exact ⟨rfl, hsid⟩
    · exact hg k n hn

theorem Keyed.pruneInactive {maxAge : Time} (hg : g.Keyed K) : (g.pruneInactive maxAge now).2.Keyed K := by
  intro k n h
  rw [pruneInactive_get] at h
  split at h
  · exact hg k n h
  · exact hg k n (Option.filter_eq_some_iff.1 h).1

end NodeRegistry

/-! ### Where the keys come from -/

/-- A key that the server can register, when `H` are the hosts of its sessions: one of them, or the source id of a
line. -/
def IsKey (H : Str → Prop) (k : Str) : Prop := H k ∨ ∃ raw sentence, readLine raw = some (sentence, some k)

/-- The source id that a thread is about to set. -/
def Pc.pending : Pc → Option Str
  | .upgrade sourceId _ => some sourceId
  | .recv | .lines | .judge _ | .closing | .closed => none

/-- The key of a session, and the one that it is about to take. -/
def Session.Keyed (H : Str → Prop) (x : Session) : Prop := IsKey H x.key ∧ ∀ id ∈ x.pc.pending, IsKey H id

theorem keyed_of_key {H : Str → Prop} {x : Session} {buf : List UInt8} {pc : Pc} (hkey : IsKey H x.key)
    (hpc : pc.pending = none) : Session.Keyed H { x with buf, pc } := by
  refine ⟨hkey, fun id hid => ?_⟩
  rw [hpc] at hid
  cases hid

/-- The hosts of new sessions are in `H`. -/
def IngestEvent.From (H : Str → Prop) : IngestEvent → Prop
  | .start _ host _ => H host
  | _ => True

namespace TcpIngest

variable {H : Str → Prop} {s t : TcpIngest} {i : ℕ} {x : Session}

structure Keyed (H : Str → Prop) (s : TcpIngest) : Prop where
  session : ∀ x ∈ s.sessions, x.Keyed H
  registry : s.registry.Keyed (IsKey H)
  handed : ∀ p ∈ s.handed, IsKey H p.2.1

theorem keyed_start : Keyed H {} where
  session := by simp
  registry k n h := by simp at h
  handed := by simp

theorem Keyed.key (hs : Keyed H s) (hx : s.sessions[i]? = some x) : IsKey H x.key :=
  (hs.session x (List.mem_of_getElem? hx)).1

theorem Keyed.set (hs : Keyed H s) {x' : Session} (hx' : x'.Keyed H) {g : NodeRegistry} (hg : g.Keyed (IsKey H)) :
    Keyed H { s with registry := g, sessions := s.sessions.set i x' } := by
  refine ⟨fun x hx => ?_, hg, hs.handed⟩
  rcases List.mem_or_eq_of_mem_set hx with hx | rfl
  · exact hs.session x hx
  · exact hx'

/-- What a thread is about to set was read from a line. -/
theorem takeLine_keyed (hx : x.Keyed H) : (s.takeLine x).Keyed H := by
  unfold takeLine
  split
  · exact keyed_of_key hx.1 rfl
  · rename_i raw rest hsplit
    split
    · exact hx
    · rename_i sentence sid hread
      refine ⟨hx.1, fun id hid => Or.inr ⟨raw, sentence, ?_⟩⟩
      unfold afterRead at hid
      split at hid
      · cases hid
      · split at hid
        · cases hid
        · obtain rfl := Option.some.inj hid
          exact hread

theorem Keyed.step {e : IngestEvent} (hs : Keyed H s) (he : e.From H) (h : s.step e = some t) : Keyed H t := by
  cases e with
  | start peer host now =>
    obtain rfl := Option.some.inj h
    refine ⟨fun x hx => ?_, hs.registry.onSessionStart (Or.inl he), hs.handed⟩
    rcases List.mem_append.1 hx with hx | hx
    · exact hs.session x hx
    · obtain rfl := List.mem_singleton.1 hx
      exact ⟨Or.inl he, by simp [Pc.pending]⟩
  | recv i data now =>
    obtain ⟨x, hx, -, -, rfl⟩ := step_recv h
    exact hs.set (keyed_of_key (hs.key hx) rfl) (hs.registry.update fun _ => rfl)
  | hangup i =>
    obtain ⟨x, hx, -, rfl⟩ := step_hangup h
    exact hs.set (keyed_of_key (hs.key hx) rfl) hs.registry
  | line i =>
    obtain ⟨x, hx, -, rfl⟩ := step_line h
    exact hs.set (takeLine_keyed (hs.session x (List.mem_of_getElem? hx))) hs.registry
  | upgrade i now =>
    obtain ⟨x, sid, sentence, hx, hpc, ⟨-, rfl⟩ | ⟨r, registry, hset, rfl⟩⟩ := step_upgrade h
    · exact hs.set (keyed_of_key (hs.key hx) rfl) hs.registry
    · have hsid : IsKey H sid := (hs.session x (List.mem_of_getElem? hx)).2 sid (by rw [hpc]; rfl)
      exact hs.set (@keyed_of_key H { x with key := sid } _ _ hsid rfl) (hs.registry.setSourceId hsid hset)
  | judge i now =>
    obtain ⟨x, sentence, hx, hpc, rfl⟩ := step_judge h
    have hkey : IsKey H x.key := hs.key hx
    have hset := @Keyed.set H s i hs { x with pc := .lines } (keyed_of_key hkey rfl)
      (s.registry.touch x.key 0 (wellFormed sentence) (!wellFormed sentence) now) (hs.registry.update fun _ => rfl)
    refine ⟨hset.session, hset.registry, fun p hp => ?_⟩
    by_cases hw : wellFormed sentence = true
    · simp only [if_pos hw] at hp
      rcases List.mem_append.1 hp with hp | hp
      · exact hs.handed p hp
      · obtain rfl := List.mem_singleton.1 hp
        exact hkey
    · simp only [if_neg hw] at hp
      exact hs.handed p hp
  | finish i =>
    obtain ⟨x, hx, -, rfl⟩ := step_finish h
    refine hs.set (keyed_of_key (hs.key hx) rfl) (hs.registry.update fun n => ?_)
    unfold NodeRegistry.endSession
    split <;> rfl
  | prune maxAge now =>
    obtain rfl := Option.some.inj h
    exact ⟨hs.session, hs.registry.pruneInactive, hs.handed⟩

/-- **The keys of a run** whose sessions come from the hosts `H`. -/
theorem keyed_of_run {es : List IngestEvent} (hH : ∀ e ∈ es, e.From H) (h : run TcpIngest.step {} es = some s) :
    Keyed H s :=
  run_inv (fun _ _ _ hs he h => hs.step he h) keyed_start (guarded_of_forall_mem fun e he _ => hH e he) h

end TcpIngest

end AisServer.Ingest
