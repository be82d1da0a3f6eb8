import AisServer.Ingest.Sessions
import AisServer.Lib.Run

/-!
# Session accounting

`Counted` says that the registry and the session threads agree: the `active_sessions` of every key is the
number of open sessions that have the key, none for a key without a node.  Every step keeps it but one:
`set_source_id` moves one session to another key and leaves the count of a node that it shares behind.

* `Counted.step` — what every step keeps, when an upgrade moves a node that it has for itself;
* `not_accounted_of_upgrade` — any other upgrade breaks the count at once;
* `connected_iff_of_run` — with upgrades of the first kind a node is shown as connected exactly while it has an open
  session;
* `sessions_accounted` — a run is accounted throughout exactly when its upgrades are of the first kind.
-/

namespace AisServer.Ingest

open AisServer.Lib

/-! ### The count of the registry -/

namespace NodeRegistry

variable {g g' : NodeRegistry} {k key peer host oldKey sid : Str} {now maxAge : Time} {r : Ref}

/-- `active_sessions` under a key, zero without a node. -/
def active (g : NodeRegistry) (k : Str) : ℕ := ((g.get k).map (·.activeSessions)).getD 0

theorem active_touch {nbytes : ℕ} {msg invalid : Bool} :
    (g.touch key nbytes msg invalid now).active k = g.active k := by
  unfold active
  rw [touch_get]
  by_cases hk : k = key
  · subst hk
    rcases g.get k with _ | n <;> simp [touchNode]
  · rw [if_neg hk]

theorem active_onSessionStart : (g.onSessionStart peer host none now).2.active k =
    g.active k + if k = host then 1 else 0 := by
  unfold active
  rw [onSessionStart_get]
  by_cases hk : k = host
  · subst hk
    rcases hg : g.get k with _ | n <;> simp [sessionKey, startSession, newNode, hg]
  · rw [if_neg (show ¬ k = sessionKey none host from hk), if_neg hk, Nat.add_zero]

theorem active_onSessionEnd : (g.onSessionEnd key).active k =
    g.active k - if k = key then 1 else 0 := by
  unfold active
  rw [onSessionEnd_get]
  by_cases hk : k = key
  · subst hk
    rcases g.get k with _ | n
    · simp
    · by_cases hn : 0 < n.activeSessions
      · simp [endSession, hn]
      · have : n.activeSessions = 0 := by omega
        simp [endSession, this]
  · rw [if_neg hk, if_neg hk, Nat.sub_zero]

theorem active_pruneInactive : (g.pruneInactive maxAge now).2.active k = g.active k := by
  unfold active
  rw [pruneInactive_get]
  by_cases hm : maxAge ≤ 0
  · rw [if_pos hm]
  · rw [if_neg hm]
    rcases g.get k with _ | n
    · rfl
    · by_cases hst : stale maxAge now n = true
      · have hzero : n.activeSessions = 0 := by
          simp only [stale, decide_eq_true_eq] at hst
          exact hst.1
        simp [Option.filter, hst, hzero]
      · simp [Option.filter, hst]

/-- The count follows the node to its new key. -/
theorem active_setSourceId (h : g.setSourceId oldKey sid now = some (r, g')) (ho : g.get oldKey ≠ none) :
    (g.get sid ≠ none ∧ g' = g) ∨
    (g.get sid = none ∧ oldKey ≠ sid ∧ g'.get sid ≠ none ∧ ∀ k, g'.active k =
      if k = sid then g.active oldKey else if k = oldKey then 0 else g.active k) := by
  rcases setSourceId_cases h with hsame | ⟨hnone, -, hne, hget⟩ | ⟨-, hnone, -, -⟩
  · exact Or.inl hsame
  · refine Or.inr ⟨hnone, hne, ?_, fun k => ?_⟩
    · rw [hget, if_pos rfl]
      simpa using ho
    · unfold active
      rw [hget]
      by_cases hk : k = sid
      · rw [if_pos hk, if_pos hk]
        rcases g.get oldKey with _ | n <;> rfl
      · rw [if_neg hk, if_neg hk]
        by_cases hk' : k = oldKey
        · rw [if_pos hk', if_pos hk']
          rfl
        · rw [if_neg hk', if_neg hk']
  · exact absurd hnone ho

end NodeRegistry

namespace TcpIngest

variable {s t : TcpIngest} {e : IngestEvent} {i : ℕ} {x x' : Session} {k : Str}

/-! ### The count of the threads -/

/-- Whether a session is open under a key. -/
def holds (k : Str) (x : Session) : Bool := x.isOpen && x.key = k

/-- The number of open sessions with a key. -/
def openSessions (s : TcpIngest) (k : Str) : ℕ := s.sessions.countP (holds k)

theorem holds_iff : holds k x = true ↔ x.isOpen = true ∧ x.key = k := by
  unfold holds
  rw [Bool.and_eq_true, decide_eq_true_eq]

theorem openSessions_pos (hx : s.sessions[i]? = some x) (ho : x.isOpen = true) :
    0 < s.openSessions x.key := by
  unfold openSessions
  rw [List.countP_pos_iff]
  exact ⟨x, List.mem_of_getElem? hx, holds_iff.2 ⟨ho, rfl⟩⟩

theorem openSessions_set (hx : s.sessions[i]? = some x) (g : NodeRegistry) (x' : Session)
    (handed : List (Str × Str × Time)) (k : Str) :
    (TcpIngest.mk g (s.sessions.set i x') handed).openSessions k +
        (if holds k x = true then 1 else 0) =
      s.openSessions k + if holds k x' = true then 1 else 0 := by
  obtain ⟨hi, rfl⟩ := List.getElem?_eq_some_iff.1 hx
  unfold openSessions
  rw [List.countP_set hi]
  by_cases hc : holds k s.sessions[i] = true
  · have hpos : 0 < s.sessions.countP (holds k) :=
      List.countP_pos_iff.2 ⟨_, List.getElem_mem hi, hc⟩
    rw [if_pos hc]
    omega
  · rw [if_neg hc]
    omega

theorem isOpen_iff : x.isOpen = true ↔ x.pc ≠ .closed := by
  unfold Session.isOpen
  rw [decide_eq_true_eq]

theorem openSessions_move (hx : s.sessions[i]? = some x) (g : NodeRegistry)
    (handed : List (Str × Str × Time)) (ho : x.pc ≠ .closed) (ho' : x'.pc ≠ .closed)
    (hk : x'.key = x.key) (k : Str) :
    (TcpIngest.mk g (s.sessions.set i x') handed).openSessions k = s.openSessions k := by
  have hsame : holds k x' = holds k x := by
    unfold holds
    rw [isOpen_iff.2 ho, isOpen_iff.2 ho', hk]
  have := openSessions_set hx g x' handed k
  rw [hsame] at this
  omega

theorem openSessions_rekey (hx : s.sessions[i]? = some x) (g : NodeRegistry)
    (handed : List (Str × Str × Time)) (ho : x.pc ≠ .closed) (ho' : x'.pc ≠ .closed)
    (hne : x.key ≠ x'.key) (k : Str) :
    (TcpIngest.mk g (s.sessions.set i x') handed).openSessions k =
      if k = x'.key then s.openSessions k + 1
      else if k = x.key then s.openSessions k - 1 else s.openSessions k := by
  have hcount := openSessions_set hx g x' handed k
  have hold : holds k x = true ↔ k = x.key := by
    rw [holds_iff, isOpen_iff]
    exact ⟨fun h => h.2.symm, fun h => ⟨ho, h.symm⟩⟩
  have hnew : holds k x' = true ↔ k = x'.key := by
    rw [holds_iff, isOpen_iff]
    exact ⟨fun h => h.2.symm, fun h => ⟨ho', h.symm⟩⟩
  simp only [hold, hnew] at hcount
  by_cases hk' : k = x'.key
  · have hk : ¬ k = x.key := fun h => hne (h.symm.trans hk')
    rw [if_pos hk', if_neg hk] at hcount
    rw [if_pos hk']
    omega
  · rw [if_neg hk'] at hcount ⊢
    by_cases hk : k = x.key
    · rw [if_pos hk] at hcount ⊢
      omega
    · rw [if_neg hk] at hcount ⊢
      omega

theorem openSessions_close (hx : s.sessions[i]? = some x) (g : NodeRegistry)
    (handed : List (Str × Str × Time)) (ho : x.pc ≠ .closed) (ho' : x'.pc = .closed) (k : Str) :
    (TcpIngest.mk g (s.sessions.set i x') handed).openSessions k =
      s.openSessions k - if k = x.key then 1 else 0 := by
  have hcount := openSessions_set hx g x' handed k
  have hold : holds k x = true ↔ k = x.key := by
    rw [holds_iff, isOpen_iff]
    exact ⟨fun h => h.2.symm, fun h => ⟨ho, h.symm⟩⟩
  have hnew : ¬ holds k x' = true := by
    rw [holds_iff, isOpen_iff]
    exact fun h => h.1 ho'
  rw [if_neg hnew] at hcount
  simp only [hold] at hcount
  omega

/-! ### What the steps keep -/

/-- The registry counts the open sessions of every key. -/
def Counted (s : TcpIngest) : Prop := ∀ k, s.registry.active k = s.openSessions k

/-- **Session accounting**: every registered node has as many active sessions as there are open sessions
with its key. -/
def Accounted (s : TcpIngest) : Prop :=
  ∀ k n, s.registry.get k = some n → n.activeSessions = s.openSessions k

theorem Counted.accounted (hs : Counted s) : Accounted s := by
  intro k n hn
  have := hs k
  simpa [NodeRegistry.active, hn] using this

theorem counted_init : Counted {} := by
  intro k
  simp [NodeRegistry.active, openSessions]

theorem Accounted.connected_iff {n : NodeInfo} (hs : Accounted s) (hn : s.registry.get k = some n) :
    n.connected = true ↔ ∃ x ∈ s.sessions, x.isOpen = true ∧ x.key = k := by
  unfold NodeInfo.connected
  rw [decide_eq_true_eq, hs k n hn, openSessions, List.countP_pos_iff]
  simp only [holds_iff]

theorem Counted.registered (hs : Counted s) (hx : s.sessions[i]? = some x) (ho : x.isOpen = true) :
    s.registry.get x.key ≠ none := by
  intro hnone
  have hpos := openSessions_pos hx ho
  have := hs x.key
  simp only [NodeRegistry.active, hnone, Option.map_none, Option.getD_none] at this
  omega

/-- An upgrade to a source id that is the key already, or to an unregistered one of a session that has
its key for itself. -/
def Alone (s : TcpIngest) (x : Session) : Prop :=
  match x.pc with
  | .upgrade sid _ => x.key = sid ∨ s.registry.get sid = none ∧ s.openSessions x.key = 1
  | _ => True

instance (s : TcpIngest) (x : Session) : Decidable (Alone s x) := by
  unfold Alone
  split <;> infer_instance

/-- No upgrade merges a node into another or takes it from another session. -/
def UpgradesAlone (s : TcpIngest) : IngestEvent → Prop
  | .upgrade i _ => ∀ x ∈ s.sessions[i]?, Alone s x
  | _ => True

instance (s : TcpIngest) : ∀ e, Decidable (UpgradesAlone s e)
  | .upgrade i _ => inferInstanceAs (Decidable (∀ x ∈ s.sessions[i]?, Alone s x))
  | .start .. | .recv .. | .hangup _ | .line _ | .judge .. | .finish _ | .prune .. =>
    inferInstanceAs (Decidable True)

theorem Counted.upgrade {sid sentence : Str} {now : Time} {r : Ref} {g : NodeRegistry} (hs : Counted s)
    (hx : s.sessions[i]? = some x) (hpc : x.pc = .upgrade sid sentence) (hc : Alone s x)
    (hset : s.registry.setSourceId x.key sid now = some (r, g)) :
    Counted { s with
      registry := g, sessions := s.sessions.set i { x with key := sid, pc := .judge sentence } } := by
  intro k
  have hk := hs k
  have ho : x.pc ≠ .closed := by simp [hpc]
  have hreg := hs.registered hx (isOpen_iff.2 ho)
  have halone : x.key = sid ∨ s.registry.get sid = none ∧ s.openSessions x.key = 1 := by
    simpa [Alone, hpc] using hc
  show g.active k = _
  rcases NodeRegistry.active_setSourceId hset hreg with ⟨hsid, rfl⟩ | ⟨hnone, hne, -, hactive⟩
  · -- a node that has the source id already: only a session that has it too may stay
    obtain rfl : x.key = sid := halone.resolve_right fun h => hsid h.1
    exact hk.trans (openSessions_move hx _ _ ho (by simp) (by rfl) k).symm
  · have hone : s.openSessions x.key = 1 := (halone.resolve_left hne).2
    rw [hactive, openSessions_rekey hx g s.handed ho (by simp) hne, hs, hk, hone]
    show (if k = sid then 1 else if k = x.key then 0 else s.openSessions k) =
      if k = sid then s.openSessions k + 1
      else if k = x.key then s.openSessions k - 1 else s.openSessions k
    by_cases hksid : k = sid
    · have hzero : s.openSessions k = 0 := by
        rw [← hk, NodeRegistry.active, hksid, hnone]
        rfl
      rw [if_pos hksid, if_pos hksid, hzero]
    · rw [if_neg hksid, if_neg hksid]
      by_cases hkey : k = x.key
      · rw [if_pos hkey, if_pos hkey, hkey, hone]
      · rw [if_neg hkey, if_neg hkey]

theorem Counted.step (hs : Counted s) (hc : UpgradesAlone s e) (h : s.step e = some t) :
    Counted t := by
  intro k
  have hk := hs k
  cases e with
  | start peer host now =>
    obtain rfl := Option.some.inj h
    show (s.registry.onSessionStart peer host none now).2.active k = _
    rw [NodeRegistry.active_onSessionStart, hk]
    by_cases hh : k = host
    · subst hh
      simp [openSessions, holds, Session.isOpen]
    · simp [openSessions, holds, hh, Ne.symm hh]
  | recv i data now =>
    obtain ⟨x, hx, hpc, -, rfl⟩ := step_recv h
    show (s.registry.touch x.key data.length false false now).active k = _
    rw [NodeRegistry.active_touch, hk]
    exact (openSessions_move hx _ _ (by simp [hpc]) (by simp) (by rfl) k).symm
  | hangup i =>
    obtain ⟨x, hx, hpc, rfl⟩ := step_hangup h
    exact hk.trans (openSessions_move hx _ _ (by simp [hpc]) (by simp) (by rfl) k).symm
  | line i =>
    obtain ⟨x, hx, hpc, rfl⟩ := step_line h
    exact hk.trans (openSessions_move hx _ _ (by simp [hpc]) (takeLine_pc hpc) (takeLine_key s x) k).symm
  | upgrade i now =>
    obtain ⟨x, sid, sentence, hx, hpc, ⟨hset, rfl⟩ | ⟨r, g, hset, rfl⟩⟩ := step_upgrade h
    · exact hk.trans (openSessions_move hx _ _ (by simp [hpc]) (by simp) (by rfl) k).symm
    · exact hs.upgrade hx hpc (hc x hx) hset k
  | judge i now =>
    obtain ⟨x, sentence, hx, hpc, rfl⟩ := step_judge h
    show (s.registry.touch x.key 0 _ _ now).active k = _
    rw [NodeRegistry.active_touch, hk]
    exact (openSessions_move hx _ _ (by simp [hpc]) (by simp) (by rfl) k).symm
  | finish i =>
    obtain ⟨x, hx, hpc, rfl⟩ := step_finish h
    show (s.registry.onSessionEnd x.key).active k = _
    rw [NodeRegistry.active_onSessionEnd, hk]
    refine (openSessions_close hx _ _ ?_ ?_ k).symm
    · simp [hpc]
    · rfl
  | prune maxAge now =>
    obtain rfl := Option.some.inj h
    show (s.registry.pruneInactive maxAge now).2.active k = _
    rw [NodeRegistry.active_pruneInactive, hk]
    rfl

/-- An upgrade of any other kind leaves the new key with a wrong count. -/
theorem not_accounted_of_upgrade {now : Time} (hs : Counted s)
    (hc : ¬ UpgradesAlone s (.upgrade i now)) (h : s.step (.upgrade i now) = some t) :
    ¬ Accounted t := by
  intro hacc
  obtain ⟨x, sid, sentence, hx, hpc, hstep⟩ := step_upgrade h
  have ho : x.pc ≠ .closed := by simp [hpc]
  have hreg := hs.registered hx (isOpen_iff.2 ho)
  have hnot : ¬ (x.key = sid ∨ s.registry.get sid = none ∧ s.openSessions x.key = 1) := by
    intro halone
    refine hc fun y hy => ?_
    rw [hx, Option.mem_some_iff] at hy
    subst hy
    simpa [Alone, hpc] using halone
  rcases hstep with ⟨hset, -⟩ | ⟨r, g, hset, rfl⟩
  · exact hreg (NodeRegistry.setSourceId_eq_none hset)
  · have hne : x.key ≠ sid := fun h => hnot (Or.inl h)
    have hopen := openSessions_rekey hx g s.handed ho
      (show Session.pc { x with key := sid, pc := .judge sentence } ≠ .closed by simp) hne sid
    rw [if_pos rfl] at hopen
    have hsid := hs sid
    rcases NodeRegistry.active_setSourceId hset hreg with ⟨hold, rfl⟩ | ⟨hnone, -, hnew, hactive⟩
    · -- the session joins a node that does not count it
      obtain ⟨n, hn⟩ := Option.ne_none_iff_exists'.1 hold
      have hcount := hacc sid n hn
      rw [hopen] at hcount
      rw [NodeRegistry.active, hn] at hsid
      simp only [Option.map_some, Option.getD_some] at hsid
      omega
    · -- the session takes along the count of the others
      obtain ⟨n, hn⟩ := Option.ne_none_iff_exists'.1 hnew
      have hcount := hacc sid n hn
      rw [hopen] at hcount
      have hmoved : n.activeSessions = s.openSessions x.key := by
        have := hactive sid
        rw [if_pos rfl, NodeRegistry.active, hn, hs] at this
        simpa using this
      have hzero : s.openSessions sid = 0 := by
        rw [← hsid, NodeRegistry.active, hnone]
        rfl
      exact hnot (Or.inr ⟨hnone, by omega⟩)

end TcpIngest

/-- A run with such upgrades only shows a node as connected exactly while a session with its key is
open. -/
theorem connected_iff_of_run {es : List IngestEvent} {s : TcpIngest} {k : Str} {n : NodeInfo}
    (h : run TcpIngest.step {} es = some s) (halone : Guarded TcpIngest.step TcpIngest.UpgradesAlone {} es)
    (hn : s.registry.get k = some n) : n.connected = true ↔ ∃ x ∈ s.sessions, x.isOpen = true ∧ x.key = k := by
  have hs : s.Counted := run_inv (fun s e t hs hc hst => hs.step hc hst) TcpIngest.counted_init halone h
  exact hs.accounted.connected_iff hn

/-- **Sessions are accounted.**  In every state that a run passes each registered node has as many active
sessions as there are open sessions with its key, exactly when every upgrade of the run is to the key the
session has, or to an unregistered source id by the only open session of its key. -/
theorem sessions_accounted {es : List IngestEvent} {s : TcpIngest}
    (h : run TcpIngest.step {} es = some s) :
    Guarded TcpIngest.step TcpIngest.UpgradesAlone {} es ↔
      ∀ fs, fs <+: es → ∀ t, run TcpIngest.step {} fs = some t → TcpIngest.Accounted t := by
  refine guarded_iff (I := TcpIngest.Counted) (fun s e t hs hc hst => hs.step hc hst)
    (fun s hs => hs.accounted) ?_ ?_ h
  · intro s e t hs hc hst
    cases e with
    | upgrade i now => exact TcpIngest.not_accounted_of_upgrade hs hc hst
    | start peer host now => exact absurd trivial hc
    | recv i data now => exact absurd trivial hc
    | hangup i => exact absurd trivial hc
    | line i => exact absurd trivial hc
    | judge i now => exact absurd trivial hc
    | finish i => exact absurd trivial hc
    | prune maxAge now => exact absurd trivial hc
  · exact TcpIngest.counted_init

/-- A session of host `H` that sends one line with the source id `S` and ends. -/
def session (i : ℕ) (peer : Str) (now : Time) : List IngestEvent :=
  [.start peer ['H'] now, .recv i (encodeAscii "\\s:S\\x\n".toList) now, .line i, .upgrade i now,
    .judge i now, .line i, .hangup i, .finish i]

theorem sessions_accounted_session :
    ∃ s, run TcpIngest.step {} (session 0 ['p'] 1) = some s ∧ TcpIngest.Accounted s := by
  have hrun : (run TcpIngest.step {} (session 0 ['p'] 1)).isSome = true := by decide +kernel
  obtain ⟨s, hs⟩ := Option.isSome_iff_exists.1 hrun
  exact ⟨s, hs, (sessions_accounted hs).1 (by decide +kernel) _ List.prefix_rfl s hs⟩

/-- After a second such session the node of `H` keeps an active session, though all have ended. -/
theorem sessions_accounted_fails :
    ∃ s, run TcpIngest.step {} (session 0 ['p'] 1 ++ session 1 ['q'] 2) = some s ∧
      (∀ x ∈ s.sessions, x.pc = .closed) ∧ ¬ TcpIngest.Accounted s := by
  have hrun : (run TcpIngest.step {} (session 0 ['p'] 1 ++ session 1 ['q'] 2)).map (fun s =>
      (s.sessions.map (·.pc), (s.registry.get ['H']).map (·.activeSessions), s.openSessions ['H'])) =
      some ([.closed, .closed], some 1, 0) := by decide +kernel
  obtain ⟨s, hs, hfacts⟩ := Option.map_eq_some_iff.1 hrun
  simp only [Prod.mk.injEq] at hfacts
  obtain ⟨hpcs, hnode, hopen⟩ := hfacts
  obtain ⟨n, hn, hactive⟩ := Option.map_eq_some_iff.1 hnode
  refine ⟨s, hs, fun x hx => ?_, fun hacc => ?_⟩
  · have hpc : x.pc ∈ s.sessions.map (·.pc) := List.mem_map_of_mem hx
    rw [hpcs] at hpc
    simpa using hpc
  · have hcount := hacc ['H'] n hn
    omega

end AisServer.Ingest
