import AisServer.Forward.Reconcile
import AisServer.Main.Shutdown
import AisServer.Web.Executed
import AisServer.Web.ForcedChange

/-!
# The workers and the rows

The users edit the endpoints over the web, and `_endpoint_sync_loop` brings the workers in line with the rows:
`list_endpoints` reads them, then `sync` stops and starts workers.  Between the two, and at any other time, requests
may change the rows again.

* `ForwarderManager.sync_eps` — a worker is started for a row that was read;
* `Following.step` — every step keeps the workers in line with the rows of the last `sync`;
* `workers_follow_rows` — so which workers run, and for which endpoints.
-/

namespace AisServer.Forward.ForwarderManager

open AisServer.Lib AisServer.Store

variable {m : ForwarderManager} {d : Table ℕ Thread} {existing raises : List ℕ} {w : Dict ℕ Endpoint} {eid : ℕ}
  {endpoints : List Endpoint} {ep : Endpoint} {t : Thread}

/-! ### The endpoints of the workers -/

theorem stop_ep (t : Thread) : t.stop.worker.ep = t.worker.ep := by
  show ((Worker.putNowait { t.worker with stopped := true } .wake).getD _).ep = _
  unfold Worker.putNowait
  split <;> rfl

/-- The endpoint of every worker that there ever was. -/
def eps (d : Table ℕ Thread) : List Endpoint := d.objs.map (·.worker.ep)

theorem eps_modify {r : Ref} {f : Thread → Thread} (hf : ∀ t, (f t).worker.ep = t.worker.ep) :
    eps (d.modify r f) = eps d := by
  refine List.ext_getElem? fun i => ?_
  simp only [eps, Table.modify, List.getElem?_map, List.getElem?_modify]
  cases d.objs[i]? with
  | none => rfl
  | some t =>
    split
    · exact congrArg some (hf t)
    · rfl

theorem eps_stopLoop : eps (stopLoop w raises d existing).1 = eps d := by
  have hupdate : ∀ (d : Table ℕ Thread) k, eps (d.update k Thread.stop) = eps d := by
    intro d k
    unfold Table.update
    split
    · rfl
    · exact eps_modify stop_ep
  induction existing generalizing d with
  | nil => rfl
  | cons k existing ih =>
    rw [stopLoop]
    cases d.get k with
    | none => rfl
    | some t =>
      dsimp only
      split
      · split
        · exact hupdate d k
        · rw [ih]
          exact hupdate d k
      · exact ih

theorem eps_startLoop {queueSize : ℕ} (h : ep ∈ eps (startLoop queueSize d w)) : ep ∈ eps d ∨ ∃ i ∈ w, i.2 = ep := by
  induction w generalizing d with
  | nil => exact Or.inl h
  | cons i w ih =>
    rw [startLoop] at h
    rcases ih h with h | ⟨j, hj, hep⟩
    · split at h
      · rw [eps, Table.add, List.map_append] at h
        rcases List.mem_append.1 h with h | h
        · exact Or.inl h
        · exact Or.inr ⟨i, List.mem_cons_self, (List.mem_singleton.1 h).symm⟩
      · exact Or.inl h
    · exact Or.inr ⟨j, List.mem_cons_of_mem _ hj, hep⟩

theorem sync_eps (h : ep ∈ eps (m.sync endpoints existing raises).1.workers) :
    ep ∈ eps m.workers ∨ ep ∈ endpoints := by
  have hloop := @eps_stopLoop m.workers existing raises (wanted endpoints)
  unfold sync at h
  split at h
  · rename_i d hstop
    rw [hstop] at hloop
    exact Or.inl (hloop ▸ h)
  · rename_i d hstop
    rw [hstop] at hloop
    rcases eps_startLoop h with h | ⟨i, hi, rfl⟩
    · exact Or.inl (hloop ▸ h)
    · obtain ⟨ep, hep, rfl⟩ := List.mem_map.1 (Dict.mem_ofItems hi)
      exact Or.inr (List.mem_filter.1 hep).1

/-- Every registered worker is that of its key and was not told to stop. -/
def Registered (d : Table ℕ Thread) : Prop :=
  ∀ eid, ∀ t ∈ d.get eid, t.worker.stopped = false ∧ t.worker.ep.id = eid

theorem Registered.sync (hd : Registered m.workers) (hids : (endpoints.map (·.id)).Nodup)
    (hp : existing.Perm m.workers.refs.keys) : Registered (m.sync endpoints existing []).1.workers := by
  intro eid t ht
  rw [sync_get hp (by simp [Aborts])] at ht
  rcases Option.or_eq_some_iff.1 ht with hu | ⟨-, hnew⟩
  · exact hd eid t (unchanged_eq_some.1 hu).1
  · obtain ⟨ep, hep, rfl⟩ := Option.map_eq_some_iff.1 hnew
    exact ⟨rfl, ((wanted_getItem hids).1 hep).2.2⟩

end AisServer.Forward.ForwarderManager

namespace AisServer.Main

open AisServer.Lib AisServer.Store AisServer.Web AisServer.Forward AisServer.Forward.ForwarderManager

/-- The web application, and the loop that brings the workers in line with its endpoints. -/
structure EndpointSync where
  app : App
  manager : ForwarderManager
  /-- What `list_endpoints` returned last. -/
  listed : List Endpoint := []
  /-- The argument of the last `sync`. -/
  synced : List Endpoint := []

inductive EndpointSyncEvent
  | web (e : AppEvent)
  | list
  /-- `sync` with the keys of the registry in the order in which the set yields them. -/
  | sync (existing : List ℕ)
  /-- The thread of a worker terminates. -/
  | die (r : Ref)

namespace EndpointSync

/-- No worker is registered; the rows may be those of an earlier run of the server. -/
def new (force : Bool) (ringSize queueSize : ℕ) (tables : Tables) : EndpointSync :=
  { app := App.start force ringSize tables, manager := { queueSize } }

/-- One step, where no operation of a thread raises. -/
def step (R : Runtime) (s : EndpointSync) : EndpointSyncEvent → Option EndpointSync
  | .web e => (s.app.step R e).map fun app => { s with app }
  | .list => some { s with listed := listEndpoints s.app.tables }
  | .sync existing =>
    if existing.Perm s.manager.workers.refs.keys then
      some { s with manager := (s.manager.sync s.listed existing []).1, synced := s.listed }
    else none
  | .die r =>
    some { s with
      manager := { s.manager with workers := s.manager.workers.modify r fun t => { t with alive := false } } }

/-! ### Rows that were read -/

/-- A row as it was read once: the row that has its id now, if there is one, is the same row. -/
structure Known (t : Tables) (ep : Endpoint) : Prop where
  last : ep.id ≤ t.lastEndpoint
  same : ∀ e ∈ t.endpoints, e.id = ep.id → e.createdAt = ep.createdAt

/-- Rows as they were read at one time. -/
structure Read (t : Tables) (rows : List Endpoint) : Prop where
  ids : (rows.map (·.id)).Nodup
  known : ∀ ep ∈ rows, Known t ep

variable {t t' : Tables} {ep : Endpoint} {rows : List Endpoint}

theorem Known.later (h : Known t ep) (ht : t.Later t') : Known t' ep := by
  refine ⟨h.last.trans ht.last, fun e' he' hid => ?_⟩
  obtain ⟨e, he, hide, hcreated⟩ := ht.rows e' he' (hid ▸ h.last)
  rw [← hcreated]
  exact h.same e he (hide.trans hid)

theorem Read.later (h : Read t rows) (ht : t.Later t') : Read t' rows :=
  ⟨h.ids, fun ep hep => (h.known ep hep).later ht⟩

theorem read_listEndpoints (ht : t.Numbered) : Read t (listEndpoints t) := by
  have hperm : (listEndpoints t).Perm t.endpoints := List.mergeSort_perm t.endpoints nameLe
  refine ⟨(hperm.map _).nodup_iff.2 ht.ids, fun ep hep => ⟨ht.last ep (hperm.subset hep), fun e he hid => ?_⟩⟩
  rw [List.inj_on_of_nodup_map ht.ids he (hperm.subset hep) hid]

/-! ### The workers follow -/

/-- The workers are in line with the rows of the last `sync`, and these and all the rows that workers were started for
are rows of the table as they once were. -/
structure Following (s : EndpointSync) : Prop where
  numbered : s.app.tables.Numbered
  listed : Read s.app.tables s.listed
  synced : Read s.app.tables s.synced
  keys : ∀ eid, s.manager.workers.get eid ≠ none ↔ ∃ ep ∈ s.synced, ep.enabled = true ∧ ep.id = eid
  agrees : ∀ ep ∈ s.synced, ep.enabled = true → ∀ t ∈ s.manager.workers.get ep.id, endpointMatch ep t.worker.ep = true
  registered : Registered s.manager.workers
  retired : Retired s.manager.workers
  known : ∀ ep ∈ eps s.manager.workers, Known s.app.tables ep

variable {R : Runtime} {s u : EndpointSync} {e : EndpointSyncEvent}

theorem following_new (ht : t.Numbered) (force : Bool) (ringSize queueSize : ℕ) :
    Following (new force ringSize queueSize t) where
  numbered := ht
  listed := ⟨List.nodup_nil, by simp [new]⟩
  synced := ⟨List.nodup_nil, by simp [new]⟩
  keys := by simp [new]
  agrees := by simp [new]
  registered := by simp [new, Registered]
  retired := Table.dropped_empty
  known := by simp [new, eps, Table.empty]

theorem Following.step (hs : Following s) (h : s.step R e = some u) : Following u := by
  cases e with
  | web e =>
    obtain ⟨app, happ, rfl⟩ := Option.map_eq_some_iff.1 h
    have hlater := App.later_of_step happ
    exact ⟨App.numbered_of_step hs.numbered happ, hs.listed.later hlater, hs.synced.later hlater, hs.keys, hs.agrees,
      hs.registered, hs.retired, fun ep hep => (hs.known ep hep).later hlater⟩
  | list =>
    obtain rfl := Option.some.inj h
    exact { hs with listed := read_listEndpoints hs.numbered }
  | sync existing =>
    simp only [EndpointSync.step] at h
    split at h
    · rename_i hp
      obtain rfl := Option.some.inj h
      have hrec := reconciled_sync hs.listed.ids hp
      refine ⟨hs.numbered, hs.listed, hs.listed, hrec.keys, hrec.agrees, hs.registered.sync hs.listed.ids hp,
        hs.retired.sync, fun ep hep => ?_⟩
      rcases sync_eps hep with hep | hep
      · exact hs.known ep hep
      · exact hs.listed.known ep hep
    · cases h
  | die r =>
    obtain rfl := Option.some.inj h
    have hget : ∀ eid, (s.manager.workers.modify r fun t => { t with alive := false }).get eid =
        (s.manager.workers.get eid).map fun t =>
          if s.manager.workers.refs.lookup eid = some r then { t with alive := false } else t := by
      intro eid
      rw [Table.get_modify]
      split <;> simp
    refine ⟨hs.numbered, hs.listed, hs.synced, fun eid => ?_, fun ep hep he t ht => ?_, fun eid t ht => ?_,
      hs.retired.modify fun _ => id, ?_⟩
    · rw [← hs.keys]
      show (s.manager.workers.modify r _).get eid ≠ none ↔ _
      rw [hget, Ne, Option.map_eq_none_iff]
    · rw [hget] at ht
      obtain ⟨t, hget, rfl⟩ := Option.map_eq_some_iff.1 ht
      have hmatch := hs.agrees ep hep he t hget
      split <;> exact hmatch
    · rw [hget] at ht
      obtain ⟨t, hget, rfl⟩ := Option.map_eq_some_iff.1 ht
      have hreg := hs.registered eid t hget
      split <;> exact hreg
    · have heps : eps (s.manager.workers.modify r fun t => { t with alive := false }) = eps s.manager.workers :=
        eps_modify fun _ => rfl
      exact fun ep hep => hs.known ep (heps ▸ hep)

theorem Following.listed_iff (hs : Following s) {r : Ref} {t : Thread} (ht : s.manager.workers.objs[r]? = some t) :
    t.worker.stopped = false ↔ s.manager.workers.Listed r := by
  constructor
  · intro hrun
    by_contra hnot
    exact Bool.noConfusion (hrun.symm.trans (hs.retired r t ht hnot))
  · rintro ⟨eid, hlookup⟩
    refine (hs.registered eid t ?_).1
    rw [Option.mem_def, Table.get, hlookup]
    exact ht

/-- The rows are those of the table before some event of the run, or none were read yet. -/
def ReadBy (R : Runtime) (s : EndpointSync) (es : List EndpointSyncEvent) (rows : List Endpoint) : Prop :=
  rows = [] ∨ ∃ before u, before <+: es ∧ run (step R) s before = some u ∧ rows = listEndpoints u.app.tables

theorem readBy_of_run {es : List EndpointSyncEvent} {force : Bool} {ringSize queueSize : ℕ}
    (h : run (step R) (new force ringSize queueSize t) es = some s) :
    ReadBy R (new force ringSize queueSize t) es s.listed ∧ ReadBy R (new force ringSize queueSize t) es s.synced := by
  have hmono : ∀ {rows fs} e, ReadBy R (new force ringSize queueSize t) fs rows →
      ReadBy R (new force ringSize queueSize t) (fs ++ [e]) rows := by
    rintro rows fs e (rfl | ⟨before, u, hb, hu, hrows⟩)
    · exact Or.inl rfl
    · exact Or.inr ⟨before, u, hb.trans (List.prefix_append _ _), hu, hrows⟩
  refine (run_history (I := fun s fs => run (step R) (new force ringSize queueSize t) fs = some s ∧
    ReadBy R (new force ringSize queueSize t) fs s.listed ∧ ReadBy R (new force ringSize queueSize t) fs s.synced)
    (fun s fs e u hs hst => ⟨?_, ?_⟩) ⟨rfl, Or.inl rfl, Or.inl rfl⟩ h).2
  · rw [run_append_of hs.1, run_cons, hst]
    rfl
  · obtain ⟨hrun, hlisted, hsynced⟩ := hs
    cases e with
    | web e =>
      obtain ⟨app, -, rfl⟩ := Option.map_eq_some_iff.1 hst
      exact ⟨hmono _ hlisted, hmono _ hsynced⟩
    | list =>
      obtain rfl := Option.some.inj hst
      exact ⟨Or.inr ⟨fs, s, List.prefix_append _ _, hrun, rfl⟩, hmono _ hsynced⟩
    | sync existing =>
      simp only [step] at hst
      split at hst
      · obtain rfl := Option.some.inj hst
        exact ⟨hmono _ hlisted, hmono _ hlisted⟩
      · cases hst
    | die r =>
      obtain rfl := Option.some.inj hst
      exact ⟨hmono _ hlisted, hmono _ hsynced⟩

end EndpointSync

/-- **The workers follow the rows.**  Over every run of the requests of any clients and the turns of the loop, however
they are interleaved and whichever threads die, when no operation of a thread raises: the last `sync` was given the
rows of the table as they once were; each row of them that is enabled has a worker with its configuration, and no other
worker is registered; every worker that is not registered was told to stop; a worker was never started for another
endpoint than the one that has its id now, and one more turn of the loop takes the rows as they are. -/
theorem workers_follow_rows {R : Runtime} {force : Bool} {ringSize queueSize : ℕ} {tables : Tables}
    (ht : tables.Numbered) {es : List EndpointSyncEvent} {s : EndpointSync}
    (h : run (EndpointSync.step R) (EndpointSync.new force ringSize queueSize tables) es = some s) :
    EndpointSync.ReadBy R (EndpointSync.new force ringSize queueSize tables) es s.synced ∧
    (∀ ep ∈ s.synced, ep.enabled = true → ∃ t, s.manager.workers.get ep.id = some t ∧
      endpointMatch ep t.worker.ep = true ∧ t.worker.stopped = false) ∧
    (∀ eid, s.manager.workers.get eid ≠ none → ∃ ep ∈ s.synced, ep.enabled = true ∧ ep.id = eid) ∧
    (∀ r t, s.manager.workers.objs[r]? = some t → (t.worker.stopped = false ↔ s.manager.workers.Listed r)) ∧
    (∀ t ∈ s.manager.workers.objs, ∀ e ∈ s.app.tables.endpoints, e.id = t.worker.ep.id →
      e.createdAt = t.worker.ep.createdAt) ∧
    ∀ existing, existing.Perm s.manager.workers.refs.keys →
      ∃ u, run (EndpointSync.step R) s [.list, .sync existing] = some u ∧ u.synced = listEndpoints s.app.tables := by
  have hs : EndpointSync.Following s := run_inv_of_step (I := EndpointSync.Following) (fun _ _ _ hs h => hs.step h)
    (EndpointSync.following_new ht force ringSize queueSize) h
  refine ⟨(EndpointSync.readBy_of_run h).2, fun ep hep he => ?_, fun eid => (hs.keys eid).1,
    fun r t ht => hs.listed_iff ht, fun t ht e he hid => ?_, fun existing hp => ?_⟩
  · obtain ⟨t, hget⟩ := Option.ne_none_iff_exists'.1 ((hs.keys ep.id).2 ⟨ep, hep, he, rfl⟩)
    exact ⟨t, hget, hs.agrees ep hep he t hget, (hs.registered ep.id t hget).1⟩
  · exact (hs.known _ (List.mem_map_of_mem ht)).same e he hid
  · simp [EndpointSync.step, hp]

/-- An endpoint is deleted and made again after the loop has read the rows. -/
def recreated : List EndpointSyncEvent :=
  [.web defaultLogin, .web addPlotter, .list, .sync [], .list, .web (.http 0 plainWorld (.endpointsDelete 1)),
    .web addPlotter, .sync [1], .list, .sync [1]]

/-- The new endpoint gets a worker of its own, and the old worker was told to stop. -/
theorem workers_follow_rows_recreated :
    ∃ s, run (EndpointSync.step plainRuntime) (EndpointSync.new true 500 100 seeded) recreated = some s ∧
      s.manager.workers.objs.map (·.worker.ep.id) = [1, 2] ∧ ¬ s.manager.workers.Listed 0 ∧
      s.manager.workers.Listed 1 := by
  have hrun : (run (EndpointSync.step plainRuntime) (EndpointSync.new true 500 100 seeded) recreated).map (fun s =>
      s.manager.workers.objs.map fun t => (t.worker.ep.id, t.worker.stopped)) = some [(1, true), (2, false)] := by
    decide +kernel
  obtain ⟨s, hs, hobjs⟩ := Option.map_eq_some_iff.1 hrun
  obtain ⟨-, -, -, hlisted, -⟩ := workers_follow_rows (by constructor <;> simp [seeded]) hs
  obtain ⟨old, rest, hworkers, hold, hrest⟩ := List.map_eq_cons_iff.1 hobjs
  obtain ⟨new, rest, rfl, hnew, hnil⟩ := List.map_eq_cons_iff.1 hrest
  obtain rfl := List.map_eq_nil_iff.1 hnil
  obtain ⟨hold, hstopped⟩ := Prod.mk.inj hold
  obtain ⟨hnew, hrunning⟩ := Prod.mk.inj hnew
  refine ⟨s, hs, by simp [hworkers, hold, hnew], fun hl => ?_, ?_⟩
  · have hfalse := (hlisted 0 old (by rw [hworkers]; rfl)).2 hl
    exact Bool.noConfusion (hstopped.symm.trans hfalse)
  · exact (hlisted 1 new (by rw [hworkers]; rfl)).1 hrunning

end AisServer.Main
