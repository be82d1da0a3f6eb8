import AisServer.Forward.Manager

/-!
# What `sync` changes

`sync_get` says which worker is registered under a key after `sync`.  Here the worker objects are followed
through its two loops, by reference: which of them stay registered, and which are told to stop.

* `stopLoop_refs`, `stopLoop_objs` — the first loop takes the stale workers out and stops exactly them;
* `Starts` — the second loop adds workers and leaves the registered ones alone;
* `sync_reconciles` — what `sync` does when no `join` raises.
-/

namespace AisServer.Forward

open AisServer.Lib AisServer.Store

/-! ### Endpoints -/

theorem pyEq_self (a : Value) : pyEq a a = true := by
  cases a <;> simp [pyEq]

theorem endpointMatch_self (ep : Endpoint) : endpointMatch ep ep = true := by
  simp [endpointMatch, pyEq_self]

variable {endpoints : List Endpoint} {ep : Endpoint} {eid : ℕ}

theorem wanted_getItem (hids : (endpoints.map (·.id)).Nodup) :
    (wanted endpoints).getItem eid = some ep ↔ ep ∈ endpoints ∧ ep.enabled = true ∧ ep.id = eid := by
  have hnd : ((((endpoints.filter (·.enabled)).map fun ep => (ep.id, ep)).reverse).map (·.1)).Nodup := by
    rw [List.map_reverse, List.nodup_reverse, List.map_map]
    exact hids.sublist (List.filter_sublist.map _)
  unfold wanted
  rw [Dict.getItem_ofItems, Dict.getItem_eq_some hnd, List.mem_reverse, List.mem_map]
  constructor
  · rintro ⟨ep', hep, he⟩
    obtain ⟨rfl, rfl⟩ := Prod.mk.inj he
    obtain ⟨hep, he⟩ := List.mem_filter.1 hep
    exact ⟨hep, he, rfl⟩
  · rintro ⟨hep, he, rfl⟩
    exact ⟨ep, List.mem_filter.2 ⟨hep, he⟩, rfl⟩

namespace ForwarderManager

variable {m : ForwarderManager} {d d' : Table ℕ Thread} {existing : List ℕ} {w : Dict ℕ Endpoint}
  {queueSize : ℕ} {r : Ref}

/-! ### The loop that stops workers -/

theorem get_stopped {k e : ℕ} (he : e ≠ k) : ((d.update k Thread.stop).erase k).get e = d.get e := by
  rw [Table.get_erase, if_neg he, Table.get_update, if_neg he]

theorem lookup_stopped {k e : ℕ} : ((d.update k Thread.stop).erase k).refs.lookup e =
    if e = k then none else d.refs.lookup e := by
  show ((d.update k Thread.stop).refs.erase k).lookup e = _
  rw [Table.refs_update]
  by_cases he : e = k
  · subst he
    rw [if_pos rfl, AList.lookup_erase]
  · rw [if_neg he, AList.lookup_erase_ne he]

/-- A registered worker that is stale. -/
def Stops (w : Dict ℕ Endpoint) (d : Table ℕ Thread) (existing : List ℕ) (r : Ref) : Prop :=
  ∃ e ∈ existing, d.refs.lookup e = some r ∧ (d.get e).any (stale w e) = true

theorem stopLoop_refs (hreg : ∀ e ∈ existing, d.get e ≠ none) (hnd : existing.Nodup) :
    (stopLoop w [] d existing).1.refs.lookup eid =
      if eid ∈ existing ∧ (d.get eid).any (stale w eid) = true then none else d.refs.lookup eid := by
  induction existing generalizing d with
  | nil => simp [stopLoop]
  | cons k existing ih =>
    obtain ⟨t, ht, hk, hnd, hne, hturn⟩ := stopLoop_cons hreg hnd
    rw [hturn]
    by_cases hs : stale w k t = true
    · rw [if_pos hs, if_neg List.not_mem_nil,
        ih (fun e he => (get_stopped (hne e he)).symm ▸ hreg e (List.mem_cons_of_mem _ he)) hnd,
        lookup_stopped]
      by_cases he : eid = k
      · subst he
        simp [hk, ht, hs]
      · rw [get_stopped he]
        simp [he]
    · rw [if_neg hs, ih (fun e he => hreg e (List.mem_cons_of_mem _ he)) hnd]
      by_cases he : eid = k
      · subst he
        simp [hk, ht, hs]
      · simp [he]

theorem stopLoop_objs (hreg : ∀ e ∈ existing, d.get e ≠ none) (hnd : existing.Nodup) (r : Ref) :
    Stops w d existing r ∧ (stopLoop w [] d existing).1.objs[r]? = (d.objs[r]?).map Thread.stop ∨
      ¬ Stops w d existing r ∧ (stopLoop w [] d existing).1.objs[r]? = d.objs[r]? := by
  induction existing generalizing d with
  | nil => exact Or.inr ⟨by simp [Stops], rfl⟩
  | cons k existing ih =>
    obtain ⟨t, ht, hk, hnd, hne, hturn⟩ := stopLoop_cons hreg hnd
    rw [hturn]
    by_cases hs : stale w k t = true
    · rw [if_pos hs, if_neg List.not_mem_nil]
      obtain ⟨rk, hrk⟩ : ∃ rk, d.refs.lookup k = some rk := by
        refine Option.ne_none_iff_exists'.1 fun hnone => ?_
        rw [Table.get_eq_none.2 hnone] at ht
        cases ht
      have hobjs : ((d.update k Thread.stop).erase k).objs[r]? =
          if r = rk then (d.objs[r]?).map Thread.stop else d.objs[r]? := by
        show (d.update k Thread.stop).objs[r]? = _
        simp only [Table.update, hrk, Table.modify, List.getElem?_modify]
        by_cases hr : r = rk
        · simp [hr]
        · simp [hr, Ne.symm hr]
      -- of the keys that follow, none shares its worker with `k`
      have hlater : Stops w ((d.update k Thread.stop).erase k) existing r ↔ Stops w d existing r ∧ r ≠ rk := by
        constructor
        · rintro ⟨e, he, hl, hst⟩
          rw [lookup_stopped, if_neg (hne e he)] at hl
          rw [get_stopped (hne e he)] at hst
          refine ⟨⟨e, he, hl, hst⟩, ?_⟩
          rintro rfl
          exact hne e he (d.inj hl hrk)
        · rintro ⟨⟨e, he, hl, hst⟩, -⟩
          refine ⟨e, he, ?_, ?_⟩
          · rw [lookup_stopped, if_neg (hne e he), hl]
          · rw [get_stopped (hne e he), hst]
      have hstops : Stops w d (k :: existing) r ↔ r = rk ∨ Stops w d existing r := by
        constructor
        · rintro ⟨e, he, hl, hst⟩
          rcases List.mem_cons.1 he with rfl | he
          · exact Or.inl (Option.some.inj (hl.symm.trans hrk))
          · exact Or.inr ⟨e, he, hl, hst⟩
        · rintro (rfl | ⟨e, he, hl, hst⟩)
          · exact ⟨k, List.mem_cons_self .., hrk, by simpa [ht] using hs⟩
          · exact ⟨e, List.mem_cons_of_mem _ he, hl, hst⟩
      have hih := ih (fun e he => (get_stopped (hne e he)).symm ▸ hreg e (List.mem_cons_of_mem _ he)) hnd
      rw [hlater, hobjs] at hih
      rw [hstops]
      by_cases hr : r = rk
      · rcases hih with ⟨⟨-, hne⟩, -⟩ | ⟨-, hobj⟩
        · exact absurd hr hne
        · rw [if_pos hr] at hobj
          exact Or.inl ⟨Or.inl hr, hobj⟩
      · rw [if_neg hr] at hih
        simpa [hr] using hih
    · rw [if_neg hs]
      have hstops : Stops w d (k :: existing) r ↔ Stops w d existing r := by
        constructor
        · rintro ⟨e, he, hl, hst⟩
          rcases List.mem_cons.1 he with rfl | he
          · simp [ht, hs] at hst
          · exact ⟨e, he, hl, hst⟩
        · rintro ⟨e, he, hl, hst⟩
          exact ⟨e, List.mem_cons_of_mem _ he, hl, hst⟩
      rw [hstops]
      exact ih (fun e he => hreg e (List.mem_cons_of_mem _ he)) hnd

theorem stopLoop_of_fresh {raises : List ℕ}
    (h : ∀ e ∈ existing, ∃ t, d.get e = some t ∧ stale w e t = false) :
    stopLoop w raises d existing = (d, true) := by
  induction existing with
  | nil => rfl
  | cons k existing ih =>
    obtain ⟨t, ht, hs⟩ := h k (List.mem_cons_self ..)
    rw [stopLoop, ht]
    simp only [hs, Bool.false_eq_true, if_false]
    exact ih fun e he => h e (List.mem_cons_of_mem _ he)

/-! ### The loop that starts workers -/

/-- The dictionary `d'` is `d` with new workers. -/
structure Starts (d d' : Table ℕ Thread) : Prop where
  objs : ∃ new, d'.objs = d.objs ++ new ∧ ∀ t ∈ new, t.worker.stopped = false
  refs : ∀ e r, r < d.objs.length → (d'.refs.lookup e = some r ↔ d.refs.lookup e = some r)

theorem Starts.refl (d : Table ℕ Thread) : Starts d d where
  objs := ⟨[], by simp, by simp⟩
  refs _ _ _ := Iff.rfl

theorem Starts.trans {d'' : Table ℕ Thread} (h : Starts d d') (h' : Starts d' d'') : Starts d d'' := by
  obtain ⟨new, hnew, hfresh⟩ := h.objs
  obtain ⟨new', hnew', hfresh'⟩ := h'.objs
  constructor
  · refine ⟨new ++ new', by rw [hnew', hnew, List.append_assoc], fun t ht => ?_⟩
    exact (List.mem_append.1 ht).elim (hfresh t) (hfresh' t)
  · intro e r hr
    have hr' : r < d'.objs.length := by
      rw [hnew, List.length_append]
      omega
    exact (h'.refs e r hr').trans (h.refs e r hr)

theorem Starts.add {k : ℕ} (hk : d.refs.lookup k = none) {t : Thread} (ht : t.worker.stopped = false) :
    Starts d (d.add k t) := by
  constructor
  · exact ⟨[t], rfl, by simpa using ht⟩
  · intro e r hr
    show (d.refs.insert k d.objs.length).lookup e = some r ↔ _
    by_cases he : e = k
    · subst he
      rw [AList.lookup_insert, hk]
      simp only [Option.some.injEq, reduceCtorEq, iff_false]
      exact Nat.ne_of_gt hr
    · rw [AList.lookup_insert_ne he]

theorem startLoop_starts : Starts d (startLoop queueSize d w) := by
  induction w generalizing d with
  | nil => exact Starts.refl d
  | cons i w ih =>
    obtain ⟨k, ep⟩ := i
    rw [startLoop]
    rcases hk : d.get k with _ | t
    · exact (Starts.add (Table.get_eq_none.1 hk) rfl).trans ih
    · exact ih

theorem startLoop_of_registered (h : ∀ i ∈ w, d.get i.1 ≠ none) : startLoop queueSize d w = d := by
  induction w with
  | nil => rfl
  | cons i w ih =>
    obtain ⟨k, ep⟩ := i
    have hk : ¬ (d.get k).isNone = true := by
      rw [Option.isNone_iff_eq_none]
      exact h (k, ep) (List.mem_cons_self ..)
    rw [startLoop, if_neg hk]
    exact ih fun i hi => h i (List.mem_cons_of_mem _ hi)

/-! ### Both loops -/

/-- What `sync` makes of the workers of `m`. -/
structure Reconciled (m : ForwarderManager) (endpoints : List Endpoint) (m' : ForwarderManager) : Prop where
  keys : ∀ eid, m'.workers.get eid ≠ none ↔ ∃ ep ∈ endpoints, ep.enabled = true ∧ ep.id = eid
  agrees : ∀ ep ∈ endpoints, ep.enabled = true → ∀ t ∈ m'.workers.get ep.id,
    endpointMatch ep t.worker.ep = true
  /-- A worker with the configuration of its row is the same object, as it was. -/
  kept : ∀ ep ∈ endpoints, ep.enabled = true → ∀ t ∈ m.workers.get ep.id,
    endpointMatch ep t.worker.ep = true →
      m'.workers.refs.lookup ep.id = m.workers.refs.lookup ep.id ∧ m'.workers.get ep.id = some t
  /-- A worker that is no longer registered was told to stop. -/
  stopped : ∀ r, m.workers.Listed r → ¬ m'.workers.Listed r →
    m'.workers.objs[r]? = (m.workers.objs[r]?).map Thread.stop
  /-- No other worker was touched. -/
  frame : ∀ r < m.workers.objs.length, ¬ (m.workers.Listed r ∧ ¬ m'.workers.Listed r) →
    m'.workers.objs[r]? = m.workers.objs[r]?
  started : ∀ r, m.workers.objs.length ≤ r → ∀ t ∈ m'.workers.objs[r]?, t.worker.stopped = false

theorem stale_iff (hids : (endpoints.map (·.id)).Nodup) {t : Thread} :
    stale (wanted endpoints) eid t = false ↔
      ∃ ep ∈ endpoints, ep.enabled = true ∧ ep.id = eid ∧ endpointMatch ep t.worker.ep = true := by
  unfold stale
  rcases hw : (wanted endpoints).getItem eid with _ | ep
  · simp only [Bool.true_eq_false, false_iff]
    rintro ⟨ep, hep, he, hid, -⟩
    rw [(wanted_getItem hids).2 ⟨hep, he, hid⟩] at hw
    cases hw
  · obtain ⟨hep, he, hid⟩ := (wanted_getItem hids).1 hw
    simp only [Bool.not_eq_false']
    constructor
    · exact fun hmatch => ⟨ep, hep, he, hid, hmatch⟩
    · rintro ⟨ep', hep', he', hid', hmatch⟩
      rw [(wanted_getItem hids).2 ⟨hep', he', hid'⟩, Option.some.injEq] at hw
      rwa [← hw]

theorem unchanged_eq_some {t : Thread} : m.unchanged endpoints eid = some t ↔
    m.workers.get eid = some t ∧ stale (wanted endpoints) eid t = false := by
  simp [unchanged, Option.filter_eq_some_iff]

theorem sync_eq (hp : existing.Perm m.workers.refs.keys) : m.sync endpoints existing [] =
    (⟨m.queueSize, startLoop m.queueSize (stopLoop (wanted endpoints) [] m.workers existing).1
      (wanted endpoints)⟩, true) := by
  have hdone : (m.sync endpoints existing []).2 = true := (sync_snd hp).2 (by simp [Aborts])
  unfold sync at hdone ⊢
  rcases hl : stopLoop (wanted endpoints) [] m.workers existing with ⟨d, _ | _⟩
  · rw [hl] at hdone
    cases hdone
  · rfl

theorem stopLoop_length {raises : List ℕ} :
    (stopLoop w raises d existing).1.objs.length = d.objs.length := by
  induction existing generalizing d with
  | nil => rfl
  | cons k existing ih =>
    rw [stopLoop]
    split
    · rfl
    · split
      · split
        · exact Table.length_update
        · exact ih.trans Table.length_update
      · exact ih

variable {m' : ForwarderManager}

theorem sync_keys (hids : (endpoints.map (·.id)).Nodup) (hp : existing.Perm m.workers.refs.keys) (eid : ℕ) :
    (m.sync endpoints existing []).1.workers.get eid ≠ none ↔ ∃ ep ∈ endpoints, ep.enabled = true ∧ ep.id = eid := by
  rw [sync_get hp (by simp [Aborts])]
  constructor
  · intro hne
    rcases hu : m.unchanged endpoints eid with _ | t
    · rcases hw : (wanted endpoints).getItem eid with _ | ep
      · exact absurd (by simp [hu, hw]) hne
      · exact ⟨ep, (wanted_getItem hids).1 hw⟩
    · obtain ⟨ep, hep, he, hid, -⟩ := (stale_iff hids).1 (unchanged_eq_some.1 hu).2
      exact ⟨ep, hep, he, hid⟩
  · rintro ⟨ep, hep, he, hid⟩
    rw [(wanted_getItem hids).2 ⟨hep, he, hid⟩]
    rcases m.unchanged endpoints eid with _ | t <;> simp

theorem sync_agrees (hids : (endpoints.map (·.id)).Nodup) (hp : existing.Perm m.workers.refs.keys) {ep : Endpoint}
    (hep : ep ∈ endpoints) (he : ep.enabled = true) {t : Thread}
    (ht : (m.sync endpoints existing []).1.workers.get ep.id = some t) : endpointMatch ep t.worker.ep = true := by
  rw [sync_get hp (by simp [Aborts]), (wanted_getItem hids).2 ⟨hep, he, rfl⟩] at ht
  rcases hu : m.unchanged endpoints ep.id with _ | t'
  · rw [hu] at ht
    obtain rfl := Option.some.inj ht
    exact endpointMatch_self ep
  · rw [hu] at ht
    obtain rfl := Option.some.inj ht
    obtain ⟨ep', hep', -, hid, hmatch⟩ := (stale_iff hids).1 (unchanged_eq_some.1 hu).2
    rwa [← List.inj_on_of_nodup_map hids hep' hep hid]

/-- **What one `sync` does.** -/
theorem reconciled_sync (hids : (endpoints.map (·.id)).Nodup) (hp : existing.Perm m.workers.refs.keys) :
    Reconciled m endpoints (m.sync endpoints existing []).1 := by
  have hnd : existing.Nodup := hp.nodup_iff.2 m.workers.refs.keys_nodup
  have hreg : ∀ e ∈ existing, m.workers.get e ≠ none := fun e he => (registered_of_perm hp e).1 he
  have hkeys := @sync_keys endpoints m existing hids hp
  have hagrees := fun ep hep he t => @sync_agrees endpoints m existing hids hp ep hep he t
  have hget := fun eid => @sync_get endpoints eid m existing [] hp (by simp [Aborts])
  have hrefs := fun eid => @stopLoop_refs eid m.workers existing (wanted endpoints) hreg hnd
  have hobjs := @stopLoop_objs m.workers existing (wanted endpoints) hreg hnd
  have hlen := @stopLoop_length m.workers existing (wanted endpoints) []
  have hstarts := @startLoop_starts (stopLoop (wanted endpoints) [] m.workers existing).1 (wanted endpoints)
    m.queueSize
  rw [sync_eq hp] at hkeys hagrees hget ⊢
  generalize (stopLoop (wanted endpoints) [] m.workers existing).1 = d at *
  generalize startLoop m.queueSize d (wanted endpoints) = d' at *
  -- what is registered after both loops
  have hlisted : ∀ r < m.workers.objs.length,
      (d'.Listed r ↔ m.workers.Listed r ∧ ¬ Stops (wanted endpoints) m.workers existing r) := by
    intro r hr
    constructor
    · rintro ⟨e, he⟩
      have he := (hstarts.refs e r (hlen.symm ▸ hr)).1 he
      rw [hrefs] at he
      split at he
      · cases he
      · rename_i hnot
        refine ⟨⟨e, he⟩, ?_⟩
        rintro ⟨e', he', hl, hst⟩
        obtain rfl := m.workers.inj hl he
        exact hnot ⟨he', hst⟩
    · rintro ⟨⟨e, he⟩, hnot⟩
      refine ⟨e, (hstarts.refs e r (hlen.symm ▸ hr)).2 ?_⟩
      rw [hrefs, if_neg, he]
      rintro ⟨hmem, hst⟩
      exact hnot ⟨e, hmem, he, hst⟩
  obtain ⟨new, hnew, hfresh⟩ := hstarts.objs
  have hold : ∀ r < m.workers.objs.length, d'.objs[r]? = d.objs[r]? := by
    intro r hr
    rw [hnew, List.getElem?_append_left (hlen.symm ▸ hr)]
  refine ⟨hkeys, hagrees, ?_, ?_, ?_, ?_⟩
  · intro ep hep he t ht hmatch
    rw [Option.mem_def] at ht
    have hfresh' : stale (wanted endpoints) ep.id t = false :=
      (stale_iff hids).2 ⟨ep, hep, he, rfl, hmatch⟩
    constructor
    · obtain ⟨r, hr⟩ : ∃ r, m.workers.refs.lookup ep.id = some r := by
        refine Option.ne_none_iff_exists'.1 fun hnone => ?_
        rw [Table.get_eq_none.2 hnone] at ht
        cases ht
      rw [hr]
      refine (hstarts.refs ep.id r (hlen.symm ▸ m.workers.valid hr)).2 ?_
      rw [hrefs, if_neg (by simp [ht, hfresh']), hr]
    · refine (hget ep.id).trans ?_
      rw [unchanged_eq_some.2 ⟨ht, hfresh'⟩]
      rfl
  · intro r hr hnot
    have hlt : r < m.workers.objs.length := by
      obtain ⟨e, he⟩ := hr
      exact m.workers.valid he
    rcases hobjs r with ⟨-, hobj⟩ | ⟨hstays, -⟩
    · exact (hold r hlt).trans hobj
    · exact absurd ((hlisted r hlt).2 ⟨hr, hstays⟩) hnot
  · intro r hr hnot
    rcases hobjs r with ⟨hstops, -⟩ | ⟨-, hobj⟩
    · obtain ⟨e, he, hl, -⟩ := id hstops
      exact absurd ⟨⟨e, hl⟩, fun h => ((hlisted r hr).1 h).2 hstops⟩ hnot
    · exact (hold r hr).trans hobj
  · intro r hr t ht
    show t.worker.stopped = false
    rw [Option.mem_def] at ht
    change d'.objs[r]? = some t at ht
    rw [hnew, List.getElem?_append_right (hlen.symm ▸ hr)] at ht
    exact hfresh t (List.mem_of_getElem? ht)

theorem sync_of_reconciled (hids : (endpoints.map (·.id)).Nodup) (h : Reconciled m endpoints m')
    (hp : existing.Perm m'.workers.refs.keys) : m'.sync endpoints existing [] = (m', true) := by
  have hstop : stopLoop (wanted endpoints) [] m'.workers existing = (m'.workers, true) := by
    refine stopLoop_of_fresh fun e he => ?_
    have hreg := (registered_of_perm hp e).1 he
    obtain ⟨t, ht⟩ := Option.ne_none_iff_exists'.1 hreg
    obtain ⟨ep, hep, hen, rfl⟩ := (h.keys e).1 hreg
    exact ⟨t, ht, (stale_iff hids).2 ⟨ep, hep, hen, rfl, h.agrees ep hep hen t ht⟩⟩
  have hstart : startLoop m'.queueSize m'.workers (wanted endpoints) = m'.workers := by
    refine startLoop_of_registered fun i hi => (h.keys i.1).2 ?_
    obtain ⟨ep, hep⟩ := Option.ne_none_iff_exists'.1 (Dict.getItem_ne_none (a := i.2) hi)
    exact ⟨ep, (wanted_getItem hids).1 hep⟩
  unfold sync
  rw [hstop]
  simp only [hstart]

end ForwarderManager

/-- **`sync` reconciles exactly.**  For distinct ids and any dictionary of workers, and when no operation of a
thread raises, the keys become the ids of the enabled endpoints, each with a worker that has the configuration of
its row: the old one, as it was, when it had that configuration already.  The workers that are no longer registered
were told to stop, and no other; and `sync` with the same list again changes nothing. -/
theorem sync_reconciles {m : ForwarderManager} {endpoints : List Endpoint} {existing : List ℕ}
    (hids : (endpoints.map (·.id)).Nodup) (hp : existing.Perm m.workers.refs.keys) :
    ∃ m', m.sync endpoints existing [] = (m', true) ∧ ForwarderManager.Reconciled m endpoints m' ∧
      ∀ existing', existing'.Perm m'.workers.refs.keys → m'.sync endpoints existing' [] = (m', true) := by
  have h := ForwarderManager.reconciled_sync hids hp
  refine ⟨(m.sync endpoints existing []).1, ?_, h, fun existing' hp' =>
    ForwarderManager.sync_of_reconciled hids h hp'⟩
  rw [ForwarderManager.sync_eq hp]

/-- The worker of a row that was edited is replaced. -/
theorem sync_reconciles_edited :
    ∃ m', (ForwarderManager.sync ⟨100, Table.empty.add 1 (ForwarderManager.newThread 100 (plotter 70000))⟩
      [plotter 7000] [1] []) = (m', true) ∧ m'.workers.objs.map (·.worker.stopped) = [true, false] ∧
      m'.sync [plotter 7000] [1] [] = (m', true) := by
  obtain ⟨m', hm', -, hagain⟩ := @sync_reconciles
    ⟨100, Table.empty.add 1 (ForwarderManager.newThread 100 (plotter 70000))⟩ [plotter 7000] [1]
    (by decide) (by decide)
  refine ⟨m', hm', ?_, hagain [1] ?_⟩
  · obtain rfl := (Prod.mk.inj hm').1
    decide +kernel
  · obtain rfl := (Prod.mk.inj hm').1
    decide +kernel

end AisServer.Forward
