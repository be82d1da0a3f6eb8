import AisServer.Forward.Loop
import AisServer.Forward.Manager

/-!
# Workers that are replaced

`Fleet` interleaves `sync`, step by step, with the loops of all the workers that were ever started.  `sync` sets
the flag of a worker, wakes it, joins it for at most three seconds, and takes it out of the registry whether or
not it has ended.

* `Inv.step` — as long as `join` does not return while the worker is inside an iteration, a worker that was taken
  out rests, and of the workers of one endpoint only the last may send;
* `replaced_silent` — so no worker sends once it was taken out, and a replacement does not mix with it.
-/

namespace AisServer.Forward

open AisServer.Lib AisServer.Store

/-- Where the thread of `sync` stands. -/
inductive FleetPc
  | idle
  /-- At the head of the loop over the keys that were registered. -/
  | stopping (endpoints : List Endpoint) (existing : List ℕ)
  /-- Inside `stop`, behind the flag. -/
  | waking (endpoints : List Endpoint) (existing : List ℕ) (eid : ℕ) (r : Ref)
  /-- In `join(timeout=3)`. -/
  | joining (endpoints : List Endpoint) (existing : List ℕ) (eid : ℕ) (r : Ref)
  /-- At the head of the loop over the wanted endpoints. -/
  | starting (wanted : Dict ℕ Endpoint)

/-- The manager with its workers.  `log` names, for every sentence sent, the worker that sent it; `removed` are the
workers that were taken out, each with the length of the log then. -/
structure Fleet where
  queueSize : ℕ
  threads : List Loop := []
  workers : AList (fun _ : ℕ => Ref) := ∅
  pc : FleetPc := .idle
  log : List Ref := []
  removed : List (Ref × ℕ) := []

inductive FleetEvent
  | sync (endpoints : List Endpoint) (existing : List ℕ)
  | next
  | wake
  /-- `join` returns: the thread has ended, or the time is over. -/
  | join
  /-- `join` raises, which ends `sync`. -/
  | joinRaises
  | start
  /-- A step of a worker's loop, or of a `put` into its queue. -/
  | loop (r : Ref) (e : LoopEvent)

namespace Fleet

/-- No worker has been started. -/
def new (queueSize : ℕ) : Fleet := { queueSize }

/-- One turn of the loop that stops workers, up to the flag. -/
def stopNext (s : Fleet) (endpoints : List Endpoint) (eid : ℕ) (existing : List ℕ) : Option Fleet :=
  match s.workers.lookup eid with
  | none => none
  | some r =>
    match s.threads[r]? with
    | none => none
    | some l =>
      if stale (wanted endpoints) eid { worker := l.worker } then
        l.setStop.map fun l' => { s with threads := s.threads.set r l', pc := .waking endpoints existing eid r }
      else some { s with pc := .stopping endpoints existing }

/-- One turn of the loop that starts workers. -/
def startNext (s : Fleet) (eid : ℕ) (ep : Endpoint) (rest : Dict ℕ Endpoint) : Fleet :=
  if s.workers.lookup eid = none then
    { s with
      threads := s.threads ++ [Loop.new s.queueSize ep]
      workers := s.workers.insert eid s.threads.length
      pc := .starting rest }
  else { s with pc := .starting rest }

def step (s : Fleet) : FleetEvent → Option Fleet
  | .sync endpoints existing =>
    match s.pc with
    | .idle =>
      if existing.Perm s.workers.keys then some { s with pc := .stopping endpoints existing } else none
    | _ => none
  | .next =>
    match s.pc with
    | .stopping endpoints [] => some { s with pc := .starting (wanted endpoints) }
    | .stopping endpoints (eid :: existing) => s.stopNext endpoints eid existing
    | _ => none
  | .wake =>
    match s.pc with
    | .waking endpoints existing eid r =>
      (s.threads[r]?).bind fun l => l.wake.map fun l' =>
        { s with threads := s.threads.set r l', pc := .joining endpoints existing eid r }
    | _ => none
  | .join =>
    match s.pc with
    | .joining endpoints existing eid r =>
      some { s with
        workers := s.workers.erase eid, pc := .stopping endpoints existing
        removed := s.removed ++ [(r, s.log.length)] }
    | _ => none
  | .joinRaises =>
    match s.pc with
    | .joining _ _ _ _ => some { s with pc := .idle }
    | _ => none
  | .start =>
    match s.pc with
    | .starting [] => some { s with pc := .idle }
    | .starting ((eid, ep) :: rest) => some (s.startNext eid ep rest)
    | _ => none
  | .loop r e =>
    if e.own then
      (s.threads[r]?).bind fun l => (l.step e).map fun l' =>
        { s with
          threads := s.threads.set r l'
          log := s.log ++ List.replicate (l'.sent - l.sent) r }
    else none

/-- The endpoint of a worker. -/
def idOf (s : Fleet) (r : Ref) : Option ℕ := (s.threads[r]?).map fun l => l.worker.ep.id

/-- No worker has sent a sentence since it was taken out. -/
def Silent (s : Fleet) : Prop := ∀ p ∈ s.removed, p.1 ∉ s.log.drop p.2

/-- The workers of one endpoint have sent one after the other, in the order in which they were started. -/
def Sequential (s : Fleet) : Prop := s.log.Pairwise fun a b => s.idOf a = s.idOf b → a ≤ b

/-- `join` does not return while the worker is inside an iteration. -/
def JoinsResting (s : Fleet) : FleetEvent → Prop
  | .join =>
    match s.pc with
    | .joining _ _ _ r => ∀ l ∈ s.threads[r]?, l.busy = false
    | _ => True
  | _ => True

instance (s : Fleet) : (e : FleetEvent) → Decidable (JoinsResting s e)
  | .join =>
    match h : s.pc with
    | .joining _ _ _ r =>
      match ht : s.threads[r]? with
      | none => isTrue (by simp [JoinsResting, h, ht])
      | some l => decidable_of_iff (l.busy = false) (by simp [JoinsResting, h, ht])
    | .idle | .stopping _ _ | .waking _ _ _ _ | .starting _ => isTrue (by simp [JoinsResting, h])
  | .sync _ _ | .next | .wake | .joinRaises | .start | .loop _ _ => isTrue trivial

/-! ### What is kept -/

/-- Every worker is registered or was taken out; a registered one is the last of its endpoint, and one that was taken
out rests. -/
structure Inv (s : Fleet) : Prop where
  registered : ∀ eid r, s.workers.lookup eid = some r → s.idOf r = some eid
  latest : ∀ eid r, s.workers.lookup eid = some r → ∀ r', s.idOf r' = some eid → r' ≤ r
  accounted : ∀ eid r, s.idOf r = some eid → s.workers.lookup eid = some r ∨ ∃ n, (r, n) ∈ s.removed
  removed : ∀ p ∈ s.removed, (∃ l, s.threads[p.1]? = some l ∧ l.Resting) ∧ p.2 ≤ s.log.length
  logged : ∀ r ∈ s.log, r < s.threads.length
  waking : ∀ endpoints existing eid r, s.pc = .waking endpoints existing eid r →
    s.workers.lookup eid = some r ∧ ∃ l, s.threads[r]? = some l ∧ l.worker.stopped = true
  joining : ∀ endpoints existing eid r, s.pc = .joining endpoints existing eid r →
    s.workers.lookup eid = some r ∧ ∃ l, s.threads[r]? = some l ∧ l.worker.stopped = true
  starting : ∀ w, s.pc = .starting w → ∀ p ∈ w, p.2.id = p.1
  silent : s.Silent
  sequential : s.Sequential

variable {s t : Fleet} {r r' : Ref} {l l' : Loop} {e : FleetEvent} {eid : ℕ} {ep : Endpoint}

theorem inv_new (queueSize : ℕ) : Inv (new queueSize) where
  registered _ _ h := by simp [new] at h
  latest _ _ h := by simp [new] at h
  accounted _ _ h := by simp [new, idOf] at h
  removed _ h := by simp [new] at h
  logged _ h := by simp [new] at h
  waking _ _ _ _ h := by simp [new] at h
  joining _ _ _ _ h := by simp [new] at h
  starting _ h := by simp [new] at h
  silent _ h := by simp [new] at h
  sequential := List.Pairwise.nil

/-- A worker keeps its endpoint while it runs. -/
theorem idOf_set {pc : FleetPc} {log : List Ref} (hr : s.threads[r]? = some l)
    (hep : l'.worker.ep = l.worker.ep) (r' : Ref) :
    idOf { s with threads := s.threads.set r l', pc, log } r' = s.idOf r' := by
  have hlt : r < s.threads.length := (List.getElem?_eq_some_iff.1 hr).1
  unfold idOf
  by_cases h : r' = r
  · subst h
    rw [List.getElem?_set_self hlt, hr, Option.map_some, Option.map_some, hep]
  · rw [List.getElem?_set_ne (Ne.symm h)]

theorem Inv.set (hs : Inv s) (hr : s.threads[r]? = some l) (hep : l'.worker.ep = l.worker.ep)
    (hstop : l.worker.stopped = true → l'.worker.stopped = true) (hrest : l.Resting → l'.Resting) :
    Inv { s with threads := s.threads.set r l' } := by
  have hlt : r < s.threads.length := (List.getElem?_eq_some_iff.1 hr).1
  have hid := @idOf_set s r l l' s.pc s.log hr hep
  have hkeep : ∀ {P : Loop → Prop}, (P l → P l') → ∀ {r' : Ref}, (∃ m, s.threads[r']? = some m ∧ P m) →
      ∃ m, (s.threads.set r l')[r']? = some m ∧ P m := by
    rintro P hP r' ⟨m, hm, hPm⟩
    by_cases h : r' = r
    · subst h
      obtain rfl := Option.some.inj (hr.symm.trans hm)
      exact ⟨l', List.getElem?_set_self hlt, hP hPm⟩
    · exact ⟨m, by rw [List.getElem?_set_ne (Ne.symm h), hm], hPm⟩
  constructor
  · exact fun eid r' h => (hid r').trans (hs.registered eid r' h)
  · exact fun eid r' h r'' h' => hs.latest eid r' h r'' ((hid r'').symm.trans h')
  · exact fun eid r' h => hs.accounted eid r' ((hid r').symm.trans h)
  · exact fun p hp => ⟨hkeep hrest (hs.removed p hp).1, (hs.removed p hp).2⟩
  · exact fun r' h => by simpa using hs.logged r' h
  · exact fun a b c d h => ⟨(hs.waking a b c d h).1, hkeep hstop (hs.waking a b c d h).2⟩
  · exact fun a b c d h => ⟨(hs.joining a b c d h).1, hkeep hstop (hs.joining a b c d h).2⟩
  · exact hs.starting
  · exact hs.silent
  · refine hs.sequential.imp fun hab hidab => hab ?_
    rwa [hid, hid] at hidab

theorem Inv.move (hs : Inv s) {pc : FleetPc}
    (hwaking : ∀ endpoints existing eid r, pc = .waking endpoints existing eid r →
      s.workers.lookup eid = some r ∧ ∃ l, s.threads[r]? = some l ∧ l.worker.stopped = true)
    (hjoining : ∀ endpoints existing eid r, pc = .joining endpoints existing eid r →
      s.workers.lookup eid = some r ∧ ∃ l, s.threads[r]? = some l ∧ l.worker.stopped = true)
    (hstarting : ∀ w, pc = .starting w → ∀ p ∈ w, p.2.id = p.1) : Inv { s with pc } where
  registered := hs.registered
  latest := hs.latest
  accounted := hs.accounted
  removed := hs.removed
  logged := hs.logged
  waking := hwaking
  joining := hjoining
  starting := hstarting
  silent := hs.silent
  sequential := hs.sequential

theorem id_of_mem_wanted {endpoints : List Endpoint} {p : ℕ × Endpoint} (h : p ∈ wanted endpoints) :
    p.2.id = p.1 := by
  obtain ⟨ep, -, rfl⟩ := List.mem_map.1 (Dict.mem_ofItems h)
  rfl

theorem Loop.new_ep (queueSize : ℕ) (ep : Endpoint) : (Loop.new queueSize ep).worker.ep = ep := by
  unfold Loop.new
  split <;> rfl

theorem Inv.startNext (hs : Inv s) {rest : Dict ℕ Endpoint} (hpc : s.pc = .starting ((eid, ep) :: rest)) :
    Inv (s.startNext eid ep rest) := by
  have hrest := hs.starting _ hpc
  have hid : ep.id = eid := hrest _ List.mem_cons_self
  unfold Fleet.startNext
  split
  · rename_i hnone
    have hnew : ∀ r, idOf { s with
        threads := s.threads ++ [Loop.new s.queueSize ep]
        workers := s.workers.insert eid s.threads.length
        pc := .starting rest } r = if r = s.threads.length then some eid else s.idOf r := by
      intro r
      unfold idOf
      rcases Nat.lt_trichotomy r s.threads.length with h | h | h
      · rw [List.getElem?_append_left h, if_neg h.ne]
      · rw [if_pos h, h, List.getElem?_concat_length, Option.map_some, Loop.new_ep, hid]
      · rw [if_neg h.ne', List.getElem?_eq_none (by simpa using Nat.succ_le_of_lt h),
          List.getElem?_eq_none h.le]
    have hold : ∀ {r}, s.idOf r ≠ none → r < s.threads.length := by
      intro r h
      by_contra hge
      exact h (by rw [idOf, List.getElem?_eq_none (not_lt.1 hge), Option.map_none])
    have hkeep : ∀ {P : Loop → Prop} {r : Ref}, (∃ m, s.threads[r]? = some m ∧ P m) →
        ∃ m, (s.threads ++ [Loop.new s.queueSize ep])[r]? = some m ∧ P m := by
      rintro P r ⟨m, hm, hP⟩
      exact ⟨m, by rw [List.getElem?_append_left (List.getElem?_eq_some_iff.1 hm).1, hm], hP⟩
    constructor
    · intro eid' r h
      rw [hnew]
      rcases Table.lookup_insert_cases h with ⟨rfl, rfl⟩ | ⟨-, h⟩
      · rw [if_pos rfl]
      · have := hs.registered eid' r h
        rw [if_neg (hold (by simp [this])).ne, this]
    · intro eid' r h r' h'
      rw [hnew] at h'
      rcases Table.lookup_insert_cases h with ⟨rfl, rfl⟩ | ⟨hne, h⟩
      · split at h'
        · rename_i hr
          exact hr.le
        · exact (hold (by simp [h'])).le
      · split at h'
        · exact absurd (Option.some.inj h').symm hne
        · exact hs.latest eid' r h r' h'
    · intro eid' r h
      rw [hnew] at h
      split at h
      · rename_i hr
        obtain rfl := Option.some.inj h
        exact Or.inl (by rw [hr]; exact AList.lookup_insert _)
      · rcases hs.accounted eid' r h with h' | h'
        · refine Or.inl ?_
          have hne : eid' ≠ eid := by
            rintro rfl
            cases hnone.symm.trans h'
          exact (AList.lookup_insert_ne hne).trans h'
        · exact Or.inr h'
    · exact fun p hp => ⟨hkeep (hs.removed p hp).1, (hs.removed p hp).2⟩
    · exact fun r h => (hs.logged r h).trans_le (List.length_append ▸ Nat.le_add_right _ _)
    · exact fun _ _ _ _ h => FleetPc.noConfusion h
    · exact fun _ _ _ _ h => FleetPc.noConfusion h
    · rintro w ⟨⟩ p hp
      exact hrest p (List.mem_cons_of_mem _ hp)
    · exact hs.silent
    · refine hs.sequential.imp_of_mem fun {a b} ha hb hab hidab => hab ?_
      rwa [hnew, hnew, if_neg (hs.logged a ha).ne, if_neg (hs.logged b hb).ne] at hidab
  · refine hs.move (fun _ _ _ _ h => FleetPc.noConfusion h) (fun _ _ _ _ h => FleetPc.noConfusion h) ?_
    rintro w ⟨⟩ p hp
    exact hrest p (List.mem_cons_of_mem _ hp)

theorem Inv.join (hs : Inv s) {endpoints : List Endpoint} {existing : List ℕ}
    (hpc : s.pc = .joining endpoints existing eid r) (hrest : ∀ l ∈ s.threads[r]?, l.busy = false) :
    Inv { s with
      workers := s.workers.erase eid, pc := .stopping endpoints existing
      removed := s.removed ++ [(r, s.log.length)] } := by
  obtain ⟨hreg, l, hl, hstop⟩ := hs.joining _ _ _ _ hpc
  constructor
  · exact fun eid' r' h => hs.registered eid' r' (Table.lookup_erase_cases h).2
  · exact fun eid' r' h => hs.latest eid' r' (Table.lookup_erase_cases h).2
  · intro eid' r' h
    rcases hs.accounted eid' r' h with h' | ⟨n, h'⟩
    · by_cases he : eid' = eid
      · subst he
        obtain rfl := Option.some.inj (hreg.symm.trans h')
        exact Or.inr ⟨_, List.mem_append_right _ (List.mem_singleton_self _)⟩
      · exact Or.inl ((AList.lookup_erase_ne he).trans h')
    · exact Or.inr ⟨n, List.mem_append_left _ h'⟩
  · intro p hp
    rcases List.mem_append.1 hp with hp | hp
    · exact hs.removed p hp
    · obtain rfl := List.mem_singleton.1 hp
      exact ⟨⟨l, hl, hstop, hrest l hl⟩, le_rfl⟩
  · exact hs.logged
  · exact fun _ _ _ _ h => FleetPc.noConfusion h
  · exact fun _ _ _ _ h => FleetPc.noConfusion h
  · exact fun _ h => FleetPc.noConfusion h
  · intro p hp
    rcases List.mem_append.1 hp with hp | hp
    · exact hs.silent p hp
    · obtain rfl := List.mem_singleton.1 hp
      simp
  · exact hs.sequential

theorem Inv.loop (hs : Inv s) {e : LoopEvent} (hr : s.threads[r]? = some l) (hstep : l.step e = some l') :
    Inv { s with
      threads := s.threads.set r l', log := s.log ++ List.replicate (l'.sent - l.sent) r } := by
  obtain ⟨hep, hstop⟩ := Loop.step_frame hstep
  have hset := hs.set hr hep hstop fun hl => (Loop.step_resting hl hstep).1
  have hlt : r < s.threads.length := (List.getElem?_eq_some_iff.1 hr).1
  -- what was taken out does not send
  have hout : ∀ n, (r, n) ∈ s.removed → l'.sent - l.sent = 0 := by
    intro n hn
    obtain ⟨⟨m, hm, hrest⟩, -⟩ := hs.removed _ hn
    obtain rfl := Option.some.inj (hr.symm.trans hm)
    rw [(Loop.step_resting hrest hstep).2, Nat.sub_self]
  have hid := fun log => @idOf_set s r l l' s.pc log hr hep
  refine ⟨hset.registered, hset.latest, hset.accounted, fun p hp => ⟨(hset.removed p hp).1, ?_⟩, ?_, hset.waking,
    hset.joining, hset.starting, ?_, ?_⟩
  · exact (hs.removed p hp).2.trans (by simp)
  · intro r' h
    rcases List.mem_append.1 h with h | h
    · exact hset.logged r' h
    · obtain rfl := List.eq_of_mem_replicate h
      simpa using hlt
  · intro p hp hmem
    rw [List.drop_append_of_le_length (hs.removed p hp).2] at hmem
    rcases List.mem_append.1 hmem with h | h
    · exact hs.silent p hp h
    · obtain rfl : p.1 = r := List.eq_of_mem_replicate h
      rw [hout p.2 hp] at h
      cases h
  · refine List.pairwise_append.2 ⟨?_, ?_, ?_⟩
    · refine hs.sequential.imp fun hab hidab => hab ?_
      rwa [hid, hid] at hidab
    · refine List.pairwise_of_forall_mem_list fun a ha b hb _ => ?_
      rw [List.eq_of_mem_replicate ha, List.eq_of_mem_replicate hb]
    · intro a ha b hb hidab
      obtain rfl := List.eq_of_mem_replicate hb
      rw [hid, hid] at hidab
      have hide : s.idOf b = some l.worker.ep.id := by rw [idOf, hr, Option.map_some]
      rcases hs.accounted _ b hide with hreg | ⟨n, hn⟩
      · exact hs.latest _ b hreg a (hidab.trans hide)
      · rw [hout n hn] at hb
        cases hb

theorem Inv.step (hs : Inv s) (hc : JoinsResting s e) (h : s.step e = some t) : Inv t := by
  have hno : ∀ {pc : FleetPc}, (∀ a b c d, pc ≠ .waking a b c d) → (∀ a b c d, pc ≠ .joining a b c d) →
      (∀ w, pc ≠ .starting w) → Inv { s with pc } := fun h1 h2 h3 =>
    hs.move (fun a b c d h => absurd h (h1 a b c d)) (fun a b c d h => absurd h (h2 a b c d))
      fun w h => absurd h (h3 w)
  cases e with
  | sync endpoints existing =>
    simp only [Fleet.step] at h
    split at h
    · split at h
      · obtain rfl := Option.some.inj h
        exact hno (fun _ _ _ _ => FleetPc.noConfusion) (fun _ _ _ _ => FleetPc.noConfusion)
          fun _ => FleetPc.noConfusion
      · cases h
    · cases h
  | next =>
    simp only [Fleet.step] at h
    split at h
    · rename_i endpoints _
      obtain rfl := Option.some.inj h
      refine hs.move (fun _ _ _ _ h => FleetPc.noConfusion h) (fun _ _ _ _ h => FleetPc.noConfusion h) ?_
      rintro w ⟨⟩ p hp
      exact id_of_mem_wanted hp
    · rename_i endpoints eid existing _
      unfold stopNext at h
      split at h
      · cases h
      · rename_i r hreg
        split at h
        · cases h
        · rename_i l hr
          split at h
          · obtain ⟨l', hl', rfl⟩ := Option.map_eq_some_iff.1 h
            obtain ⟨hep, hbusy, hstop⟩ := Loop.setStop_spec hl'
            have hset := hs.set hr hep (fun _ => hstop) fun hl => ⟨hstop, hbusy.trans hl.idle⟩
            refine hset.move ?_ (fun _ _ _ _ h => FleetPc.noConfusion h) fun _ h => FleetPc.noConfusion h
            rintro _ _ _ _ ⟨⟩
            exact ⟨hreg, l', List.getElem?_set_self (List.getElem?_eq_some_iff.1 hr).1, hstop⟩
          · obtain rfl := Option.some.inj h
            exact hno (fun _ _ _ _ => FleetPc.noConfusion) (fun _ _ _ _ => FleetPc.noConfusion)
              fun _ => FleetPc.noConfusion
    · cases h
  | wake =>
    simp only [Fleet.step] at h
    split at h
    · rename_i endpoints existing eid r hpc
      obtain ⟨l, hr, h⟩ := Option.bind_eq_some_iff.1 h
      obtain ⟨l', hl', rfl⟩ := Option.map_eq_some_iff.1 h
      obtain ⟨hep, hbusy, hstop⟩ := Loop.wake_spec hl'
      obtain ⟨hreg, m, hm, hmstop⟩ := hs.waking _ _ _ _ hpc
      obtain rfl := Option.some.inj (hr.symm.trans hm)
      have hset := hs.set hr hep hstop fun hl => ⟨hstop hl.stopped, hbusy.trans hl.idle⟩
      refine hset.move (fun _ _ _ _ h => FleetPc.noConfusion h) ?_ fun _ h => FleetPc.noConfusion h
      rintro _ _ _ _ ⟨⟩
      exact ⟨hreg, l', List.getElem?_set_self (List.getElem?_eq_some_iff.1 hr).1, hstop hmstop⟩
    · cases h
  | join =>
    simp only [Fleet.step] at h
    split at h
    · rename_i endpoints existing eid r hpc
      obtain rfl := Option.some.inj h
      exact hs.join hpc (by simpa [JoinsResting, hpc] using hc)
    · cases h
  | joinRaises =>
    simp only [Fleet.step] at h
    split at h
    · obtain rfl := Option.some.inj h
      exact hno (fun _ _ _ _ => FleetPc.noConfusion) (fun _ _ _ _ => FleetPc.noConfusion)
        fun _ => FleetPc.noConfusion
    · cases h
  | start =>
    simp only [Fleet.step] at h
    split at h
    · obtain rfl := Option.some.inj h
      exact hno (fun _ _ _ _ => FleetPc.noConfusion) (fun _ _ _ _ => FleetPc.noConfusion)
        fun _ => FleetPc.noConfusion
    · rename_i eid ep rest hpc
      obtain rfl := Option.some.inj h
      exact hs.startNext hpc
    · cases h
  | loop r e =>
    simp only [Fleet.step] at h
    split at h
    · obtain ⟨l, hr, h⟩ := Option.bind_eq_some_iff.1 h
      obtain ⟨l', hl', rfl⟩ := Option.map_eq_some_iff.1 h
      exact hs.loop hr hl'
    · cases h

end Fleet

/-- **A replaced worker falls silent.**  In every run in which no `join` returns while its worker is inside an
iteration of its loop, a worker sends nothing after it was taken out of the registry, and the workers of one endpoint
send one after the other. -/
theorem replaced_silent {queueSize : ℕ} {es : List FleetEvent} {s : Fleet}
    (hg : Guarded Fleet.step Fleet.JoinsResting (Fleet.new queueSize) es)
    (h : run Fleet.step (Fleet.new queueSize) es = some s) : s.Silent ∧ s.Sequential := by
  have hinv := run_inv (I := Fleet.Inv) (fun _ _ _ hs hc h => hs.step hc h) (Fleet.inv_new queueSize) hg h
  exact ⟨hinv.silent, hinv.sequential⟩

/-- A station on a port. -/
def stationOn (port : ℤ) : Endpoint where
  id := 1
  name := .text ['A']
  protocol := .text "tcp".toList
  host := .text ['H']
  port := .int port
  path := .null
  enabled := true
  createdAt := 0
  updatedAt := 0

/-- The endpoint is started and gets a sentence, which its worker is about to connect for. -/
def startedStation : List FleetEvent :=
  [.sync [stationOn 4001] [], .next, .start, .start, .loop 0 (.tcp (.put ['s'])), .loop 0 (.tcp .check)]

/-- The worker connects, takes its sentence and sends it. -/
def connectAndSend (r : Ref) : List FleetEvent :=
  [.loop r (.tcp (.connect .ok)), .loop r (.tcp .get), .loop r (.tcp (.send none 5))]

/-- The other port is stored, the worker told to stop. -/
def editStation : List FleetEvent := [.sync [stationOn 4002] [1], .next, .wake]

/-- The worker is taken out and its replacement started; it gets a sentence as well. -/
def replaceStation : List FleetEvent :=
  [.join, .next, .start, .start, .loop 1 (.tcp (.put ['t'])), .loop 1 (.tcp .check)]

/-- The worker reads its flag before `join` returns. -/
theorem replaced_silent_edited :
    ∃ s, run Fleet.step (Fleet.new 9) (startedStation ++ connectAndSend 0 ++ editStation ++
        [.loop 0 (.tcp .check)] ++ replaceStation ++ connectAndSend 1) = some s ∧
      s.log = [0, 1] ∧ s.Silent ∧ s.Sequential := by
  have hrun : (run Fleet.step (Fleet.new 9) (startedStation ++ connectAndSend 0 ++ editStation ++
        [.loop 0 (.tcp .check)] ++ replaceStation ++ connectAndSend 1)).map (·.log) = some [0, 1] := by
    decide +kernel
  obtain ⟨s, hs, hlog⟩ := Option.map_eq_some_iff.1 hrun
  exact ⟨s, hs, hlog, replaced_silent (by decide +kernel) hs⟩

/-- The worker is still connecting when `join` gives up: it sends after its replacement has sent. -/
theorem replaced_silent_fails :
    ∃ s, run Fleet.step (Fleet.new 9) (startedStation ++ editStation ++ replaceStation ++ connectAndSend 1 ++
        connectAndSend 0) = some s ∧ ¬s.Silent ∧ ¬s.Sequential := by
  have hrun : (run Fleet.step (Fleet.new 9) (startedStation ++ editStation ++ replaceStation ++
      connectAndSend 1 ++ connectAndSend 0)).map (fun s => (s.removed, s.log, s.idOf 0, s.idOf 1)) =
      some ([(0, 0)], [1, 0], some 1, some 1) := by decide +kernel
  obtain ⟨s, hs, hfacts⟩ := Option.map_eq_some_iff.1 hrun
  obtain ⟨hremoved, hlog, h0, h1⟩ : _ ∧ _ ∧ _ ∧ _ := by simpa using hfacts
  refine ⟨s, hs, fun hsilent => ?_, fun hseq => ?_⟩
  · exact hsilent (0, 0) (by simp [hremoved]) (by simp [hlog])
  · rw [Fleet.Sequential, hlog] at hseq
    exact absurd ((List.pairwise_cons.1 hseq).1 0 (by simp) (h1.trans h0.symm)) (by decide)

end AisServer.Forward
