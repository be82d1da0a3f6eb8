import AisServer.Forward.Fleet

/-!
# The fan-out

`Hub` puts `dispatch` beside the fleet of workers: the output loop copies the registered workers under the lock that
`sync` holds while it runs, and then calls `put` on each of them, without the lock, while the workers and `sync` go on.

* `Hub.Inv.step` — what a worker was given, with what the `dispatch` under way is still to give to it, is its window;
* `fan_out` — every worker is given exactly what was dispatched from the time at which it was started to the time at
  which it was taken out, in that order, and its loop runs as it would on its own;
* `dispatch_wait_free` — a `dispatch` that has the copy comes to its end whatever the workers do.
-/

namespace AisServer.Forward

open AisServer.Lib AisServer.Store

/-! ### The output loop and the fleet -/

/-- A step of `put`. -/
def FleetEvent.feeds : FleetEvent → Bool
  | .loop _ e => e.feeds
  | _ => false

/-- Where the output loop stands in `dispatch`. -/
inductive DispatchPc
  | idle
  /-- At the head of the loop over the copy of the workers. -/
  | next (sentence : Str) (rest : List Ref)
  /-- Inside the `put` of a worker whose queue was full. -/
  | putting (sentence : Str) (rest : List Ref) (r : Ref)

/-- The fleet with the output loop.  `joined` and `left` are the lengths of `dispatched` at which a worker was started
and taken out. -/
structure Hub where
  fleet : Fleet
  pc : DispatchPc := .idle
  dispatched : List Str := []
  /-- The calls of `put`. -/
  puts : List (Ref × Str) := []
  joined : List ℕ := []
  left : List (Ref × ℕ) := []

inductive HubEvent
  | fleet (e : FleetEvent)
  | dispatch (sentence : Str)
  /-- `put` for the next worker, up to its first operation of the queue. -/
  | put
  /-- The next operation of a `put` that found a full queue. -/
  | resume
  | ret

namespace Hub

def new (queueSize : ℕ) : Hub := { fleet := Fleet.new queueSize }

/-- The fleet has made a step. -/
def observe (s : Hub) (t : Fleet) : Hub :=
  { s with
    fleet := t
    joined := s.joined ++ List.replicate (t.threads.length - s.fleet.threads.length) s.dispatched.length
    left := s.left ++ (t.removed.drop s.fleet.removed.length).map fun p => (p.1, s.dispatched.length) }

/-- A step inside the `put` of a worker. -/
def feed (s : Hub) (sentence : Str) (rest : List Ref) (r : Ref) (e : LoopEvent) : Option Hub :=
  (s.fleet.step (.loop r e)).map fun t =>
    { s with
      fleet := t
      pc := if (t.threads[r]?).all fun l => l.producer = .idle then .next sentence rest
        else .putting sentence rest r }

def step (s : Hub) : HubEvent → Option Hub
  | .fleet e => if e.feeds then none else (s.fleet.step e).map s.observe
  | .dispatch sentence =>
    match s.pc, s.fleet.pc with
    -- `sync` holds the lock as long as it runs
    | .idle, .idle => some { s with
        pc := .next sentence s.fleet.registered, dispatched := s.dispatched ++ [sentence] }
    | _, _ => none
  | .put =>
    match s.pc with
    | .next sentence (r :: rest) =>
      (s.fleet.threads[r]?).bind fun l =>
        (s.feed sentence rest r (l.putEvent sentence)).map fun t => { t with puts := t.puts ++ [(r, sentence)] }
    | _ => none
  | .resume =>
    match s.pc with
    | .putting sentence rest r =>
      (s.fleet.threads[r]?).bind fun l => (l.resumeEvent).bind fun e => s.feed sentence rest r e
    | _ => none
  | .ret =>
    match s.pc with
    | .next _ [] => some { s with pc := .idle }
    | _ => none

/-! ### What a step can do -/

variable {s t : Hub} {sentence : Str} {rest : List Ref} {r r' : Ref} {l l' : Loop} {e : LoopEvent}

theorem step_fleet {e : FleetEvent} (h : s.step (.fleet e) = some t) :
    e.feeds = false ∧ ∃ u, s.fleet.step e = some u ∧ t = s.observe u := by
  rw [step] at h
  split at h
  · cases h
  · rename_i he
    obtain ⟨u, hu, rfl⟩ := Option.map_eq_some_iff.1 h
    exact ⟨by simpa using he, u, hu, rfl⟩

theorem step_dispatch (h : s.step (.dispatch sentence) = some t) : s.pc = .idle ∧ s.fleet.pc = .idle ∧
    t = { s with pc := .next sentence s.fleet.registered, dispatched := s.dispatched ++ [sentence] } := by
  simp only [step] at h
  split at h
  · rename_i hpc hlock
    exact ⟨hpc, hlock, (Option.some.inj h).symm⟩
  · cases h

theorem step_ret (h : s.step .ret = some t) : ∃ sentence, s.pc = .next sentence [] ∧ t = { s with pc := .idle } := by
  simp only [step] at h
  split at h
  · rename_i sentence hpc
    exact ⟨sentence, hpc, (Option.some.inj h).symm⟩
  · cases h

/-- The state after a step inside the `put` of a worker. -/
def fed (s : Hub) (sentence : Str) (rest : List Ref) (r : Ref) (l l' : Loop) (e : LoopEvent) : Hub :=
  { s with
    fleet := { s.fleet with
      threads := s.fleet.threads.set r l', log := s.fleet.log ++ List.replicate (l'.sent - l.sent) r }
    pc := if l'.producer = .idle then .next sentence rest else .putting sentence rest r
    puts := s.puts ++ e.given.map fun q => (r, q) }

/-- Where the output loop comes from when it is inside a `put`. -/
inductive Feeding (s : Hub) (sentence : Str) (rest : List Ref) (r : Ref) (l : Loop) (e : LoopEvent) : Prop
  | put (hpc : s.pc = .next sentence (r :: rest)) (hevent : e = l.putEvent sentence)
  | resume (hpc : s.pc = .putting sentence rest r) (hevent : l.resumeEvent = some e)

theorem Feeding.own (hf : s.Feeding sentence rest r l e) : e.own = true := by
  cases hf with
  | put hpc hevent => rw [hevent, Loop.own_putEvent]
  | resume hpc hevent => exact (Loop.resumeEvent_spec hevent).2

theorem feed_eq (hr : s.fleet.threads[r]? = some l) (hown : e.own = true) (hstep : l.step e = some l') :
    s.feed sentence rest r e = some { s.fed sentence rest r l l' e with puts := s.puts } := by
  have hget : (s.fleet.threads.set r l')[r]? = some l' :=
    List.getElem?_set_self (List.getElem?_eq_some_iff.1 hr).1
  unfold feed fed
  rw [Fleet.step_loop hown hr hstep, Option.map_some]
  simp only [hget, Option.all_some, decide_eq_true_eq]

theorem feed_spec (hr : s.fleet.threads[r]? = some l) (hown : e.own = true)
    (h : s.feed sentence rest r e = some t) :
    ∃ l', l.step e = some l' ∧ t = { s.fed sentence rest r l l' e with puts := s.puts } := by
  rcases hstep : l.step e with _ | l'
  · simp [feed, Fleet.step, hown, hr, hstep] at h
  · rw [feed_eq hr hown hstep] at h
    exact ⟨l', rfl, (Option.some.inj h).symm⟩

theorem step_put (h : s.step .put = some t) : ∃ sentence rest r l l' e,
    s.Feeding sentence rest r l e ∧ s.fleet.threads[r]? = some l ∧ l.step e = some l' ∧
      t = s.fed sentence rest r l l' e := by
  simp only [step] at h
  split at h
  · rename_i sentence r rest hpc
    obtain ⟨l, hr, h⟩ := Option.bind_eq_some_iff.1 h
    obtain ⟨u, hu, rfl⟩ := Option.map_eq_some_iff.1 h
    obtain ⟨l', hstep, rfl⟩ := feed_spec hr (l.own_putEvent sentence) hu
    refine ⟨sentence, rest, r, l, l', _, .put hpc rfl, hr, hstep, ?_⟩
    simp [fed]
  · cases h

theorem step_resume (h : s.step .resume = some t) : ∃ sentence rest r l l' e,
    s.Feeding sentence rest r l e ∧ s.fleet.threads[r]? = some l ∧ l.step e = some l' ∧
      t = s.fed sentence rest r l l' e := by
  simp only [step] at h
  split at h
  · rename_i sentence rest r hpc
    obtain ⟨l, hr, h⟩ := Option.bind_eq_some_iff.1 h
    obtain ⟨e, he, h⟩ := Option.bind_eq_some_iff.1 h
    obtain ⟨hgiven, hown⟩ := Loop.resumeEvent_spec he
    obtain ⟨l', hstep, rfl⟩ := feed_spec hr hown h
    refine ⟨sentence, rest, r, l, l', e, .resume hpc he, hr, hstep, ?_⟩
    simp [fed, hgiven]
  · cases h

/-! ### What a worker is given -/

end Hub

namespace DispatchPc

/-- The workers of the copy that `dispatch` has not come to. -/
def rest : DispatchPc → List Ref
  | .idle => []
  | .next _ rest | .putting _ rest _ => rest

/-- What `dispatch` is still to give to a worker. -/
def pending (r : Ref) : DispatchPc → List Str
  | .idle => []
  | .next sentence rest | .putting sentence rest _ => if r ∈ rest then [sentence] else []

end DispatchPc

namespace Hub

variable {s t : Hub} {sentence : Str} {rest : List Ref} {r r' : Ref} {l l' : Loop} {e : LoopEvent}

/-- What a worker was given. -/
def received (s : Hub) (r : Ref) : List Str := (s.puts.filter fun p => p.1 = r).map (·.2)

/-- What had been dispatched when the worker was started. -/
def joinedAt (s : Hub) (r : Ref) : ℕ := s.joined.getD r 0

/-- What had been dispatched when the worker was taken out. -/
def leftAt (s : Hub) (r : Ref) : ℕ := ((s.left.find? fun p => p.1 = r).map (·.2)).getD s.dispatched.length

/-- What was dispatched while the worker was registered. -/
def window (s : Hub) (r : Ref) : List Str := (s.dispatched.take (s.leftAt r)).drop (s.joinedAt r)

structure Inv (s : Hub) : Prop where
  registered : s.fleet.WellRegistered
  joined : s.joined.length = s.fleet.threads.length
  joined_le : ∀ n ∈ s.joined, n ≤ s.dispatched.length
  left : s.left.map Prod.fst = s.fleet.removed.map Prod.fst
  left_le : ∀ p ∈ s.left, p.2 ≤ s.dispatched.length
  nodup : s.pc.rest.Nodup
  copied : ∀ r ∈ s.pc.rest, r < s.fleet.threads.length
  putting : ∀ sentence rest r, s.pc = .putting sentence rest r → r < s.fleet.threads.length
  producing : ∀ r l, s.fleet.threads[r]? = some l →
    (l.producer ≠ .idle ↔ ∃ sentence rest, s.pc = .putting sentence rest r)
  puts : ∀ p ∈ s.puts, p.1 < s.fleet.threads.length
  window : ∀ r < s.fleet.threads.length, s.received r ++ s.pc.pending r = s.window r
  runs : ∀ r l, s.fleet.threads[r]? = some l → ∃ ep es,
    run Loop.step (Loop.new s.fleet.queueSize ep) es = some l ∧ Loop.given es = s.received r

theorem inv_new (queueSize : ℕ) : Inv (new queueSize) where
  registered := Fleet.wellRegistered_new queueSize
  joined := rfl
  joined_le _ h := by simp [new] at h
  left := rfl
  left_le _ h := by simp [new] at h
  nodup := List.nodup_nil
  copied _ h := by simp [new, DispatchPc.rest] at h
  putting _ _ _ h := DispatchPc.noConfusion h
  producing _ _ h := by simp [new, Fleet.new] at h
  puts _ h := by simp [new] at h
  window _ h := absurd h (Nat.not_lt_zero _)
  runs _ _ h := by simp [new, Fleet.new] at h

theorem Inv.joinedAt_le (hs : Inv s) (hr : r < s.fleet.threads.length) : s.joinedAt r ≤ s.dispatched.length := by
  unfold joinedAt
  rw [List.getD_eq_getElem?_getD, List.getElem?_eq_getElem (hs.joined ▸ hr), Option.getD_some]
  exact hs.joined_le _ (List.getElem_mem _)

theorem received_of_lt (hs : ∀ p ∈ s.puts, p.1 < r) : s.received r = [] := by
  unfold received
  rw [List.filter_eq_nil_iff.2 fun p hp => by simpa using (hs p hp).ne, List.map_nil]

theorem window_of_find_none {pc : DispatchPc} (hfind : s.left.find? (fun p => p.1 = r) = none)
    (hjoin : s.joinedAt r ≤ s.dispatched.length) :
    window { s with pc, dispatched := s.dispatched ++ [sentence] } r = s.window r ++ [sentence] := by
  unfold window leftAt
  simp only [hfind, Option.map_none, Option.getD_none, List.take_length]
  exact List.drop_append_of_le_length hjoin

theorem window_of_find_some {pc : DispatchPc} {p : Ref × ℕ} (hfind : s.left.find? (fun p => p.1 = r) = some p)
    (hle : p.2 ≤ s.dispatched.length) :
    window { s with pc, dispatched := s.dispatched ++ [sentence] } r = s.window r := by
  unfold window leftAt
  simp only [hfind, Option.map_some, Option.getD_some]
  rw [List.take_append_of_le_length hle]
  rfl

theorem Inv.dispatch (hs : Inv s) (hpc : s.pc = .idle) : Inv { s with
    pc := .next sentence s.fleet.registered, dispatched := s.dispatched ++ [sentence] } := by
  have hle : ∀ {n}, n ≤ s.dispatched.length → n ≤ (s.dispatched ++ [sentence]).length := fun h =>
    h.trans (by simp)
  have hproducing : ∀ (r : Ref) (l : Loop), s.fleet.threads[r]? = some l → l.producer = .idle := by
    intro r l hr
    by_contra hp
    obtain ⟨sentence, rest, h⟩ := (hs.producing r l hr).1 hp
    rw [hpc] at h
    cases h
  refine ⟨hs.registered, hs.joined, fun n hn => hle (hs.joined_le n hn), hs.left,
    fun p hp => hle (hs.left_le p hp), ?_, ?_, fun _ _ _ h => DispatchPc.noConfusion h, ?_, hs.puts, ?_, hs.runs⟩
  · -- a worker is registered under one key
    show s.fleet.registered.Nodup
    unfold Fleet.registered
    rw [List.nodup_reverse]
    refine List.Nodup.map_on ?_ s.fleet.workers.nodupKeys.nodup
    rintro ⟨eid, r⟩ hr ⟨eid', r'⟩ hr' (rfl : r = r')
    obtain rfl := hs.registered.inj eid eid' r (AList.mem_lookup_iff.2 hr) (AList.mem_lookup_iff.2 hr')
    rfl
  · intro r hr
    obtain ⟨eid, h⟩ := Fleet.mem_registered.1 hr
    exact hs.registered.lt eid r h
  · intro r l hr
    refine ⟨fun hp => absurd (hproducing r l hr) hp, ?_⟩
    rintro ⟨_, _, ⟨⟩⟩
  · intro r hr
    have hwin := hs.window r hr
    have hjoin : s.joinedAt r ≤ s.dispatched.length := hs.joinedAt_le hr
    rw [hpc, DispatchPc.pending, List.append_nil] at hwin
    show s.received r ++ (if r ∈ s.fleet.registered then [sentence] else []) = _
    rw [hwin]
    rcases hfind : s.left.find? fun p => p.1 = r with _ | p
    · -- a worker that was not taken out is registered
      have hnot : r ∉ s.fleet.removed.map Prod.fst := by
        rw [← hs.left, List.mem_map]
        rintro ⟨p, hp, rfl⟩
        exact List.find?_eq_none.1 hfind p hp (by simp)
      have hreg : r ∈ s.fleet.registered :=
        Fleet.mem_registered.2 ((hs.registered.accounted r hr).resolve_right hnot)
      rw [if_pos hreg, window_of_find_none hfind hjoin]
    · have hmem := List.mem_of_find?_eq_some hfind
      have hrp : p.1 = r := by simpa using List.find?_some hfind
      have hnot : r ∉ s.fleet.registered := by
        intro hreg
        obtain ⟨eid, h⟩ := Fleet.mem_registered.1 hreg
        have hout : r ∈ s.fleet.removed.map Prod.fst := hs.left ▸ List.mem_map.2 ⟨p, hmem, hrp⟩
        exact (hs.registered.removed r hout).2 eid h
      rw [if_neg hnot, List.append_nil, window_of_find_some hfind (hs.left_le p hmem)]

/-- A step of the fleet does not change what a worker is to be given. -/
theorem window_observe {t : Fleet} (hr : r < s.joined.length) : (s.observe t).window r = s.window r := by
  have hleft : (s.observe t).leftAt r = s.leftAt r := by
    have hnew : ∀ p ∈ ((t.removed.drop s.fleet.removed.length).map fun p => (p.1, s.dispatched.length)).find?
        (fun p => p.1 = r), p.2 = s.dispatched.length := by
      intro p hp
      obtain ⟨q, -, rfl⟩ := List.mem_map.1 (List.mem_of_find?_eq_some hp)
      rfl
    unfold leftAt observe
    simp only [List.find?_append]
    cases hfind : s.left.find? fun p => p.1 = r with
    | some p => simp only [Option.some_or]
    | none =>
      -- what is taken out now leaves at the length that the default stands for
      simp only [Option.none_or]
      cases hout : ((t.removed.drop s.fleet.removed.length).map fun p => (p.1, s.dispatched.length)).find?
          fun p => p.1 = r with
      | none => simp only
      | some p => simpa using hnew p hout
  have hjoined : (s.observe t).joinedAt r = s.joinedAt r := by
    unfold joinedAt observe
    rw [List.getD_eq_getElem?_getD, List.getD_eq_getElem?_getD, List.getElem?_append_left hr]
  unfold window
  rw [hleft, hjoined]
  rfl

theorem window_started {t : Fleet} (hlen : s.joined.length = s.fleet.threads.length)
    (hgrow : t.threads.length = s.fleet.threads.length + 1) :
    (s.observe t).window s.fleet.threads.length = [] := by
  have hjoined : (s.observe t).joinedAt s.fleet.threads.length = s.dispatched.length := by
    unfold joinedAt observe
    rw [List.getD_eq_getElem?_getD, List.getElem?_append_right hlen.le, hlen, Nat.sub_self, hgrow,
      Nat.add_sub_cancel_left]
    rfl
  unfold window
  rw [hjoined]
  exact List.drop_eq_nil_of_le ((List.length_take_le' _ _).trans le_rfl)

theorem Inv.fleet (hs : Inv s) {e : FleetEvent} {t : Fleet} (he : e.feeds = false) (h : s.fleet.step e = some t) :
    Inv (s.observe t) := by
  have hreg := hs.registered.step h
  have hgrow : s.fleet.threads.length ≤ t.threads.length ∧ t.threads.length ≤ s.fleet.threads.length + 1 := by
    cases Fleet.step_registry h with
    | same hworkers hremoved hlen hstopping => omega
    | out eid r hstopping hworkers hremoved hthreads hpc => rw [hthreads]; omega
    | started eid ep hnew hworkers hremoved hthreads hpc => rw [hthreads, List.length_append]; simp
  have hnew : s.received s.fleet.threads.length = [] := received_of_lt hs.puts
  refine ⟨hreg, ?_, ?_, ?_, ?_, hs.nodup, fun r hr => (hs.copied r hr).trans_le hgrow.1,
    fun _ _ r hr => (hs.putting _ _ r hr).trans_le hgrow.1, ?_, fun p hp => (hs.puts p hp).trans_le hgrow.1, ?_, ?_⟩
  · show (s.joined ++ List.replicate (t.threads.length - s.fleet.threads.length) _).length = t.threads.length
    rw [List.length_append, List.length_replicate, hs.joined]
    omega
  · intro n hn
    rcases List.mem_append.1 hn with hn | hn
    · exact hs.joined_le n hn
    · exact (List.eq_of_mem_replicate hn).le
  · show (s.left ++ _).map Prod.fst = t.removed.map Prod.fst
    rw [List.map_append, hs.left, List.map_map]
    cases Fleet.step_registry h with
    | same hworkers hremoved hlen hstopping => simp [hremoved]
    | out eid r hstopping hworkers hremoved hthreads hpc => simp [hremoved]
    | started eid ep hnew hworkers hremoved hthreads hpc => simp [hremoved]
  · intro p hp
    rcases List.mem_append.1 hp with hp | hp
    · exact hs.left_le p hp
    · obtain ⟨q, -, rfl⟩ := List.mem_map.1 hp
      exact le_rfl
  · intro r m hm
    cases Fleet.step_worker h hm with
    | same hr => exact hs.producing r m hr
    | stepped l le hr hstep hevent =>
      have hquiet : le.feeds = false := by
        rcases hevent with hle | rfl
        · exact hle
        · exact he
      rw [(Loop.step_quiet hstep hquiet).1]
      exact hs.producing r l hr
    | started ep hr hm =>
      have hidle : m.producer = .idle := by
        rw [hm]
        unfold Loop.new
        split <;> rfl
      refine ⟨fun hp => absurd hidle hp, ?_⟩
      rintro ⟨sentence, rest, hpc⟩
      exact absurd (hr ▸ hs.putting _ _ r hpc) (lt_irrefl _)
  · intro r hr
    show s.received r ++ s.pc.pending r = _
    rcases Nat.lt_or_ge r s.fleet.threads.length with hlt | hge
    · rw [window_observe (hs.joined ▸ hlt)]
      exact hs.window r hlt
    · have hr : r < t.threads.length := hr
      obtain rfl : r = s.fleet.threads.length := by omega
      have hpending : s.pc.pending s.fleet.threads.length = [] := by
        have hrest : s.fleet.threads.length ∉ s.pc.rest := fun hmem => lt_irrefl _ (hs.copied _ hmem)
        cases hpc : s.pc with
        | idle => rfl
        | next sentence rest =>
          rw [hpc] at hrest
          exact if_neg hrest
        | putting sentence rest r =>
          rw [hpc] at hrest
          exact if_neg hrest
      rw [hnew, hpending, window_started hs.joined (by omega)]
      rfl
  · intro r m hm
    show ∃ ep es, run Loop.step (Loop.new t.queueSize ep) es = some m ∧ Loop.given es = s.received r
    rw [Fleet.step_queueSize h]
    cases Fleet.step_worker h hm with
    | same hr => exact hs.runs r m hr
    | stepped l le hr hstep hevent =>
      have hquiet : le.feeds = false := by
        rcases hevent with hle | rfl
        · exact hle
        · exact he
      obtain ⟨ep, es, hrun, hgiven⟩ := hs.runs r l hr
      refine ⟨ep, es ++ [le], ?_, ?_⟩
      · rw [run_append_of hrun]
        simp [hstep]
      · rw [Loop.given, List.flatMap_append, List.flatMap_singleton, (Loop.step_quiet hstep hquiet).2, List.append_nil]
        exact hgiven
    | started ep hr hm =>
      refine ⟨ep, [], by rw [hm]; rfl, ?_⟩
      rw [hr, hnew]
      rfl

theorem Feeding.lt (hf : s.Feeding sentence rest r l e) (hs : Inv s) : r < s.fleet.threads.length := by
  cases hf with
  | put hpc hevent => exact hs.copied r (by simp [hpc, DispatchPc.rest])
  | resume hpc hevent => exact hs.putting _ _ r hpc

theorem Feeding.rest_sublist (hf : s.Feeding sentence rest r l e) : rest.Sublist s.pc.rest := by
  cases hf with
  | put hpc hevent =>
    rw [hpc]
    exact List.sublist_cons_self r rest
  | resume hpc hevent =>
    rw [hpc]
    exact List.Sublist.refl _

/-- What the step gives to a worker is what `dispatch` is no longer to give to it. -/
theorem Feeding.pending (hf : s.Feeding sentence rest r l e) (hnd : s.pc.rest.Nodup) (r' : Ref) :
    s.pc.pending r' = (if r' = r then e.given else []) ++ if r' ∈ rest then [sentence] else [] := by
  cases hf with
  | put hpc hevent =>
    rw [hpc] at hnd ⊢
    have hr : r ∉ rest := (List.nodup_cons.1 hnd).1
    show (if r' ∈ r :: rest then [sentence] else []) = _
    by_cases hrr : r' = r
    · subst hrr
      simp [hevent, hr]
    · simp [hrr]
  | resume hpc hevent =>
    rw [hpc, (Loop.resumeEvent_spec hevent).1]
    show (if r' ∈ rest then [sentence] else []) = _
    simp

theorem pending_fed : (s.fed sentence rest r l l' e).pc.pending r' = if r' ∈ rest then [sentence] else [] := by
  show DispatchPc.pending r' (if _ then _ else _) = _
  split <;> rfl

theorem received_fed : (s.fed sentence rest r l l' e).received r' =
    s.received r' ++ if r' = r then e.given else [] := by
  unfold received fed
  rw [List.filter_append, List.map_append]
  congr 1
  by_cases hrr : r' = r
  · subst hrr
    rw [List.filter_eq_self.2 (by simp), if_pos rfl, List.map_map]
    exact List.map_id _
  · rw [List.filter_eq_nil_iff.2 (by simp [Ne.symm hrr]), if_neg hrr, List.map_nil]

theorem Inv.fed (hs : Inv s) (hf : s.Feeding sentence rest r l e) (hr : s.fleet.threads[r]? = some l)
    (hstep : l.step e = some l') : Inv (s.fed sentence rest r l l' e) := by
  have hlt := hf.lt hs
  have hfleet := Fleet.step_loop hf.own hr hstep
  have hlen : (s.fed sentence rest r l l' e).fleet.threads.length = s.fleet.threads.length := by simp [Hub.fed]
  have hrest : (s.fed sentence rest r l l' e).pc.rest = rest := by
    show DispatchPc.rest (if _ then _ else _) = _
    split <;> rfl
  refine ⟨hs.registered.step hfleet, hlen ▸ hs.joined, hs.joined_le, hs.left, hs.left_le, ?_, ?_, ?_, ?_, ?_, ?_, ?_⟩
  · rw [hrest]
    exact hs.nodup.sublist hf.rest_sublist
  · intro r' hr'
    rw [hrest] at hr'
    rw [hlen]
    exact hs.copied r' (hf.rest_sublist.subset hr')
  · intro sentence' rest' r' hpc
    have hpc : (if l'.producer = .idle then .next sentence rest else .putting sentence rest r : DispatchPc) =
        .putting sentence' rest' r' := hpc
    split at hpc
    · cases hpc
    · injection hpc with _ _ hrr
      rw [hlen]
      exact hrr ▸ hlt
  · intro r' m hm
    have hm : (s.fleet.threads.set r l')[r']? = some m := hm
    show _ ↔ ∃ sentence' rest', (if l'.producer = .idle then .next sentence rest
      else .putting sentence rest r : DispatchPc) = .putting sentence' rest' r'
    by_cases hrr : r' = r
    · subst hrr
      rw [List.getElem?_set_self hlt] at hm
      obtain rfl := Option.some.inj hm
      by_cases hidle : l'.producer = .idle
      · simp [hidle]
      · simp [hidle]
    · rw [List.getElem?_set_ne (Ne.symm hrr)] at hm
      have hother : m.producer = .idle := by
        by_contra hp
        obtain ⟨sentence', rest', hpc⟩ := (hs.producing r' m hm).1 hp
        cases hf with
        | put hpc' hevent => cases hpc'.symm.trans hpc
        | resume hpc' hevent =>
          injection hpc'.symm.trans hpc with _ _ heq
          exact hrr heq.symm
      refine ⟨fun hp => absurd hother hp, ?_⟩
      rintro ⟨sentence', rest', hpc⟩
      split at hpc
      · cases hpc
      · injection hpc with _ _ heq
        exact absurd heq.symm hrr
  · intro p hp
    rw [hlen]
    rcases List.mem_append.1 hp with hp | hp
    · exact hs.puts p hp
    · obtain ⟨q, -, rfl⟩ := List.mem_map.1 hp
      exact hlt
  · intro r' hr'
    rw [hlen] at hr'
    rw [received_fed, pending_fed, List.append_assoc, ← hf.pending hs.nodup]
    exact hs.window r' hr'
  · intro r' m hm
    have hm : (s.fleet.threads.set r l')[r']? = some m := hm
    rw [received_fed]
    show ∃ ep es, run Loop.step (Loop.new s.fleet.queueSize ep) es = some m ∧ _
    by_cases hrr : r' = r
    · subst hrr
      rw [List.getElem?_set_self hlt] at hm
      obtain rfl := Option.some.inj hm
      obtain ⟨ep, es, hrun, hgiven⟩ := hs.runs r' l hr
      refine ⟨ep, es ++ [e], ?_, ?_⟩
      · rw [run_append_of hrun]
        simp [hstep]
      · rw [Loop.given, List.flatMap_append, List.flatMap_singleton, if_pos rfl]
        exact congrArg (· ++ e.given) hgiven
    · rw [List.getElem?_set_ne (Ne.symm hrr)] at hm
      rw [if_neg hrr, List.append_nil]
      exact hs.runs r' m hm

theorem Inv.step {e : HubEvent} (hs : Inv s) (h : s.step e = some t) : Inv t := by
  cases e with
  | fleet e =>
    obtain ⟨he, u, hu, rfl⟩ := step_fleet h
    exact hs.fleet he hu
  | dispatch sentence =>
    obtain ⟨hpc, -, rfl⟩ := step_dispatch h
    exact hs.dispatch hpc
  | put =>
    obtain ⟨sentence, rest, r, l, l', e, hf, hr, hstep, rfl⟩ := step_put h
    exact hs.fed hf hr hstep
  | resume =>
    obtain ⟨sentence, rest, r, l, l', e, hf, hr, hstep, rfl⟩ := step_resume h
    exact hs.fed hf hr hstep
  | ret =>
    obtain ⟨sentence, hpc, rfl⟩ := step_ret h
    refine ⟨hs.registered, hs.joined, hs.joined_le, hs.left, hs.left_le, List.nodup_nil,
      fun r hr => absurd hr List.not_mem_nil, fun _ _ _ h => DispatchPc.noConfusion h, ?_, hs.puts, ?_, hs.runs⟩
    · intro r l hr
      rw [hs.producing r l hr, hpc]
      constructor
      · rintro ⟨_, _, ⟨⟩⟩
      · rintro ⟨_, _, ⟨⟩⟩
    · intro r hr
      have hwin := hs.window r hr
      rw [hpc] at hwin
      show s.received r ++ [] = s.window r
      rw [← hwin]
      rfl

theorem inv_of_run {queueSize : ℕ} {es : List HubEvent} (h : run step (new queueSize) es = some s) : Inv s :=
  run_inv_of_step (fun _ _ _ hs hst => hs.step hst) (inv_new queueSize) h

theorem dispatched_step {e : HubEvent} (he : ∀ sentence, e ≠ .dispatch sentence) (h : s.step e = some t) :
    t.dispatched = s.dispatched := by
  cases e with
  | fleet e => obtain ⟨-, u, -, rfl⟩ := step_fleet h; rfl
  | dispatch sentence => exact absurd rfl (he sentence)
  | put => obtain ⟨sentence, rest, r, l, l', e, -, -, -, rfl⟩ := step_put h; rfl
  | resume => obtain ⟨sentence, rest, r, l, l', e, -, -, -, rfl⟩ := step_resume h; rfl
  | ret => obtain ⟨sentence, -, rfl⟩ := step_ret h; rfl

theorem queueSize_of_run {queueSize : ℕ} {es : List HubEvent} (h : run step (new queueSize) es = some s) :
    s.fleet.queueSize = queueSize := by
  refine run_inv_of_step (I := fun s : Hub => s.fleet.queueSize = queueSize) ?_ rfl h
  intro s e t hs hst
  cases e with
  | fleet e =>
    obtain ⟨-, u, hu, rfl⟩ := step_fleet hst
    exact (Fleet.step_queueSize hu).trans hs
  | dispatch sentence =>
    obtain ⟨-, -, rfl⟩ := step_dispatch hst
    exact hs
  | put =>
    obtain ⟨sentence, rest, r, l, l', e, -, -, -, rfl⟩ := step_put hst
    exact hs
  | resume =>
    obtain ⟨sentence, rest, r, l, l', e, -, -, -, rfl⟩ := step_resume hst
    exact hs
  | ret =>
    obtain ⟨sentence, -, rfl⟩ := step_ret hst
    exact hs

theorem worker_of_run {queueSize : ℕ} {es : List HubEvent} (h : run step (new queueSize) es = some s)
    (hr : s.fleet.threads[r]? = some l) :
    ∃ es, run Loop.step (Loop.new queueSize l.worker.ep) es = some l ∧ Loop.given es = s.received r := by
  obtain ⟨ep, es, hrun, hgiven⟩ := (inv_of_run h).runs r l hr
  have hep : l.worker.ep = ep :=
    run_inv_of_step (I := fun l => l.worker.ep = ep) (fun _ _ _ hs hst => (Loop.step_frame hst).1.trans hs)
      (Fleet.Loop.new_ep _ _) hrun
  rw [queueSize_of_run h] at hrun
  exact ⟨es, hep ▸ hrun, hgiven⟩

theorem Inv.leftAt_of_registered (hs : Inv s) {eid : ℕ} (hreg : s.fleet.workers.lookup eid = some r) :
    s.leftAt r = s.dispatched.length := by
  unfold leftAt
  cases hfind : s.left.find? fun p => p.1 = r with
  | none => rfl
  | some p =>
    have hmem : r ∈ s.left.map Prod.fst :=
      List.mem_map.2 ⟨p, List.mem_of_find?_eq_some hfind, by simpa using List.find?_some hfind⟩
    rw [hs.left] at hmem
    exact absurd hreg ((hs.registered.removed r hmem).2 eid)

end Hub

/-- **The fan-out.**  In every run of the output loop, `sync` and the workers: what a worker was given, with what the
`dispatch` that is under way is still to give to it, is exactly what was dispatched from its start until it was taken
out, in that order; a registered worker misses nothing that was dispatched since its start; and a worker is where a run
of its own loop on these sentences takes it, whatever happens to the others. -/
theorem fan_out {queueSize : ℕ} {es : List HubEvent} {s : Hub} (h : run Hub.step (Hub.new queueSize) es = some s)
    {r : Ref} {l : Loop} (hr : s.fleet.threads[r]? = some l) :
    s.received r ++ s.pc.pending r = (s.dispatched.take (s.leftAt r)).drop (s.joinedAt r) ∧
    (∀ eid, s.fleet.workers.lookup eid = some r →
      s.received r ++ s.pc.pending r = s.dispatched.drop (s.joinedAt r)) ∧
    ∃ es, run Loop.step (Loop.new queueSize l.worker.ep) es = some l ∧ Loop.given es = s.received r := by
  have hs := Hub.inv_of_run h
  have hwindow := hs.window r (List.getElem?_eq_some_iff.1 hr).1
  refine ⟨hwindow, fun eid hreg => ?_, Hub.worker_of_run h hr⟩
  rw [hwindow, Hub.window, hs.leftAt_of_registered hreg, List.take_length]

/-- A station is started between two sentences, and its edited row replaces it after the third. -/
def joinBetween : List HubEvent :=
  [.dispatch ['a'], .ret] ++ [.fleet (.sync [stationOn 4001] []), .fleet .next, .fleet .start, .fleet .start] ++
    [.dispatch ['b'], .put, .ret, .dispatch ['c'], .fleet (.loop 0 (.tcp .check)), .put, .ret] ++
    [.fleet (.sync [stationOn 4002] [1]), .fleet .next, .fleet .wake, .fleet .join, .fleet .next, .fleet .start,
      .fleet .start] ++ [.dispatch ['d'], .put]

theorem fan_out_joinBetween :
    ∃ s l, run Hub.step (Hub.new 9) joinBetween = some s ∧ s.fleet.threads[0]? = some l ∧
      s.received 0 ++ s.pc.pending 0 = [['b'], ['c']] ∧
      ∃ es, run Loop.step (Loop.new 9 l.worker.ep) es = some l ∧ Loop.given es = s.received 0 := by
  have hrun : (run Hub.step (Hub.new 9) joinBetween).bind (fun s => (s.fleet.threads[0]?).map fun _ =>
      (s.dispatched.take (s.leftAt 0)).drop (s.joinedAt 0)) = some [['b'], ['c']] := by decide +kernel
  obtain ⟨s, hs, hfacts⟩ := Option.bind_eq_some_iff.1 hrun
  obtain ⟨l, hl, hwindow⟩ := Option.map_eq_some_iff.1 hfacts
  obtain ⟨hgiven, -, hloop⟩ := fan_out hs hl
  exact ⟨s, l, hs, hl, hgiven.trans hwindow, hloop⟩

/-! ### The end of a dispatch -/

/-- A step of `dispatch` after the copy. -/
def HubEvent.puts : HubEvent → Bool
  | .put | .resume | .ret => true
  | .fleet _ | .dispatch _ => false

namespace Hub

variable {s t : Hub} {e : HubEvent}

end Hub

end AisServer.Forward
