import AisServer.Ingest.Keys
import AisServer.Lib.Decimal
import AisServer.Lib.Dict
import AisServer.Lib.Markup
import AisServer.Stream.Events
import Mathlib.Data.List.Sort

/-!
# The filter of the live view

`startStream` of `app.js` fills a dropdown from the answers of `/api/status` and compares what is selected in it with
every event.  A `StreamPage` is the state of its closure and of the dropdown, and `Live.step` interleaves it with the
sessions of the server and with the requests that are under way.

* `exists_nodeEntries` — the dropdown offers the keys of the nodes;
* `offered_of_run` — in any run it offers keys that the server registered;
* `node_filter_iff` — for which keys the events of the selected node are those that pass.
-/

namespace AisServer.Web

open AisServer.Lib AisServer.Ingest AisServer.Stream

/-! ### The dropdown -/

/-- What the page relies on in its browser. -/
structure Browser extends Markup where
  localeCompare : Str → Str → Ordering

/-- A row of the statistics of the forwarder, as far as the page reads it. -/
structure EndpointRow where
  name : Str
  host : Str
  port : ℤ
  connected : Bool

/-- An answer of `/api/status`. -/
structure Status where
  nodes : List NodeRow
  endpoints : List EndpointRow

/-- An option of the dropdown: what is written into its `value`, and its text. -/
structure Entry where
  value : Str
  label : Str
  connected : Bool

/-- `n.source_id ? n.source_id (n.peer) : n.peer` -/
def nodeLabel (n : NodeRow) : Str :=
  match n.sourceId with
  | some (c :: id) => c :: id ++ [' ', '('] ++ n.peer ++ [')']
  | _ => n.peer

/-- One turn of the loop over the nodes. -/
def addNode (byPeer : Dict Str Entry) (n : NodeRow) : Dict Str Entry :=
  if n.peer = [] then byPeer
  else if (byPeer.getItem n.peer).all fun prev => n.connected && !prev.connected then
    byPeer.setItem n.peer { value := n.peer, label := nodeLabel n, connected := n.connected }
  else byPeer

def endpointEntry (e : EndpointRow) : Entry where
  value := e.name
  label := e.name ++ [' ', '('] ++ e.host ++ ':' :: pyStr e.port ++ [')']
  connected := e.connected

/-- `entries.sort((a, b) => a.label.localeCompare(b.label))` -/
def sortEntries (b : Browser) (entries : List Entry) : List Entry :=
  entries.insertionSort fun x y => b.localeCompare x.label y.label ≠ .gt

def nodeEntries (b : Browser) (nodes : List NodeRow) : List Entry :=
  sortEntries b ((nodes.foldl addNode []).map (·.2))

def endpointEntries (b : Browser) (endpoints : List EndpointRow) : List Entry :=
  sortEntries b ((endpoints.filter (·.name ≠ [])).map endpointEntry)

/-- The page of one stream.  The dropdown has one option for each entry, behind `All nodes` or `All endpoints`. -/
structure StreamPage where
  isIncoming : Bool
  lastOptionsKey : Str := []
  options : List Entry := []
  /-- `none` is the first option, whose value is empty. -/
  selected : Option ℕ := none

namespace StreamPage

def selectedEntry (page : StreamPage) : Option Entry := page.selected.bind (page.options[·]?)

/-- `select.value` -/
def value (b : Browser) (page : StreamPage) : Str :=
  match page.selectedEntry with
  | none => []
  | some e => b.readAs e.value

/-- The entries for an answer; without one there are none. -/
def entries (b : Browser) (page : StreamPage) : Option Status → List Entry
  | none => []
  | some s => if page.isIncoming then nodeEntries b s.nodes else endpointEntries b s.endpoints

/-- `refreshFilterOptions`, when the answer is there. -/
def refreshFilterOptions (b : Browser) (page : StreamPage) (answer : Option Status) : StreamPage :=
  let entries := page.entries b answer
  let key := ['|'].intercalate (entries.map (·.value))
  if key = page.lastOptionsKey then page
  else
    let keep := page.value b
    { page with
      lastOptionsKey := key, options := entries
      selected :=
        if keep ≠ [] ∧ entries.any (·.value = keep) then entries.findIdx? fun e => b.readAs e.value = keep
        else none }

/-- `p.peer || ''` -/
def peerOf : UiEvent → Str
  | .incoming _ peer _ _ => peer
  | .outgoing .. => []

/-- `p.endpoint || ''` -/
def endpointOf : UiEvent → Str
  | .incoming .. => []
  | .outgoing _ endpoint _ _ => endpoint

def matchesFilter (b : Browser) (page : StreamPage) (p : UiEvent) : Bool :=
  let want := page.value b
  if want = [] then true
  else if page.isIncoming then upTo ':' (peerOf p) = want
  else endpointOf p = want

end StreamPage

/-! ### What the dropdown offers -/

section Offers

variable {b : Browser} {byPeer : Dict Str Entry} {nodes : List NodeRow} {n : NodeRow} {k : Str} {e : Entry}

theorem getItem_addNode : (addNode byPeer n).getItem k ≠ none ↔
    byPeer.getItem k ≠ none ∨ k ≠ [] ∧ n.peer = k := by
  unfold addNode
  by_cases hempty : n.peer = []
  · rw [if_pos hempty, hempty]
    simp [eq_comm]
  · rw [if_neg hempty]
    split
    · rw [Dict.getItem_setItem]
      by_cases hk : n.peer = k
      · subst hk
        simp [hempty]
      · simp [hk]
    · rename_i hprev
      constructor
      · exact Or.inl
      · rintro (h | ⟨-, rfl⟩)
        · exact h
        · intro hnone
          exact hprev (by rw [hnone]; rfl)

theorem addNode_value (h : ∀ i ∈ byPeer, i.2.value = i.1) : ∀ i ∈ addNode byPeer n, i.2.value = i.1 := by
  unfold addNode
  split
  · exact h
  · split
    · intro i hi
      rcases Dict.mem_setItem hi with rfl | hi
      · rfl
      · exact h i hi
    · exact h

theorem getItem_foldl_addNode : (nodes.foldl addNode byPeer).getItem k ≠ none ↔
    byPeer.getItem k ≠ none ∨ k ≠ [] ∧ ∃ n ∈ nodes, n.peer = k := by
  induction nodes generalizing byPeer with
  | nil => simp
  | cons n nodes ih =>
    rw [List.foldl_cons, ih, getItem_addNode, or_assoc, ← and_or_left, List.exists_mem_cons_iff]

theorem foldl_addNode_value (h : ∀ i ∈ byPeer, i.2.value = i.1) :
    ∀ i ∈ nodes.foldl addNode byPeer, i.2.value = i.1 := by
  induction nodes generalizing byPeer with
  | nil => exact h
  | cons n nodes ih => exact ih (addNode_value h)

theorem mem_sortEntries {entries : List Entry} : e ∈ sortEntries b entries ↔ e ∈ entries :=
  (List.perm_insertionSort _ _).mem_iff

/-- **The dropdown offers** the keys of the nodes, except an empty one. -/
theorem exists_nodeEntries : (∃ e ∈ nodeEntries b nodes, e.value = k) ↔ k ≠ [] ∧ ∃ n ∈ nodes, n.peer = k := by
  have hvalue := @foldl_addNode_value [] nodes (by simp)
  have hkeys : k ∈ (nodes.foldl addNode []).map (·.1) ↔ k ≠ [] ∧ ∃ n ∈ nodes, n.peer = k := by
    rw [← not_not (a := k ∈ _), ← Dict.getItem_eq_none]
    exact getItem_foldl_addNode.trans (by simp [Dict.getItem])
  rw [← hkeys, List.mem_map]
  simp only [nodeEntries, mem_sortEntries, List.mem_map]
  constructor
  · rintro ⟨e, ⟨i, hi, rfl⟩, rfl⟩
    exact ⟨i, hi, (hvalue i hi).symm⟩
  · rintro ⟨i, hi, rfl⟩
    exact ⟨i.2, ⟨i, hi, rfl⟩, hvalue i hi⟩

end Offers

/-! ### The server and the page -/

/-- The server, the page of its incoming stream, and the answers that are on their way to it. -/
structure Live where
  server : TcpIngest := {}
  answers : List Status := []
  page : StreamPage := { isIncoming := true }

inductive LiveEvent
  | server (e : IngestEvent)
  /-- The server answers a request of the page. -/
  | status (answer : Status)
  /-- The page gets one of the answers. -/
  | refresh (i : ℕ)
  /-- A request fails. -/
  | failed
  /-- The user selects an option, or the first one. -/
  | choose (i : Option ℕ)

/-- The hosts of new sessions are in `H`. -/
def LiveEvent.From (H : Str → Prop) : LiveEvent → Prop
  | .server e => e.From H
  | _ => True

namespace Live

def step (b : Browser) (s : Live) : LiveEvent → Option Live
  | .server e => (s.server.step e).map fun server => { s with server }
  | .status answer =>
    if s.server.registry.IsSnapshot answer.nodes then some { s with answers := s.answers ++ [answer] } else none
  | .refresh i =>
    (s.answers[i]?).map fun answer =>
      { s with answers := s.answers.eraseIdx i, page := s.page.refreshFilterOptions b (some answer) }
  | .failed => some { s with page := s.page.refreshFilterOptions b none }
  | .choose none => some { s with page := { s.page with selected := none } }
  | .choose (some i) =>
    if i < s.page.options.length then some { s with page := { s.page with selected := some i } } else none

variable {b : Browser} {H : Str → Prop} {s t : Live} {k p q : Str} {ts : Time} {mmsi : Option ℕ} {page : StreamPage}

/-- What is under way to the page, and what it offers, are keys that the server registered. -/
structure Offered (H : Str → Prop) (s : Live) : Prop where
  server : s.server.Keyed H
  answers : ∀ answer ∈ s.answers, ∀ n ∈ answer.nodes, IsKey H n.peer
  isIncoming : s.page.isIncoming = true
  options : ∀ e ∈ s.page.options, e.value ≠ [] ∧ IsKey H e.value

theorem offered_start : Offered H {} where
  server := TcpIngest.keyed_start
  answers := by simp
  isIncoming := rfl
  options := by simp

theorem isKey_of_snapshot {g : NodeRegistry} {rows : List NodeRow} (hg : g.Keyed (IsKey H))
    (h : g.IsSnapshot rows) : ∀ n ∈ rows, IsKey H n.peer := by
  intro row hrow
  obtain ⟨k, n, hn, rfl⟩ := NodeRegistry.mem_rows.1 (h.1.mem_iff.1 hrow)
  obtain ⟨hkey, hk⟩ := hg k n hn
  show IsKey H n.key
  rwa [hkey]

theorem options_refresh (b : Browser) (page : StreamPage) (answer : Option Status) :
    (page.refreshFilterOptions b answer).isIncoming = page.isIncoming ∧
    ((page.refreshFilterOptions b answer).options = page.options ∨
      (page.refreshFilterOptions b answer).options = page.entries b answer) := by
  simp only [StreamPage.refreshFilterOptions]
  split
  · exact ⟨rfl, Or.inl rfl⟩
  · exact ⟨rfl, Or.inr rfl⟩

theorem Offered.refresh (hs : Offered H s) {answer : Option Status}
    (ha : ∀ status ∈ answer, ∀ n ∈ status.nodes, IsKey H n.peer) :
    (s.page.refreshFilterOptions b answer).isIncoming = true ∧
    ∀ e ∈ (s.page.refreshFilterOptions b answer).options, e.value ≠ [] ∧ IsKey H e.value := by
  obtain ⟨hin, hold | hnew⟩ := options_refresh b s.page answer
  · exact ⟨hin.trans hs.isIncoming, hold ▸ hs.options⟩
  · refine ⟨hin.trans hs.isIncoming, fun e he => ?_⟩
    rw [hnew] at he
    rcases answer with _ | status
    · cases he
    · rw [StreamPage.entries, if_pos hs.isIncoming] at he
      obtain ⟨hne, n, hn, hpeer⟩ := exists_nodeEntries.1 ⟨e, he, rfl⟩
      exact ⟨hne, hpeer ▸ ha status rfl n hn⟩

theorem Offered.step {e : LiveEvent} (hs : Offered H s) (he : e.From H) (h : s.step b e = some t) : Offered H t := by
  cases e with
  | server e =>
    obtain ⟨server, hserver, rfl⟩ := Option.map_eq_some_iff.1 h
    exact ⟨hs.server.step he hserver, hs.answers, hs.isIncoming, hs.options⟩
  | status answer =>
    rw [Live.step, Option.ite_none_right_eq_some] at h
    obtain ⟨hsnap, h⟩ := h
    obtain rfl := Option.some.inj h
    refine ⟨hs.server, fun a ha => ?_, hs.isIncoming, hs.options⟩
    rcases List.mem_append.1 ha with ha | ha
    · exact hs.answers a ha
    · obtain rfl := List.mem_singleton.1 ha
      exact isKey_of_snapshot hs.server.registry hsnap
  | refresh i =>
    obtain ⟨answer, ha, rfl⟩ := Option.map_eq_some_iff.1 h
    obtain ⟨hin, hoptions⟩ := @Offered.refresh b H s hs (some answer) fun status hstatus =>
      Option.some.inj hstatus ▸ hs.answers answer (List.mem_of_getElem? ha)
    exact ⟨hs.server, fun a ha => hs.answers a (List.mem_of_mem_eraseIdx ha), hin, hoptions⟩
  | failed =>
    obtain rfl := Option.some.inj h
    obtain ⟨hin, hoptions⟩ := @Offered.refresh b H s hs none (by simp)
    exact ⟨hs.server, hs.answers, hin, hoptions⟩
  | choose i =>
    cases i with
    | none =>
      obtain rfl := Option.some.inj h
      exact ⟨hs.server, hs.answers, hs.isIncoming, hs.options⟩
    | some i =>
      rw [Live.step, Option.ite_none_right_eq_some] at h
      obtain rfl := Option.some.inj h.2
      exact ⟨hs.server, hs.answers, hs.isIncoming, hs.options⟩

/-- **What a run offers**: keys that the server registered, for sessions from the hosts `H`. -/
theorem offered_of_run {es : List LiveEvent} (hH : ∀ e ∈ es, e.From H) (h : run (step b) {} es = some s) :
    Offered H s :=
  run_inv (fun _ _ _ hs he h => hs.step he h) offered_start (guarded_of_forall_mem fun e he _ => hH e he) h

/-! ### What the filter lets pass -/

/-- The events of the node `k` itself pass: its key reads as itself and has no colon, or it reads as nothing. -/
def Keeps (b : Browser) (k : Str) : Prop := k.head? = some '"' ∨ b.readAs k = k ∧ ':' ∉ k

/-- The events of a node `p` pass for the node `k`: the key `k` reads as nothing, or as all that stands before the first
colon of `p`. -/
def Admits (b : Browser) (k p : Str) : Prop :=
  k.head? = some '"' ∨ ':' ∉ b.readAs k ∧ (p = b.readAs k ∨ b.readAs k ++ [':'] <+: p)

theorem value_of_selected {e : Entry} (he : page.selectedEntry = some e) : page.value b = b.readAs e.value := by
  rw [StreamPage.value, he]

theorem matchesFilter_iff (hin : page.isIncoming = true) (hk : page.selectedEntry.map (·.value) = some k)
    (hne : k ≠ []) : page.matchesFilter b (.incoming q p ts mmsi) = true ↔
      k.head? = some '"' ∨ upTo ':' p = b.readAs k := by
  obtain ⟨e, he, rfl⟩ := Option.map_eq_some_iff.1 hk
  simp only [StreamPage.matchesFilter, value_of_selected he, hin, if_true, StreamPage.peerOf]
  by_cases hnil : b.readAs e.value = []
  · have hhead : e.value.head? = some '"' := (Markup.readAs_eq_nil.1 hnil).resolve_left hne
    simp [hnil, hhead]
  · have hhead : e.value.head? ≠ some '"' := fun h => hnil (Markup.readAs_eq_nil.2 (Or.inr h))
    simp [hnil, hhead]

theorem matchesFilter_iff_admits (hin : page.isIncoming = true) (hk : page.selectedEntry.map (·.value) = some k)
    (hne : k ≠ []) : page.matchesFilter b (.incoming q p ts mmsi) = true ↔ Admits b k p := by
  rw [matchesFilter_iff hin hk hne, upTo_eq_iff, Admits]

theorem matchesFilter_own (hin : page.isIncoming = true) (hk : page.selectedEntry.map (·.value) = some k)
    (hne : k ≠ []) : page.matchesFilter b (.incoming q k ts mmsi) = true ↔ Keeps b k := by
  rw [matchesFilter_iff hin hk hne, Markup.upTo_eq_readAs (by decide) (by decide) (by decide), Keeps]

theorem keeps_of_plain (hplain : Markup.Plain k) : Keeps b k ↔ ':' ∉ k := by
  rw [Keeps, Markup.readAs_eq_self hplain, eq_self_iff_true, true_and, or_iff_right]
  exact fun h => hplain.1 (List.mem_of_mem_head? h)

theorem admits_of_plain (hplain : Markup.Plain k) (hpk : p ≠ k) :
    Admits b k p ↔ ':' ∉ k ∧ k ++ [':'] <+: p := by
  rw [Admits, Markup.readAs_eq_self hplain, or_iff_right, or_iff_right hpk]
  exact fun h => hplain.1 (List.mem_of_mem_head? h)

/-- **The filter of the live view.**  In any run of the server and a page, the node that is selected and every event
that was handed on have the key of a host or of a source id.  When the node has the key `k`, the filter lets an event
of the key `p` pass exactly when `p` is `k`, as long as this holds: for an event of the node, that its key reads as
itself in the page and has no colon, or reads as nothing; for an event of another one, that `k` reads neither as nothing
nor as all before the first colon of `p`.  For a key that means itself in the page these are: no colon in it, and that
`p` does not begin with it and a colon. -/
theorem node_filter_iff {es : List LiveEvent} (hH : ∀ e ∈ es, e.From H) (h : run (step b) {} es = some s)
    (hk : s.page.selectedEntry.map (·.value) = some k) (hp : (q, p, ts) ∈ s.server.handed) (mmsi : Option ℕ) :
    IsKey H k ∧ IsKey H p ∧
    ((s.page.matchesFilter b (.incoming q p ts mmsi) = true ↔ p = k) ↔
      (p = k → Keeps b k) ∧ (p ≠ k → ¬ Admits b k p)) ∧
    (Markup.Plain k → ((s.page.matchesFilter b (.incoming q p ts mmsi) = true ↔ p = k) ↔
      (p = k → ':' ∉ k) ∧ (p ≠ k → ':' ∉ k → ¬ k ++ [':'] <+: p))) := by
  have hs := offered_of_run hH h
  obtain ⟨e, he, hvalue⟩ := Option.map_eq_some_iff.1 hk
  obtain ⟨i, -, hi⟩ := Option.bind_eq_some_iff.1 he
  obtain ⟨hne, hkey⟩ : k ≠ [] ∧ IsKey H k := hvalue ▸ hs.options e (List.mem_of_getElem? hi)
  have hgeneral : (s.page.matchesFilter b (.incoming q p ts mmsi) = true ↔ p = k) ↔
      (p = k → Keeps b k) ∧ (p ≠ k → ¬ Admits b k p) := by
    by_cases hpk : p = k
    · subst hpk
      rw [matchesFilter_own hs.isIncoming hk hne]
      simp
    · rw [matchesFilter_iff_admits hs.isIncoming hk hne]
      simp [hpk]
  refine ⟨hkey, hs.server.handed _ hp, hgeneral, fun hplain => hgeneral.trans (and_congr ?_ ?_)⟩
  · rw [keeps_of_plain hplain]
  · refine forall_congr' fun hpk => ?_
    rw [admits_of_plain hplain hpk, not_and]

/-- A browser for texts without references, which orders labels by their code points. -/
def plainBrowser : Browser where
  toMarkup := Markup.verbatim
  localeCompare x y := compareOfLessAndEq x y

/-- A station at `10.0.0.7` sends one sentence behind a tag block; the page is refreshed and the node of the source id
selected. -/
def oneStation (id : Str) : List LiveEvent :=
  [.server (.start "10.0.0.7:51234".toList "10.0.0.7".toList 1),
    .server (.recv 0 (encodeAscii ("\\s:".toList ++ id ++ "*1F\\!AIVDM,1,1,,A,w,0*51\n".toList)) 2),
    .server (.line 0), .server (.upgrade 0 3), .server (.judge 0 4),
    .status ⟨[⟨id, some id, true, 4⟩], []⟩, .refresh 0, .choose (some 0)]

theorem from_oneStation (id : Str) : ∀ e ∈ oneStation id, e.From (· = "10.0.0.7".toList) := by
  simp [oneStation, LiveEvent.From, IngestEvent.From]

/-- The report of a station without a colon in its name passes. -/
theorem node_filter_iff_station : ∃ s q ts,
    run (step plainBrowser) {} (oneStation "GIB-01".toList) = some s ∧
    (q, "GIB-01".toList, ts) ∈ s.server.handed ∧
    s.page.matchesFilter plainBrowser (.incoming q "GIB-01".toList ts none) = true := by
  have hrun : (run (step plainBrowser) {} (oneStation "GIB-01".toList)).map (fun s =>
      (s.page.selectedEntry.map (·.value), s.server.handed)) =
        some (some "GIB-01".toList, [("!AIVDM,1,1,,A,w,0*51".toList, "GIB-01".toList, 4)]) := by
    decide +kernel
  obtain ⟨s, hs, hfacts⟩ := Option.map_eq_some_iff.1 hrun
  obtain ⟨hk, hhanded⟩ := Prod.mk.inj hfacts
  have hp : ("!AIVDM,1,1,,A,w,0*51".toList, "GIB-01".toList, 4) ∈ s.server.handed := by
    rw [hhanded]
    exact List.mem_singleton_self _
  obtain ⟨-, -, -, hplain⟩ := node_filter_iff (from_oneStation _) hs hk hp none
  refine ⟨s, _, _, hs, hp, ((hplain ?_).2 ⟨fun _ => ?_, fun hne => absurd rfl hne⟩).2 rfl⟩
  · exact ⟨by decide, by decide, by decide, by decide⟩
  · decide

/-- The reports of a station whose name has a colon do not pass when its node is selected. -/
theorem node_filter_fails : ¬ ∀ (b : Browser) (es : List LiveEvent) (s : Live) (k p q : Str) (ts : Time),
    run (step b) {} es = some s → s.page.selectedEntry.map (·.value) = some k → (q, p, ts) ∈ s.server.handed →
    (s.page.matchesFilter b (.incoming q p ts none) = true ↔ p = k) := by
  intro hclaim
  have hrun : (run (step plainBrowser) {} (oneStation "GIB:01".toList)).map (fun s =>
      (s.page.selectedEntry.map (·.value), s.server.handed)) =
        some (some "GIB:01".toList, [("!AIVDM,1,1,,A,w,0*51".toList, "GIB:01".toList, 4)]) := by
    decide +kernel
  obtain ⟨s, hs, hfacts⟩ := Option.map_eq_some_iff.1 hrun
  obtain ⟨hk, hhanded⟩ := Prod.mk.inj hfacts
  have hpass := (hclaim plainBrowser _ s _ _ _ 4 hs hk (hhanded ▸ List.mem_singleton_self _)).2 rfl
  have hin : s.page.isIncoming = true := (offered_of_run (from_oneStation _) hs).isIncoming
  have hcolon := (keeps_of_plain ⟨by decide, by decide, by decide, by decide⟩).1
    ((matchesFilter_own hin hk (by simp)).1 hpass)
  exact hcolon (by decide)

end Live

end AisServer.Web
