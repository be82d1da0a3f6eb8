import AisServer.Lib.Recent
import AisServer.Stream.Recent
import AisServer.Web.App
import AisServer.Web.LiveView

/-!
# What the live page shows

A page of `app.js` asks once for the recent payloads of its topic and listens to `/live` besides, and neither waits for
the other.  `LiveStream.step` interleaves the publications of the server, whose callbacks run after the lock of the bus
is released, with the two ways to the page and with what its user does.

* `Consistent.step` — a payload is on its way to its callback or behind it, and the page has each way's in its order;
* `live_page` — what stands on the page, in any run;
* `live_page_gap` — which payloads an undisturbed page is never given, and which it appends twice.
-/

namespace AisServer.Web

open AisServer.Lib AisServer.Stream

/-! ### Lines -/

/-- The code units of a text. -/
def utf16 (s : Str) : List UInt16 := s.flatMap fun c =>
  if c.toNat < 0x10000 then [.ofNat c.toNat]
  else [.ofNat (0xD7C0 + c.toNat / 0x400), .ofNat (0xDC00 + c.toNat % 0x400)]

/-- `padEnd`, with spaces. -/
def padEnd (n : ℕ) (units : List UInt16) : List UInt16 := units ++ List.replicate (n - units.length) 0x20

/-- What the stream relies on in its browser besides. -/
structure StreamBrowser extends Browser where
  toLocaleTimeString : Time → Str

/-- `fmtTime` -/
def StreamBrowser.fmtTime (b : StreamBrowser) (ts : Time) : Str := if ts = 0 then ['—'] else b.toLocaleTimeString ts

def sentenceOf : UiEvent → Str
  | .incoming sentence .. | .outgoing _ _ sentence _ => sentence

def tsOf : UiEvent → Time
  | .incoming _ _ ts _ | .outgoing _ _ _ ts => ts

/-- The line that `append` writes; `p.peer || p.endpoint || ''` stands in its middle. -/
def StreamBrowser.line (b : StreamBrowser) (p : UiEvent) : List UInt16 :=
  let peer := if StreamPage.peerOf p ≠ [] then StreamPage.peerOf p else StreamPage.endpointOf p
  utf16 ('[' :: b.fmtTime (tsOf p) ++ [']', ' ']) ++ padEnd 24 (utf16 peer) ++ utf16 (' ' :: sentenceOf p ++ ['\n'])

/-! ### The state -/

/-- The request of `/recent`. -/
inductive Priming
  | asked
  | answered (items : List (UiEvent × ℕ))
  | done
  deriving DecidableEq

/-- What the page is still to be told with the answer. -/
def Priming.items : Priming → List (UiEvent × ℕ)
  | .answered items => items
  | .asked | .done => []

/-- A payload goes with the number of its publication to the topic. -/
structure LiveStream where
  bus : EventBus
  page : StreamPage
  published : List UiEvent := []
  /-- Between the release of the lock and the callback. -/
  emitting : List (UiEvent × ℕ) := []
  emitted : List (UiEvent × ℕ) := []
  connected : Bool := false
  wire : List (UiEvent × ℕ) := []
  priming : Priming := .asked
  paused : Bool := false
  text : List UInt16 := []
  /-- What `append` was called with, and whether it came over `/live`. -/
  shown : List (Bool × UiEvent × ℕ) := []
  /-- How many of these the user has cleared. -/
  cleared : ℕ := 0
  /-- What was emitted while there was no connection. -/
  unheard : List (UiEvent × ℕ) := []

inductive LiveStreamEvent
  | publish (p : UiEvent)
  /-- A callback runs; `raises` is whether `sio.emit` does. -/
  | emit (i : ℕ) (raises : Bool)
  | connect
  | disconnect
  /-- The server answers the request of `/recent`. -/
  | answer
  /-- The request comes to nothing. -/
  | noAnswer
  /-- The page has the answer. -/
  | prime
  /-- The page has the next payload of the connection. -/
  | receive
  | pause
  | clear
  | choose (i : Option ℕ)
  | refresh (status : Option Status)

namespace LiveStream

/-- The page of a kind, on a server that was just started. -/
def start (ringSize : ℕ) (isIncoming : Bool) : LiveStream where
  bus := registerSockets { ringSize }
  page := { isIncoming }

/-- `kind` -/
def topic (s : LiveStream) : Str := if s.page.isIncoming then "incoming".toList else "outgoing".toList

/-- `append` -/
def append (b : StreamBrowser) (live : Bool) (s : LiveStream) (p : UiEvent × ℕ) : LiveStream :=
  { s with text := trim 120000 200000 (s.text ++ b.line p.1), shown := s.shown ++ [(live, p)] }

/-- `if (matchesFilter(i)) append(i)` -/
def offer (b : StreamBrowser) (live : Bool) (s : LiveStream) (p : UiEvent × ℕ) : LiveStream :=
  if s.page.matchesFilter b.toBrowser p.1 then s.append b live p else s

/-- The recent payloads of the topic, a hundred at most, with their numbers. -/
def recent (s : LiveStream) : List (UiEvent × ℕ) :=
  (s.bus.recent s.topic 100).zipIdx (s.published.length - (s.bus.recent s.topic 100).length)

def step (b : StreamBrowser) (s : LiveStream) : LiveStreamEvent → Option LiveStream
  | .publish p =>
    let t := { s with bus := s.bus.publish (topicOf p) p }
    if topicOf p = s.topic then
      some { t with
        published := s.published ++ [p]
        emitting := s.emitting ++ (s.bus.subs (topicOf p)).map fun _ => (p, s.published.length) }
    else some t
  | .emit i raises =>
    (s.emitting[i]?).map fun p =>
      let t := { s with emitting := s.emitting.eraseIdx i, emitted := s.emitted ++ [p] }
      if s.connected && !raises then { t with wire := s.wire ++ [p] } else { t with unheard := s.unheard ++ [p] }
  | .connect => if s.connected then none else some { s with connected := true }
  | .disconnect => if s.connected then some { s with connected := false, wire := [] } else none
  | .answer =>
    match s.priming with
    | .asked => some { s with priming := .answered s.recent }
    | _ => none
  | .noAnswer => some { s with priming := .done }
  | .prime =>
    match s.priming with
    | .answered items => some { items.foldl (offer b false) s with priming := .done }
    | _ => none
  | .receive =>
    match s.wire with
    | [] => none
    | p :: wire => some (if s.paused then { s with wire } else { s with wire }.offer b true p)
  | .pause => some { s with paused := !s.paused }
  | .clear => some { s with text := [], cleared := s.shown.length }
  | .choose none => some { s with page := { s.page with selected := none } }
  | .choose (some i) =>
    if i < s.page.options.length then some { s with page := { s.page with selected := some i } } else none
  | .refresh status => some { s with page := s.page.refreshFilterOptions b.toBrowser status }

/-! ### What the page shows -/

variable {b : StreamBrowser} {s t : LiveStream} {e : LiveStreamEvent} {live : Bool} {p : UiEvent × ℕ} {ringSize : ℕ}
  {isIncoming : Bool}

/-- What came over `/live`, or else with the answer, and was appended. -/
def shownBy (live : Bool) (s : LiveStream) : List (UiEvent × ℕ) := (s.shown.filter (·.1 = live)).map (·.2)

theorem shownBy_append (way : Bool) :
    (s.append b live p).shownBy way = s.shownBy way ++ if live = way then [p] else [] := by
  by_cases h : live = way <;> simp [shownBy, append, List.filter_append, h]

/-- The text is the end of what was appended since it was cleared. -/
def Written (b : StreamBrowser) (s : LiveStream) : Prop :=
  s.cleared ≤ s.shown.length ∧
    Tail 120000 200000 ((s.shown.drop s.cleared).flatMap fun p => b.line p.2.1) s.text

theorem Written.append (hs : s.Written b) : (s.append b live p).Written b := by
  obtain ⟨hle, htail⟩ := hs
  refine ⟨hle.trans (by simp [LiveStream.append]), ?_⟩
  show Tail _ _ (((s.shown ++ [(live, p)]).drop s.cleared).flatMap _) _
  rw [List.drop_append_of_le_length hle, List.flatMap_append, List.flatMap_singleton]
  exact htail.append (by omega) _

/-- Appending touches the page only. -/
structure Appended (b : StreamBrowser) (live : Bool) (items : List (UiEvent × ℕ)) (s t : LiveStream) : Prop where
  frame : t = { s with text := t.text, shown := t.shown }
  here : ∃ offered, offered.Sublist items ∧ t.shownBy live = s.shownBy live ++ offered ∧
    (s.page.selected = none → offered = items)
  other : t.shownBy (!live) = s.shownBy (!live)
  written : s.Written b → t.Written b

theorem matchesFilter_all {b : Browser} {page : StreamPage} (h : page.selected = none) (p : UiEvent) :
    page.matchesFilter b p = true := by
  have hentry : page.selectedEntry = none := by rw [StreamPage.selectedEntry, h, Option.bind_none]
  have hvalue : page.value b = [] := by rw [StreamPage.value, hentry]
  rw [StreamPage.matchesFilter, hvalue]
  rfl

theorem appended_offer (b : StreamBrowser) (live : Bool) (s : LiveStream) (p : UiEvent × ℕ) :
    Appended b live [p] s (s.offer b live p) := by
  unfold offer
  split
  · refine ⟨rfl, ⟨[p], List.Sublist.refl _, ?_, fun _ => rfl⟩, ?_, fun hs => hs.append⟩
    · rw [shownBy_append, if_pos rfl]
    · rw [shownBy_append, if_neg (by simp), List.append_nil]
  · rename_i hno
    refine ⟨rfl, ⟨[], List.nil_sublist _, (List.append_nil _).symm, fun hall => ?_⟩, rfl, id⟩
    exact absurd (matchesFilter_all hall p.1) hno

theorem Appended.trans {u : LiveStream} {items items' : List (UiEvent × ℕ)} (hst : Appended b live items s t)
    (htu : Appended b live items' t u) : Appended b live (items ++ items') s u := by
  obtain ⟨offered, hsub, hhere, hall⟩ := hst.here
  obtain ⟨offered', hsub', hhere', hall'⟩ := htu.here
  have hpage : t.page = s.page := by rw [hst.frame]
  refine ⟨by rw [htu.frame, hst.frame], ⟨offered ++ offered', hsub.append hsub', ?_, fun h => ?_⟩, ?_, ?_⟩
  · rw [hhere', hhere, List.append_assoc]
  · rw [hall h, hall' (hpage ▸ h)]
  · rw [htu.other, hst.other]
  · exact fun hs => htu.written (hst.written hs)

theorem appended_foldl (b : StreamBrowser) (live : Bool) (s : LiveStream) (items : List (UiEvent × ℕ)) :
    Appended b live items s (items.foldl (offer b live) s) := by
  induction items generalizing s with
  | nil => exact ⟨rfl, ⟨[], List.Sublist.refl _, (List.append_nil _).symm, fun _ => rfl⟩, rfl, id⟩
  | cons p items ih => exact (appended_offer b live s p).trans (ih _)

/-! ### What a step does -/

theorem step_emit {i : ℕ} {raises : Bool} (h : s.step b (.emit i raises) = some t) :
    ∃ p, s.emitting[i]? = some p ∧
      ((s.connected = true ∧ raises = false ∧ t = { s with
          emitting := s.emitting.eraseIdx i, emitted := s.emitted ++ [p], wire := s.wire ++ [p] }) ∨
        ((s.connected = false ∨ raises = true) ∧ t = { s with
          emitting := s.emitting.eraseIdx i, emitted := s.emitted ++ [p], unheard := s.unheard ++ [p] })) := by
  simp only [LiveStream.step] at h
  obtain ⟨p, hp, rfl⟩ := Option.map_eq_some_iff.1 h
  refine ⟨p, hp, ?_⟩
  split
  · rename_i hopen
    obtain ⟨hconnected, hraises⟩ := Bool.and_eq_true_iff.1 hopen
    exact Or.inl ⟨hconnected, by simpa using hraises, rfl⟩
  · rename_i hclosed
    refine Or.inr ⟨?_, rfl⟩
    cases hconnected : s.connected
    · exact Or.inl rfl
    · exact Or.inr (by simpa [hconnected] using hclosed)

theorem step_connect (h : s.step b .connect = some t) : t = { s with connected := true } := by
  simp only [LiveStream.step] at h
  split at h
  · cases h
  · exact (Option.some.inj h).symm

theorem step_answer (h : s.step b .answer = some t) :
    s.priming = .asked ∧ t = { s with priming := .answered s.recent } := by
  simp only [LiveStream.step] at h
  split at h
  · rename_i hasked
    exact ⟨hasked, (Option.some.inj h).symm⟩
  · cases h

theorem step_prime (h : s.step b .prime = some t) :
    ∃ items u, s.priming = .answered items ∧ Appended b false items s u ∧ t = { u with priming := .done } := by
  simp only [LiveStream.step] at h
  split at h
  · rename_i items hpriming
    exact ⟨items, _, hpriming, appended_foldl b false s items, (Option.some.inj h).symm⟩
  · cases h

theorem step_receive (h : s.step b .receive = some t) :
    ∃ p wire, s.wire = p :: wire ∧ ((s.paused = true ∧ t = { s with wire }) ∨
      (s.paused = false ∧ Appended b true [p] { s with wire } t)) := by
  simp only [LiveStream.step] at h
  split at h
  · cases h
  · rename_i p wire hwire
    refine ⟨p, wire, hwire, ?_⟩
    by_cases hpaused : s.paused = true
    · rw [if_pos hpaused] at h
      exact Or.inl ⟨hpaused, (Option.some.inj h).symm⟩
    · rw [if_neg hpaused] at h
      exact Or.inr ⟨by simpa using hpaused, Option.some.inj h ▸ appended_offer b true { s with wire } p⟩

/-! ### In any run -/

/-- Every publication is on its way to its callback or behind it, and each way keeps its order. -/
structure Consistent (b : StreamBrowser) (ringSize : ℕ) (s : LiveStream) : Prop where
  written : s.Written b
  size : s.bus.ringSize = ringSize
  ring : s.bus.rings s.topic = s.published.rtake ringSize
  subscribed : (s.bus.subs s.topic).length = 1
  emittedOnce : (s.emitted ++ s.emitting).Perm s.published.zipIdx
  heard : (s.shownBy true ++ s.wire).Sublist s.emitted
  primed : (s.shownBy false ++ s.priming.items).Sublist s.published.zipIdx
  asked : s.priming = .asked → s.shownBy false = []

theorem consistent_start (b : StreamBrowser) (ringSize : ℕ) (isIncoming : Bool) :
    (start ringSize isIncoming).Consistent b ringSize where
  written := ⟨Nat.zero_le _, tail_nil _ _⟩
  size := rfl
  ring := (List.rtake_nil _).symm
  subscribed := by
    cases isIncoming <;> rfl
  emittedOnce := List.Perm.refl _
  heard := List.Sublist.refl _
  primed := List.Sublist.refl _
  asked _ := rfl

theorem recent_eq (hring : s.bus.rings s.topic = s.published.rtake ringSize) :
    s.recent = s.published.zipIdx.rtake (min 100 ringSize) := by
  have hrecent : s.bus.recent s.topic 100 = s.published.rtake (min 100 ringSize) := by
    rw [EventBus.recent, if_neg (by omega), hring]
    exact rtake_rtake _ _ _
  rw [recent, hrecent, zipIdx_rtake]

theorem Consistent.publish (hs : s.Consistent b ringSize) {p : UiEvent} (h : s.step b (.publish p) = some t) :
    t.Consistent b ringSize := by
  simp only [LiveStream.step] at h
  split at h
  · rename_i htopic
    obtain rfl := Option.some.inj h
    obtain ⟨cb, hcb⟩ := List.length_eq_one_iff.1 hs.subscribed
    refine ⟨hs.written, hs.size, ?_, hs.subscribed, ?_, hs.heard, hs.primed.trans ?_, hs.asked⟩
    · show Function.update s.bus.rings (topicOf p) (EventBus.keepLast s.bus.ringSize _) s.topic = _
      rw [htopic, Function.update_self, hs.ring, hs.size]
      exact rtake_rtake_concat _ _ _
    · show (s.emitted ++ (s.emitting ++ (s.bus.subs (topicOf p)).map fun _ => (p, s.published.length))).Perm _
      rw [htopic, hcb, List.map_singleton, zipIdx_concat, ← List.append_assoc]
      exact hs.emittedOnce.append_right _
    · rw [zipIdx_concat]
      exact List.sublist_append_left _ _
  · rename_i htopic
    obtain rfl := Option.some.inj h
    refine ⟨hs.written, hs.size, ?_, hs.subscribed, hs.emittedOnce, hs.heard, hs.primed, hs.asked⟩
    show Function.update s.bus.rings (topicOf p) _ s.topic = _
    rw [Function.update_of_ne (Ne.symm htopic)]
    exact hs.ring

theorem Consistent.emit (hs : s.Consistent b ringSize) {i : ℕ} {raises : Bool}
    (h : s.step b (.emit i raises) = some t) :
    t.Consistent b ringSize := by
  obtain ⟨p, hp, h⟩ := step_emit h
  obtain ⟨hi, rfl⟩ := List.getElem?_eq_some_iff.1 hp
  have hperm : (s.emitted ++ [s.emitting[i]] ++ s.emitting.eraseIdx i).Perm s.published.zipIdx := by
    rw [List.append_assoc]
    exact ((List.getElem_cons_eraseIdx_perm hi).append_left s.emitted).trans hs.emittedOnce
  obtain ⟨-, -, rfl⟩ | ⟨-, rfl⟩ := h
  · refine ⟨hs.written, hs.size, hs.ring, hs.subscribed, hperm, ?_, hs.primed, hs.asked⟩
    show (s.shownBy true ++ (s.wire ++ [s.emitting[i]])).Sublist _
    rw [← List.append_assoc]
    exact hs.heard.append_right _
  · exact ⟨hs.written, hs.size, hs.ring, hs.subscribed, hperm, hs.heard.trans (List.sublist_append_left _ _),
      hs.primed, hs.asked⟩

theorem Consistent.prime (hs : s.Consistent b ringSize) (h : s.step b .prime = some t) : t.Consistent b ringSize := by
  obtain ⟨items, u, hpriming, ⟨hframe, ⟨offered, hsub, hhere, -⟩, hother, hwritten⟩, rfl⟩ := step_prime h
  have hprimed := hs.primed
  rw [hpriming] at hprimed
  have htrue : u.shownBy true = s.shownBy true := hother
  refine ⟨hwritten hs.written, ?_, ?_, ?_, ?_, ?_, ?_, fun hasked => by cases hasked⟩
  · rw [hframe]
    exact hs.size
  · rw [hframe]
    exact hs.ring
  · rw [hframe]
    exact hs.subscribed
  · rw [hframe]
    exact hs.emittedOnce
  · show (u.shownBy true ++ u.wire).Sublist u.emitted
    rw [htrue, hframe]
    exact hs.heard
  · show (u.shownBy false ++ []).Sublist u.published.zipIdx
    rw [hhere, List.append_nil, hframe]
    exact ((List.Sublist.refl _).append hsub).trans hprimed

theorem Consistent.receive (hs : s.Consistent b ringSize) (h : s.step b .receive = some t) :
    t.Consistent b ringSize := by
  obtain ⟨p, wire, hwire, h⟩ := step_receive h
  have hheard := hs.heard
  rw [hwire] at hheard
  obtain ⟨-, rfl⟩ | ⟨-, hframe, ⟨offered, hsub, hhere, -⟩, hother, hwritten⟩ := h
  · refine ⟨hs.written, hs.size, hs.ring, hs.subscribed, hs.emittedOnce, ?_, hs.primed, hs.asked⟩
    exact ((List.Sublist.refl _).append (List.sublist_cons_self _ _)).trans hheard
  · have hfalse : t.shownBy false = s.shownBy false := hother
    have htrue : t.shownBy true = s.shownBy true ++ offered := hhere
    refine ⟨hwritten hs.written, ?_, ?_, ?_, ?_, ?_, ?_, ?_⟩
    · rw [hframe]
      exact hs.size
    · rw [hframe]
      exact hs.ring
    · rw [hframe]
      exact hs.subscribed
    · rw [hframe]
      exact hs.emittedOnce
    · rw [htrue, hframe, List.append_assoc]
      exact ((List.Sublist.refl _).append (hsub.append (List.Sublist.refl wire))).trans hheard
    · rw [hfalse, hframe]
      exact hs.primed
    · rw [hfalse, hframe]
      exact hs.asked

theorem Consistent.step (hs : s.Consistent b ringSize) (h : s.step b e = some t) : t.Consistent b ringSize := by
  cases e with
  | publish p => exact hs.publish h
  | emit i raises => exact hs.emit h
  | connect =>
    obtain rfl := step_connect h
    exact ⟨hs.written, hs.size, hs.ring, hs.subscribed, hs.emittedOnce, hs.heard, hs.primed, hs.asked⟩
  | disconnect =>
    simp only [LiveStream.step] at h
    split at h
    · obtain rfl := Option.some.inj h
      refine ⟨hs.written, hs.size, hs.ring, hs.subscribed, hs.emittedOnce, ?_, hs.primed, hs.asked⟩
      exact ((List.Sublist.refl _).append (List.nil_sublist _)).trans hs.heard
    · cases h
  | answer =>
    obtain ⟨hasked, rfl⟩ := step_answer h
    refine ⟨hs.written, hs.size, hs.ring, hs.subscribed, hs.emittedOnce, hs.heard, ?_,
      fun hanswered => by cases hanswered⟩
    show (s.shownBy false ++ s.recent).Sublist _
    rw [hs.asked hasked, List.nil_append, recent_eq hs.ring]
    exact (rtake_suffix _ _).sublist
  | noAnswer =>
    obtain rfl := Option.some.inj h
    refine ⟨hs.written, hs.size, hs.ring, hs.subscribed, hs.emittedOnce, hs.heard, ?_, fun hdone => by cases hdone⟩
    exact ((List.Sublist.refl _).append (List.nil_sublist _)).trans hs.primed
  | prime => exact hs.prime h
  | receive => exact hs.receive h
  | pause =>
    obtain rfl := Option.some.inj h
    exact ⟨hs.written, hs.size, hs.ring, hs.subscribed, hs.emittedOnce, hs.heard, hs.primed, hs.asked⟩
  | clear =>
    obtain rfl := Option.some.inj h
    refine ⟨⟨le_rfl, ?_⟩, hs.size, hs.ring, hs.subscribed, hs.emittedOnce, hs.heard, hs.primed, hs.asked⟩
    show Tail _ _ ((s.shown.drop s.shown.length).flatMap _) []
    rw [List.drop_length]
    exact tail_nil _ _
  | choose i =>
    cases i with
    | none =>
      obtain rfl := Option.some.inj h
      exact ⟨hs.written, hs.size, hs.ring, hs.subscribed, hs.emittedOnce, hs.heard, hs.primed, hs.asked⟩
    | some i =>
      simp only [LiveStream.step] at h
      split at h
      · obtain rfl := Option.some.inj h
        exact ⟨hs.written, hs.size, hs.ring, hs.subscribed, hs.emittedOnce, hs.heard, hs.primed, hs.asked⟩
      · cases h
  | refresh status =>
    obtain rfl := Option.some.inj h
    have htopic : ({ s with page := s.page.refreshFilterOptions b.toBrowser status } : LiveStream).topic = s.topic := by
      rw [topic, topic, (Live.options_refresh b.toBrowser s.page status).1]
    refine ⟨hs.written, hs.size, ?_, ?_, hs.emittedOnce, hs.heard, hs.primed, hs.asked⟩
    · rw [htopic]
      exact hs.ring
    · rw [htopic]
      exact hs.subscribed

theorem consistent_of_run {es : List LiveStreamEvent} (h : run (step b) (start ringSize isIncoming) es = some s) :
    s.Consistent b ringSize :=
  run_inv_of_step (fun _ _ _ hs hst => hs.step hst) (consistent_start b ringSize isIncoming) h

theorem Consistent.emitted_nodup (hs : s.Consistent b ringSize) : s.emitted.Nodup :=
  (List.sublist_append_left _ _).nodup (hs.emittedOnce.nodup_iff.2 (nodup_zipIdx _))

theorem Consistent.mem_emitted (hs : s.Consistent b ringSize) (hp : p ∈ s.emitted) : p ∈ s.published.zipIdx :=
  hs.emittedOnce.mem_iff.1 (List.mem_append_left _ hp)

end LiveStream

open LiveStream

/-- **What stands on the page.**  In every run of publishers, callbacks, the connection, the request and the user, in any
order, the text is the end of the lines appended since it was cleared; it has 200000 code units at most and is cut only
to the last 120000.  What came with the answer is in the order of publication, what came over `/live` in the order of
the callbacks, and every payload is on its way to its callback or behind it, once. -/
theorem live_page {b : StreamBrowser} {ringSize : ℕ} {isIncoming : Bool} {es : List LiveStreamEvent} {s : LiveStream}
    (h : run (LiveStream.step b) (start ringSize isIncoming) es = some s) :
    Tail 120000 200000 ((s.shown.drop s.cleared).flatMap fun p => b.line p.2.1) s.text ∧
    (s.shownBy false).Sublist s.published.zipIdx ∧ (s.shownBy true).Sublist s.emitted ∧
    (s.emitted ++ s.emitting).Perm s.published.zipIdx := by
  have hs := consistent_of_run h
  exact ⟨hs.written.2, (List.sublist_append_left _ _).trans hs.primed, (List.sublist_append_left _ _).trans hs.heard,
    hs.emittedOnce⟩

/-- A browser that shows no times. -/
def plainStreamBrowser : StreamBrowser := { Live.plainBrowser with toLocaleTimeString := fun _ => [] }

def report (c : Char) : UiEvent := .incoming [c] ['n'] 0 none

/-- One report has been emitted and a second is on its way to its callback. -/
def beforeAnswer : List LiveStreamEvent := [.publish (report 'a'), .emit 0 false, .publish (report 'b')]

/-- A third is emitted before the connection is open, and the second after. -/
def afterAnswer : List LiveStreamEvent :=
  [.publish (report 'c'), .emit 1 false, .connect, .emit 0 false, .prime, .receive]

theorem live_page_threeReports : ∃ s, run (LiveStream.step plainStreamBrowser) (start 500 true)
    (beforeAnswer ++ .answer :: afterAnswer) = some s ∧
      s.text = [report 'a', report 'b', report 'b'].flatMap plainStreamBrowser.line ∧
      (s.shownBy true).Sublist s.emitted := by
  have hrun : (run (LiveStream.step plainStreamBrowser) (start 500 true)
      (beforeAnswer ++ .answer :: afterAnswer)).map (·.text) =
        some ([report 'a', report 'b', report 'b'].flatMap plainStreamBrowser.line) := by decide +kernel
  obtain ⟨s, hs, htext⟩ := Option.map_eq_some_iff.1 hrun
  exact ⟨s, hs, htext, (live_page hs).2.2.1⟩

namespace LiveStream

variable {b : StreamBrowser} {s t u : LiveStream} {e : LiveStreamEvent} {p : UiEvent × ℕ} {ringSize : ℕ}
  {isIncoming : Bool}

/-! ### A page left to itself -/

/-- The connection and the request do not fail, and the user neither pauses the page nor selects an option. -/
def Undisturbed : LiveStreamEvent → Prop
  | .disconnect | .noAnswer | .pause | .choose (some _) => False
  | .emit _ raises => raises = false
  | _ => True

/-- Nothing is on its way any more. -/
structure Settled (s : LiveStream) : Prop where
  emitting : s.emitting = []
  wire : s.wire = []
  priming : s.priming = .done

/-- The page appends all that it is told. -/
structure Attentive (s : LiveStream) : Prop where
  all : s.page.selected = none
  running : s.paused = false
  heard : s.emitted.Perm (s.unheard ++ (s.shownBy true ++ s.wire))

theorem attentive_start (ringSize : ℕ) (isIncoming : Bool) : (start ringSize isIncoming).Attentive :=
  ⟨rfl, rfl, List.Perm.refl _⟩

/-- A refresh selects nothing by itself. -/
theorem selected_refresh {b : Browser} {page : StreamPage} (h : page.selected = none) (status : Option Status) :
    (page.refreshFilterOptions b status).selected = none := by
  have hentry : page.selectedEntry = none := by rw [StreamPage.selectedEntry, h, Option.bind_none]
  have hvalue : page.value b = [] := by rw [StreamPage.value, hentry]
  simp only [StreamPage.refreshFilterOptions, hvalue]
  split
  · exact h
  · simp

theorem Attentive.step (hs : s.Attentive) (he : Undisturbed e) (h : s.step b e = some t) : t.Attentive := by
  cases e with
  | publish p =>
    simp only [LiveStream.step] at h
    split at h <;>
    · obtain rfl := Option.some.inj h
      exact ⟨hs.all, hs.running, hs.heard⟩
  | emit i raises =>
    obtain ⟨p, -, ⟨-, -, rfl⟩ | ⟨-, rfl⟩⟩ := step_emit h
    · refine ⟨hs.all, hs.running, ?_⟩
      show (s.emitted ++ [p]).Perm (s.unheard ++ (s.shownBy true ++ (s.wire ++ [p])))
      rw [← List.append_assoc (s.shownBy true), ← List.append_assoc s.unheard]
      exact hs.heard.append_right _
    · refine ⟨hs.all, hs.running, ?_⟩
      show (s.emitted ++ [p]).Perm (s.unheard ++ [p] ++ (s.shownBy true ++ s.wire))
      rw [List.append_assoc s.unheard]
      refine (hs.heard.append_right _).trans ?_
      rw [List.append_assoc s.unheard]
      exact List.perm_append_comm.append_left _
  | connect =>
    obtain rfl := step_connect h
    exact ⟨hs.all, hs.running, hs.heard⟩
  | answer =>
    obtain ⟨-, rfl⟩ := step_answer h
    exact ⟨hs.all, hs.running, hs.heard⟩
  | prime =>
    obtain ⟨items, u, -, ⟨hframe, -, hother, -⟩, rfl⟩ := step_prime h
    have htrue : u.shownBy true = s.shownBy true := hother
    refine ⟨?_, ?_, ?_⟩
    · rw [hframe]
      exact hs.all
    · rw [hframe]
      exact hs.running
    · show u.emitted.Perm (u.unheard ++ (u.shownBy true ++ u.wire))
      rw [htrue, hframe]
      exact hs.heard
  | receive =>
    obtain ⟨p, wire, hwire, ⟨hpaused, -⟩ | ⟨-, hframe, ⟨offered, -, hhere, hall⟩, -, -⟩⟩ := step_receive h
    · cases hpaused.symm.trans hs.running
    · have hheard := hs.heard
      rw [hwire] at hheard
      have htrue : t.shownBy true = s.shownBy true ++ offered := hhere
      refine ⟨?_, ?_, ?_⟩
      · rw [hframe]
        exact hs.all
      · rw [hframe]
        exact hs.running
      · rw [htrue, hall hs.all, hframe, List.append_assoc (s.shownBy true)]
        exact hheard
  | clear =>
    obtain rfl := Option.some.inj h
    exact ⟨hs.all, hs.running, hs.heard⟩
  | choose i =>
    cases i with
    | none =>
      obtain rfl := Option.some.inj h
      exact ⟨rfl, hs.running, hs.heard⟩
    | some i => exact he.elim
  | refresh status =>
    obtain rfl := Option.some.inj h
    exact ⟨selected_refresh hs.all status, hs.running, hs.heard⟩
  | disconnect | noAnswer | pause => exact he.elim

/-- Since the answer in the state `u` the page is told what it holds, and nothing is unheard once the connection is
open. -/
structure Told (u s : LiveStream) : Prop where
  told : s.shownBy false ++ s.priming.items = u.recent
  answered : s.priming ≠ .asked
  opened : u.connected = true → s.connected = true ∧ s.unheard = u.unheard

theorem Consistent.told_answer (hs : s.Consistent b ringSize) (h : s.step b .answer = some t) : s.Told t := by
  obtain ⟨hasked, rfl⟩ := step_answer h
  refine ⟨?_, (fun hasked => nomatch hasked), fun hopen => ⟨hopen, rfl⟩⟩
  show s.shownBy false ++ s.recent = s.recent
  rw [hs.asked hasked, List.nil_append]

theorem Told.step (hs : u.Told s) (ha : s.Attentive) (he : Undisturbed e) (h : s.step b e = some t) : u.Told t := by
  cases e with
  | publish p =>
    simp only [LiveStream.step] at h
    split at h <;>
    · obtain rfl := Option.some.inj h
      exact ⟨hs.told, hs.answered, hs.opened⟩
  | emit i raises =>
    obtain rfl := he
    obtain ⟨p, -, ⟨-, -, rfl⟩ | ⟨hclosed | hraises, rfl⟩⟩ := step_emit h
    · exact ⟨hs.told, hs.answered, hs.opened⟩
    · exact ⟨hs.told, hs.answered, fun hu => by cases hclosed.symm.trans (hs.opened hu).1⟩
    · cases hraises
  | connect =>
    obtain rfl := step_connect h
    exact ⟨hs.told, hs.answered, fun hu => ⟨rfl, (hs.opened hu).2⟩⟩
  | answer => exact absurd (step_answer h).1 hs.answered
  | prime =>
    obtain ⟨items, v, hpriming, ⟨hframe, ⟨offered, -, hhere, hall⟩, -, -⟩, rfl⟩ := step_prime h
    have htold := hs.told
    rw [hpriming] at htold
    refine ⟨?_, (fun hasked => nomatch hasked), ?_⟩
    · show v.shownBy false ++ [] = u.recent
      rw [hhere, hall ha.all, List.append_nil]
      exact htold
    · rw [hframe]
      exact hs.opened
  | receive =>
    obtain ⟨p, wire, -, ⟨-, rfl⟩ | ⟨-, hframe, -, hother, -⟩⟩ := step_receive h
    · exact ⟨hs.told, hs.answered, hs.opened⟩
    · have hfalse : t.shownBy false = s.shownBy false := hother
      refine ⟨?_, ?_, ?_⟩
      · rw [hfalse, hframe]
        exact hs.told
      · rw [hframe]
        exact hs.answered
      · rw [hframe]
        exact hs.opened
  | clear =>
    obtain rfl := Option.some.inj h
    exact ⟨hs.told, hs.answered, hs.opened⟩
  | choose i =>
    cases i with
    | none =>
      obtain rfl := Option.some.inj h
      exact ⟨hs.told, hs.answered, hs.opened⟩
    | some i => exact he.elim
  | refresh status =>
    obtain rfl := Option.some.inj h
    exact ⟨hs.told, hs.answered, hs.opened⟩
  | disconnect | noAnswer | pause => exact he.elim

theorem count_shown (s : LiveStream) (p : UiEvent × ℕ) :
    (s.shown.map (·.2)).count p = (s.shownBy false).count p + (s.shownBy true).count p := by
  unfold shownBy
  induction s.shown with
  | nil => rfl
  | cons x shown ih =>
    obtain ⟨way, q⟩ := x
    cases way
    · simp only [List.map_cons, List.count_cons, ih, List.filter_cons, decide_true, if_true, decide_false,
        Bool.false_eq_true, if_false]
      omega
    · simp only [List.map_cons, List.count_cons, ih, List.filter_cons, decide_true, if_true, Bool.true_eq_false,
        decide_false, Bool.false_eq_true, if_false]
      omega

theorem count_of_perm {α : Type} [BEq α] [LawfulBEq α] {l l' m : List α} {x : α} [Decidable (x ∈ l)]
    (h : m.Perm (l ++ l')) (hm : m.Nodup) (hx : x ∈ m) : l'.count x = if x ∈ l then 0 else 1 := by
  have hone := List.count_eq_one_of_mem hm hx
  rw [h.count_eq, List.count_append] at hone
  split
  · rename_i hl
    have := List.one_le_count_iff.2 hl
    omega
  · rename_i hl
    have := List.count_eq_zero_of_not_mem hl
    omega

end LiveStream

/-- **What an undisturbed page misses.**  When everything has arrived on a page whose connection and request did not fail,
a payload was appended once for being among the last hundred of the ring when the answer was made, and once for having
been emitted over an open connection: a payload that was published after the answer and emitted before the connection is
never appended, and one that was published before and emitted after is appended twice.  If the connection was open when
the answer was made, nothing is left out from the first payload of the answer on.  What of it still stands in the text is
another matter: `append` cuts it, and the user may clear it. -/
theorem live_page_gap {b : StreamBrowser} {ringSize : ℕ} {isIncoming : Bool} {fs gs : List LiveStreamEvent}
    {u s : LiveStream} (hu : run (LiveStream.step b) (start ringSize isIncoming) fs = some u)
    (h : run (LiveStream.step b) u (.answer :: gs) = some s) (hundisturbed : ∀ e ∈ fs ++ .answer :: gs, Undisturbed e)
    (hsettled : s.Settled) :
    u.recent = u.published.zipIdx.rtake (min 100 ringSize) ∧
    (∀ p ∈ s.published.zipIdx, (s.shown.map (·.2)).count p =
      (if p ∈ u.recent then 1 else 0) + if p ∈ s.unheard then 0 else 1) ∧
    (u.connected = true → ∀ p ∈ s.published.zipIdx, u.published.length ≤ p.2 + min 100 ringSize →
      p ∈ s.shown.map (·.2)) := by
  obtain ⟨t, hanswer, hgs⟩ := run_cons_some h
  have hs : s.Consistent b ringSize := consistent_of_run (by rw [run_append_of hu]; exact h)
  have hcu := consistent_of_run hu
  have hrecent := recent_eq hcu.ring
  obtain ⟨hfs, he, hgs'⟩ : (∀ e ∈ fs, Undisturbed e) ∧ Undisturbed .answer ∧ ∀ e ∈ gs, Undisturbed e := by
    simpa [or_imp, forall_and] using hundisturbed
  -- the page is attentive up to the answer, and from then on it is told
  have hau : u.Attentive := run_inv (C := fun _ e => Undisturbed e) (fun _ _ _ hs he hst => hs.step he hst)
    (attentive_start ringSize isIncoming) (guarded_of_forall_mem fun e he _ => hfs e he) hu
  obtain ⟨has, htolds⟩ : s.Attentive ∧ u.Told s :=
    run_inv (I := fun s => s.Attentive ∧ u.Told s) (C := fun _ e => Undisturbed e)
      (fun _ _ _ hs he hst => ⟨hs.1.step he hst, hs.2.step hs.1 he hst⟩) ⟨hau.step he hanswer, hcu.told_answer hanswer⟩
      (guarded_of_forall_mem fun e he _ => hgs' e he) hgs
  -- everything has arrived
  have hprimed : s.shownBy false = u.recent := by
    rw [← htolds.told, hsettled.priming]
    exact (List.append_nil _).symm
  have hemitted : s.emitted.Perm s.published.zipIdx := by
    have := hs.emittedOnce
    rwa [hsettled.emitting, List.append_nil] at this
  have hheard : s.emitted.Perm (s.unheard ++ s.shownBy true) := by
    have := has.heard
    rwa [hsettled.wire, List.append_nil] at this
  have hcount : ∀ p ∈ s.published.zipIdx, (s.shown.map (·.2)).count p =
      (if p ∈ u.recent then 1 else 0) + if p ∈ s.unheard then 0 else 1 := by
    intro p hp
    rw [count_shown, hprimed, count_of_perm hheard hs.emitted_nodup (hemitted.mem_iff.2 hp)]
    have hnodup : u.recent.Nodup := hrecent ▸ (rtake_suffix _ _).sublist.nodup (nodup_zipIdx _)
    rw [hnodup.count]
  refine ⟨hrecent, hcount, fun hopen p hp hlast => ?_⟩
  rw [← List.one_le_count_iff, hcount p hp]
  by_cases hheard : p ∈ s.unheard
  · rw [(htolds.opened hopen).2] at hheard
    have hpu : p ∈ u.published.zipIdx :=
      hcu.mem_emitted (hau.heard.mem_iff.2 (List.mem_append_left _ hheard))
    rw [if_pos (hrecent ▸ mem_rtake_zipIdx hpu hlast)]
    omega
  · rw [if_neg hheard]
    omega

/-- The first of three reports is appended once, the second twice, and the third not at all. -/
theorem live_page_gap_threeReports : ∃ u s,
    run (LiveStream.step plainStreamBrowser) (start 500 true) beforeAnswer = some u ∧
    run (LiveStream.step plainStreamBrowser) u (.answer :: afterAnswer) = some s ∧
    (s.shown.map (·.2)).count (report 'a', 0) = 1 ∧ (s.shown.map (·.2)).count (report 'b', 1) = 2 ∧
    (s.shown.map (·.2)).count (report 'c', 2) = 0 := by
  have hrun : (run (LiveStream.step plainStreamBrowser) (start 500 true) beforeAnswer).bind (fun u =>
      (run (LiveStream.step plainStreamBrowser) u (.answer :: afterAnswer)).map fun s =>
        decide ((s.emitting = [] ∧ s.wire = [] ∧ s.priming = .done) ∧
          s.published = [report 'a', report 'b', report 'c'] ∧ u.recent = [(report 'a', 0), (report 'b', 1)] ∧
          s.unheard = [(report 'a', 0), (report 'c', 2)])) = some true := by decide +kernel
  obtain ⟨u, hu, hfacts⟩ := Option.bind_eq_some_iff.1 hrun
  obtain ⟨s, hs, hfacts⟩ := Option.map_eq_some_iff.1 hfacts
  obtain ⟨⟨hemitting, hwire, hpriming⟩, hpublished, hrecent, hunheard⟩ := of_decide_eq_true hfacts
  have hundisturbed : ∀ e ∈ beforeAnswer ++ .answer :: afterAnswer, Undisturbed e := by
    simp [beforeAnswer, afterAnswer, Undisturbed]
  obtain ⟨-, hcount, -⟩ := live_page_gap hu hs hundisturbed ⟨hemitting, hwire, hpriming⟩
  rw [hpublished, hrecent, hunheard] at hcount
  refine ⟨u, s, hu, hs, ?_, ?_, ?_⟩
  · rw [hcount (report 'a', 0) (by decide)]
    decide
  · rw [hcount (report 'b', 1) (by decide)]
    decide
  · rw [hcount (report 'c', 2) (by decide)]
    decide

end AisServer.Web
