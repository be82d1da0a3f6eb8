import AisServer.Ingest.Terminators
import AisServer.Lib.Listing

/-!
# Replaying a file

`tools/replay.py` sends the lines of a file to the ingest port as a node would.

* `judged_of_replay` — every line that is not blank is judged on its own;
* `replay` — so a file of valid sentences is handed on whole, whatever its line ends are.
-/

namespace AisServer.Tools

open AisServer.Lib AisServer.Ingest

/-- The lines of the file that `main` sends, of the text that was decoded. -/
def replayLines (text : Str) : List Str := (splitlines (universalNewlines text)).filter fun ln => strip spaces ln ≠ []

/-- What `sender` sends for a line. -/
def sendLine (line : Str) : List UInt8 := encodeAscii (rstrip spaces line ++ ['\r', '\n'])

/-- All that one `sender` sends. -/
def sender (lines : List Str) : List UInt8 := lines.flatMap sendLine

/-- The line as the server takes it. -/
def sentLine (line : Str) : List UInt8 := encodeAscii (rstrip spaces line) ++ [13]

variable {text s t : Str} {es : List IngestEvent} {d : Delivery} {i : ℕ} {x : Session}

/-- Blank lines aside, the line ends that the file is read with are those of `linesFrom`. -/
theorem replayLines_eq (text : Str) : replayLines text = (linesFrom [] text).filter fun ln => strip spaces ln ≠ [] := by
  rw [replayLines, ← List.filterMap_eq_filter, filterMap_splitlines (by decide), linesFrom_universalNewlines,
    List.filterMap_eq_filter]

theorem lineFeed_notMem_encode (h : '\n' ∉ s) : 10 ∉ encodeAscii s := by
  have hfilter : encodeAscii s = encodeAscii (s.filter fun c => c.toNat < 128) := by
    rw [encodeAscii, encodeAscii, List.filter_filter]
    simp
  rw [hfilter]
  exact lineFeed_notMem_encodeAscii (fun hn => h (List.mem_filter.1 hn).1)
    fun c hc => of_decide_eq_true (List.mem_filter.1 hc).2

theorem framed_sender : Framed 10 (sender (replayLines text)) ((replayLines text).map sentLine) [] := by
  constructor
  · rw [sender, List.append_nil, ← List.flatMap_def, List.flatMap_map]
    refine List.flatMap_congr fun l _ => ?_
    rw [sendLine, encodeAscii_append, sentLine, List.append_assoc]
    rfl
  · intro r hr
    obtain ⟨l, hl, rfl⟩ := List.mem_map.1 hr
    rw [replayLines_eq] at hl
    have hbreaks : OneLine l := oneLine_of_mem_linesFrom (by simp [OneLine]) (List.mem_filter.1 hl).1
    have hn : '\n' ∉ rstrip spaces l := by
      intro hn
      obtain ⟨w, hw, -⟩ := exists_rstrip spaces l
      exact hbreaks '\n' (hw ▸ List.mem_append_left w hn) (by decide)
    simp [sentLine, lineFeed_notMem_encode hn]

/-- A session that received the lines of a file and waits for more has judged each of them on its own. -/
theorem judged_of_replay (h : run Delivery.step {} es = some d) (hx : d.ledger.server.sessions[i]? = some x)
    (hpc : x.pc = .recv) (hbytes : (d.ledger.chunksOf i).flatten = sender (replayLines text)) :
    d.sentencesOf i = (replayLines text).filterMap fun l => (readLine (sentLine l)).map (·.1) := by
  obtain ⟨hframed, hwaits⟩ := (Ledger.framedLines_of_run (Delivery.ledger_of_run h)).session i x hx
  rw [hbytes] at hframed
  obtain ⟨hlines, -⟩ := hframed.unique framed_sender (hwaits hpc) List.not_mem_nil
  rw [Delivery.sentencesOf, hlines, List.filterMap_map]
  rfl

theorem filter_readLine (lines : List Str) :
    (lines.filterMap fun l => (readLine (sentLine l)).map (·.1)).filter wellFormed =
      lines.filterMap fun l => accepted (sentLine l) := by
  rw [List.filter_filterMap]
  refine List.filterMap_congr fun l _ => ?_
  rw [accepted]
  rcases readLine (sentLine l) with _ | r
  · rfl
  · rw [Option.map_some, Option.filter_some]
    rfl

/-! ### A file of sentences -/

/-- The characters of a line end. -/
def ending : Terminator → Str
  | .lf => ['\n']
  | .crlf => ['\r', '\n']
  | .cr => ['\r']

/-- The text of a file with a sentence on each line. -/
def fileOf (xs : List (Str × Terminator)) : Str := xs.flatMap fun x => x.1 ++ ending x.2

/-- A valid sentence that fits on a line. -/
structure FileSentence (s : Str) : Prop where
  valid : ValidSentence s
  oneLine : OneLine s
  ended : rstrip spaces s = s

variable {xs : List (Str × Terminator)}

theorem FileSentence.head (h : FileSentence s) : s.head? = some '!' := by
  obtain ⟨p, hp, -⟩ := wellFormed_iff.1 h.valid.wellFormed
  obtain ⟨t, -, rest, rfl⟩ := Nmea.aisRe_iff.1 (Nmea.parse_spec hp).1
  rfl

theorem FileSentence.strip_ne_nil (h : FileSentence s) : strip spaces s ≠ [] := by
  rw [strip_eq, lstrip_eq_self.2 (by simp [h.head]; decide), h.ended]
  rintro rfl
  cases h.head

theorem head_fileOf (hv : ∀ x ∈ xs, FileSentence x.1) : (fileOf xs).head? ≠ some '\n' := by
  cases xs with
  | nil => exact fun h => by cases h
  | cons x xs =>
    have hhead := (hv x List.mem_cons_self).head
    rw [fileOf, List.flatMap_cons, List.append_assoc, List.head?_append, hhead, Option.some_or]
    decide

/-- Each of the three ends a line, but a carriage return does not with a line feed behind it. -/
theorem linesFrom_ending (hs : OneLine s) (terminator : Terminator) (ht : t.head? ≠ some '\n') :
    linesFrom [] (s ++ ending terminator ++ t) = s :: linesFrom [] t := by
  rw [List.append_assoc, linesFrom_append_of_oneLine hs, List.nil_append]
  cases terminator with
  | lf => exact linesFrom_break (by decide) (by simp)
  | crlf => rfl
  | cr =>
    refine linesFrom_break (by decide) ?_
    rintro ⟨-, u, rfl⟩
    exact ht rfl

theorem replayLines_fileOf (hv : ∀ x ∈ xs, FileSentence x.1) : replayLines (fileOf xs) = xs.map (·.1) := by
  rw [replayLines_eq]
  induction xs with
  | nil => rfl
  | cons x xs ih =>
    obtain ⟨hx, hxs⟩ := List.forall_mem_cons.1 hv
    rw [fileOf, List.flatMap_cons, ← fileOf, linesFrom_ending hx.oneLine x.2 (head_fileOf hxs),
      List.filter_cons_of_pos (by simpa using hx.strip_ne_nil), ih hxs, List.map_cons]

theorem readLine_sentLine (h : FileSentence s) : readLine (sentLine s) = some (s, none) := by
  rw [sentLine, h.ended]
  exact h.valid.readLine (Or.inr rfl)

/-- **Replaying a file.**  When a session has received what one sender sends of a file, in any chunks, and waits for
more, it has judged every line of the file that is not blank on its own, in order.  A file of valid sentences is handed
on whole and nothing of it is rejected, whatever its line ends are, though a carriage return alone ends no line of
the ingest port. -/
theorem replay (h : run Delivery.step {} es = some d) (hx : d.ledger.server.sessions[i]? = some x)
    (hpc : x.pc = .recv) (hbytes : (d.ledger.chunksOf i).flatten = sender (replayLines text)) :
    (d.callsOf i = (replayLines text).filterMap (fun l => accepted (sentLine l)) ∧
      d.rejectedOf i = ((replayLines text).filterMap fun l => (readLine (sentLine l)).map (·.1)).filter
        fun q => !wellFormed q) ∧
    ∀ xs, (∀ x ∈ xs, FileSentence x.1) → text = fileOf xs → d.callsOf i = xs.map (·.1) ∧ d.rejectedOf i = [] := by
  obtain ⟨hcalls, hrejected⟩ := Delivery.judged_of_run h hx hpc
  have hsentences := judged_of_replay h hx hpc hbytes
  refine ⟨⟨by rw [hcalls, hsentences, filter_readLine], by rw [hrejected, hsentences]⟩, ?_⟩
  rintro xs hv rfl
  have hall : d.sentencesOf i = xs.map (·.1) := by
    rw [hsentences, replayLines_fileOf hv, List.filterMap_map, ← List.filterMap_eq_map]
    refine List.filterMap_congr fun x hx => ?_
    simp [readLine_sentLine (hv x hx)]
  have hwf : ∀ q ∈ xs.map (·.1), wellFormed q = true := by
    intro q hq
    obtain ⟨y, hy, rfl⟩ := List.mem_map.1 hq
    exact (hv y hy).valid.wellFormed
  rw [hcalls, hrejected, hall]
  exact ⟨List.filter_eq_self.2 hwf, List.filter_eq_nil_iff.2 fun q hq => by simp [hwf q hq]⟩

theorem fileSentence_oneReport : FileSentence oneReport where
  valid := validSentence_oneReport
  oneLine := by
    have hall : (oneReport.all fun c => !lineBreaks.contains c) = true := by decide +kernel
    simpa [OneLine] using hall
  ended := by decide +kernel

/-- A file with three line ends, in two chunks. -/
def threeEnds : List (Str × Terminator) := [(oneReport, .cr), (oneReport, .crlf), (oneReport, .lf)]

def replayed (bytes : List UInt8) : List IngestEvent :=
  [.start ['p'] ['H'] 1, .recv 0 (bytes.take 70) 2, .line 0, .judge 0 2, .line 0, .recv 0 (bytes.drop 70) 3, .line 0,
    .judge 0 3, .line 0, .judge 0 3, .line 0]

theorem replay_threeEnds : ∃ d, run Delivery.step {} (replayed (sender (replayLines (fileOf threeEnds)))) = some d ∧
    d.callsOf 0 = [oneReport, oneReport, oneReport] ∧ d.rejectedOf 0 = [] := by
  have hrun : (run Delivery.step {} (replayed (sender (replayLines (fileOf threeEnds))))).map (fun d =>
      ((d.ledger.server.sessions[0]?).map (·.pc),
        decide ((d.ledger.chunksOf 0).flatten = sender (replayLines (fileOf threeEnds))))) =
      some (some .recv, true) := by decide +kernel
  obtain ⟨d, hd, hfacts⟩ := Option.map_eq_some_iff.1 hrun
  obtain ⟨hpc, hbytes⟩ : _ ∧ _ := by simpa using hfacts
  obtain ⟨x, hx, hpc⟩ := hpc
  exact ⟨d, hd, (replay hd hx hpc hbytes).2 threeEnds (by simp [threeEnds, fileSentence_oneReport]) rfl⟩

end AisServer.Tools
