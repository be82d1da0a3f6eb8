import AisServer.Lib.Decimal
import AisServer.Lib.Listing
import AisServer.Lib.Sorted

/-!
# The Wi-Fi listings

`scan` and `saved` of `wifi.py`, over what `nmcli` prints in terse mode.

* `scan_eq` — a scan as the first network of every name that is read from the lines;
* `listed_iff` — the access points whose listing is decoded;
* `saved_iff` — the connections whose listing is decoded;
* `listings_decode` — both.
-/

namespace AisServer.Host.Wifi

open AisServer.Lib

/-- The machine the server is on. -/
structure Machine where
  /-- `shutil.which("nmcli")` finds a program. -/
  nmcli : Bool
  /-- The exit code of a command, and what it has printed. -/
  process : List Str → ℤ × Str

/-- `_run`: the exit code and the text of `stdout`. -/
def run (m : Machine) (args : List Str) : ℤ × Str := ((m.process args).1, universalNewlines (m.process args).2)

/-! ### Reading a listing -/

structure Network where
  ssid : Str
  signal : ℤ
  security : Str
  inUse : Bool
  deriving DecidableEq

/-- `int(text) if text else 0`, and 0 for a `ValueError` -/
def parseSignal (text : Str) : ℤ := if text = [] then 0 else (pyInt 10 text).getD 0

/-- `text or "Open"` -/
def orOpen (text : Str) : Str := if text = [] then "Open".toList else text

/-- The network on a line. -/
def networkOf (line : Str) : Option Network :=
  match line.splitOn ':' with
  | inUse :: ssid :: signal :: security :: _ =>
    some { ssid, signal := parseSignal signal, security := orOpen security, inUse := inUse = ['*'] }
  | _ => none

/-- One line of the loop, with `networks` and `seen`. -/
def scanLine (acc : List Network × List Str) (line : Str) : List Network × List Str :=
  match networkOf line with
  | none => acc
  | some n => if n.ssid = [] ∨ acc.2.contains n.ssid then acc else (acc.1 ++ [n], n.ssid :: acc.2)

def listArgs (interface : Str) : List Str :=
  ["nmcli", "-t", "-f", "IN-USE,SSID,SIGNAL,SECURITY", "device", "wifi", "list", "ifname"].map String.toList ++ [interface]

/-- `scan`, where the command that comes first has no part in the result. -/
def scan (m : Machine) (interface : Str) : List Network :=
  if !m.nmcli then []
  else
    let (rc, out) := run m (listArgs interface)
    if rc ≠ 0 then [] else sortDesc (·.signal) ((splitlines out).foldl scanLine ([], [])).1

def wireless : Str := "802-11-wireless".toList

/-- The name in the parts of a line, if it is that of a wireless connection. -/
def savedName (parts : List Str) : Option Str :=
  match parts with
  | name :: type :: _ => if type = wireless then some name else none
  | _ => none

def savedLine (line : Str) : Option Str := savedName (line.splitOn ':')

def savedArgs : List Str := ["nmcli", "-t", "-f", "NAME,TYPE", "connection", "show"].map String.toList

/-- `saved`, the list of the `ssid` fields -/
def saved (m : Machine) : List Str :=
  if !m.nmcli then []
  else
    let (rc, out) := run m savedArgs
    if rc ≠ 0 then [] else (splitlines out).filterMap savedLine

/-! ### What is listed -/

structure AccessPoint where
  inUse : Bool
  ssid : Str
  signal : ℤ
  security : Str

/-- `IN-USE,SSID,SIGNAL,SECURITY` -/
def AccessPoint.fields (p : AccessPoint) : List Str := [if p.inUse then ['*'] else [' '], p.ssid, pyStr p.signal, p.security]

/-- A connection of NetworkManager.  Its type is one of the setting names. -/
structure Connection where
  name : Str
  type : Str
  type_word : ∀ c ∈ type, c.isAlphanum = true ∨ c = '-'

/-- `NAME,TYPE` -/
def Connection.fields (c : Connection) : List Str := [c.name, c.type]

/-- One network for each name, with the signal and the security of the first access point that has it, the strongest
first. -/
structure Listed (points : List AccessPoint) (networks : List Network) : Prop where
  nodup : (networks.map (·.ssid)).Nodup
  taken : ∀ n ∈ networks, ∃ p, IsFirst (·.ssid) points p ∧ p.ssid ≠ [] ∧
    n.ssid = p.ssid ∧ n.signal = p.signal ∧ n.security = orOpen p.security
  complete : ∀ p ∈ points, p.ssid ≠ [] → ∃ n ∈ networks, n.ssid = p.ssid
  sorted : networks.Pairwise fun a b => b.signal ≤ a.signal

/-- The names are plain, so are the security texts that are taken, with signals that `int` reads, and no further line
of a security text has three colons. -/
structure Decodable (points : List AccessPoint) : Prop where
  ssid : ∀ p ∈ points, Plain p.ssid
  security : ∀ p, IsFirst (·.ssid) points p → p.ssid ≠ [] → Plain p.security
  signal : ∀ p, IsFirst (·.ssid) points p → p.ssid ≠ [] → (decimal p.signal.natAbs).length ≤ maxStrDigits
  rest : ∀ p ∈ points, ∀ line ∈ (linesFrom [] p.security).tail, line.count ':' < 3

/-- A line of the name reads as that of a wireless connection. -/
def Posing (name : Str) : Prop := ∃ line ∈ linesFrom [] name, ∃ u, ':' ∉ u ∧ line = u ++ ':' :: wireless

/-- The names of the wireless connections are plain, and no other name poses. -/
def NamesDecodable (connections : List Connection) : Prop :=
  ∀ c ∈ connections, if c.type = wireless then Plain c.name else ¬ Posing c.name

/-! ### The lines of a listing -/

section Reading

variable {line : Str} {n : Network}

/-- What is read from a listing is read from its rows. -/
theorem filterMap_listing {α : Type} {f : Str → Option α} (hf : f [] = none) (rows : List (List Str)) :
    (linesFrom [] (listing rows)).filterMap f = rows.flatMap fun row => (linesFrom [] (terse row)).filterMap f := by
  induction rows with
  | nil => simp [listing, linesFrom, hf]
  | cons row rows ih =>
    have hcons : listing (row :: rows) = terse row ++ '\n' :: listing rows := by simp [listing]
    rw [hcons, filterMap_linesFrom_append hf, ih, List.flatMap_cons]

/-- The network on a line, if it has a name. -/
def named (line : Str) : Option Network := (networkOf line).filter (·.ssid ≠ [])

theorem foldl_scanLine (lines : List Str) (networks : List Network) (seen : List Str) :
    (lines.foldl scanLine (networks, seen)).1 = networks ++ firsts (·.ssid) seen (lines.filterMap named) := by
  induction lines generalizing networks seen with
  | nil => simp [firsts]
  | cons line lines ih =>
    rw [List.foldl_cons, scanLine]
    rcases hn : networkOf line with _ | n
    · rw [ih, List.filterMap_cons_none (by simp [named, hn])]
    · by_cases hssid : n.ssid = []
      · rw [List.filterMap_cons_none (by simp [named, hn, hssid])]
        simp only [hssid, true_or, if_true]
        exact ih ..
      · rw [List.filterMap_cons_some (b := n) (by simp [named, hn, hssid]), firsts]
        by_cases hseen : n.ssid ∈ seen
        · simp only [hssid, List.contains_iff_mem, hseen, or_true, if_true]
          exact ih ..
        · simp only [hssid, List.contains_iff_mem, hseen, or_self, if_false]
          rw [ih, List.append_assoc, List.singleton_append]

/-- **A scan**: the first network of every name, the strongest first. -/
theorem scan_eq {m : Machine} {interface out : Str} (hm : m.nmcli = true)
    (hout : m.process (listArgs interface) = (0, out)) :
    scan m interface = sortDesc (·.signal) (firsts (·.ssid) [] ((linesFrom [] out).filterMap named)) := by
  have hlines : (splitlines (universalNewlines out)).filterMap named = (linesFrom [] out).filterMap named := by
    rw [filterMap_splitlines rfl, linesFrom_universalNewlines]
  simp only [scan, hm, run, hout, Bool.not_true, Bool.false_eq_true, if_false, ne_eq, not_true_eq_false]
  rw [foldl_scanLine, hlines, List.nil_append]

theorem ssid_of_named (hl : OneLine line) (h : named line = some n) : OneLine n.ssid ∧ ':' ∉ n.ssid := by
  obtain ⟨hn, -⟩ := Option.filter_eq_some_iff.1 h
  have hmem : n.ssid ∈ line.splitOn ':' := by
    unfold networkOf at hn
    split at hn
    · rename_i hsplit
      cases hn
      simp [hsplit]
    · cases hn
  exact ⟨fun c hc => hl c ((infix_of_mem_splitOn hmem).subset hc), notMem_of_mem_splitOn hmem⟩

theorem named_escape (line : Str) :
    (line.count ':' < 3 ∧ named (escape line) = none) ∨
      3 ≤ line.count ':' ∧ ∃ n, named (escape line) = some n ∧ '\\' ∈ n.ssid := by
  have hlen := length_splitOn ':' (escape line)
  rw [count_escape] at hlen
  rcases Nat.lt_or_ge (line.count ':') 3 with hlt | hge
  · refine Or.inl ⟨hlt, ?_⟩
    unfold named networkOf
    split
    · rename_i hsplit
      rw [hsplit] at hlen
      simp only [List.length_cons] at hlen
      omega
    · rfl
  · refine Or.inr ⟨hge, ?_⟩
    have hcut : ∀ s : Str, 0 < s.count ':' → ∃ u v, ':' ∉ u ∧ s = u ++ ':' :: v ∧ s.count ':' = v.count ':' + 1 := by
      intro s hs
      obtain ⟨u, v, rfl, hu⟩ := List.eq_append_cons_of_mem (List.count_pos_iff.1 hs)
      exact ⟨u, v, hu, rfl, by simp [List.count_eq_zero_of_not_mem hu]⟩
    obtain ⟨u, v, hu, rfl, hv⟩ := hcut line (by omega)
    obtain ⟨u', v', hu', rfl, hv'⟩ := hcut v (by omega)
    obtain ⟨u'', v'', hu'', rfl, -⟩ := hcut v' (by omega)
    obtain ⟨rest, hrest⟩ := splitOn_eq_cons ':' (escape v'')
    have hparts : networkOf (escape (u ++ ':' :: (u' ++ ':' :: (u'' ++ ':' :: v'')))) = some {
        ssid := escape u' ++ ['\\'], signal := parseSignal (escape u'' ++ ['\\']),
        security := orOpen (upTo ':' (escape v'')), inUse := escape u ++ ['\\'] = ['*'] } := by
      rw [networkOf, splitOn_escape hu, splitOn_escape hu', splitOn_escape hu'', hrest]
    exact ⟨_, by rw [named, hparts, Option.filter_some, if_pos (by simp)], by simp⟩

/-- What is read from the row of an access point. -/
def readPoint (p : AccessPoint) : List Network := (linesFrom [] (terse p.fields)).filterMap named

/-- The network that is read from the first line of a row. -/
def shown (p : AccessPoint) : Network where
  ssid := escape p.ssid
  signal := parseSignal (pyStr p.signal)
  security := orOpen (upTo ':' (escape ((linesFrom [] p.security).headD [])))
  inUse := p.inUse

theorem plain_pyStr (n : ℤ) : Plain (pyStr n) := by
  have hdigit : ∀ d < 10, Nat.digitChar d ≠ ':' ∧ Nat.digitChar d ≠ '\\' ∧ Nat.digitChar d ∉ lineBreaks := by decide
  intro c hc
  rcases mem_pyStr hc with rfl | ⟨d, hd, rfl⟩
  · decide
  · exact hdigit d hd

/-- **The row of an access point** whose name is on one line, with no colon. -/
theorem readPoint_eq {p : AccessPoint} (hcolon : ':' ∉ p.ssid) (hone : OneLine p.ssid) :
    readPoint p = (if p.ssid = [] then [] else [shown p]) ++
      ((linesFrom [] p.security).tail.map escape).filterMap named := by
  obtain ⟨head, tail, hlines⟩ := List.exists_cons_of_ne_nil (linesFrom_ne_nil [] p.security)
  have hflag : Plain (if p.inUse then ['*'] else [' ']) := by
    split <;> decide
  obtain ⟨before, hbefore⟩ : ∃ before, before = (if p.inUse then ['*'] else [' ']) ++
      ':' :: (escape p.ssid ++ ':' :: (pyStr p.signal ++ [':'])) := ⟨_, rfl⟩
  have hterse : terse p.fields = before ++ escape p.security := by
    simp [hbefore, terse, AccessPoint.fields, hflag.escape, (plain_pyStr p.signal).escape, List.intercalate]
  have honeBefore : OneLine before := by
    have hescaped := oneLine_escape.2 hone
    have hcolonBreak : ':' ∉ lineBreaks := by decide
    simp only [hbefore, OneLine, List.forall_mem_append, List.forall_mem_cons]
    exact ⟨hflag.oneLine, hcolonBreak, hescaped, hcolonBreak, (plain_pyStr p.signal).oneLine, hcolonBreak, by simp⟩
  have hrow : linesFrom [] (terse p.fields) = (before ++ escape head) :: tail.map escape := by
    rw [hterse, linesFrom_append_of_oneLine honeBefore, List.nil_append, linesFrom_eq_modifyHead, ← escape_nil,
      linesFrom_escape, hlines, List.map_cons, List.modifyHead_cons]
  obtain ⟨rest, hrest⟩ := splitOn_eq_cons ':' (escape head)
  have hnetwork : networkOf (before ++ escape head) = some (shown p) := by
    have hsplit : (before ++ escape head).splitOn ':' = (if p.inUse then ['*'] else [' ']) :: escape p.ssid ::
        pyStr p.signal :: upTo ':' (escape head) :: rest := by
      rw [hbefore, ← hrest, ← List.splitOn_append_cons_self_of_not_mem (plain_pyStr p.signal).notMem,
        ← List.splitOn_append_cons_self_of_not_mem (by rwa [colon_mem_escape]),
        ← List.splitOn_append_cons_self_of_not_mem hflag.notMem]
      simp
    rw [networkOf, hsplit]
    simp only [shown, hlines, List.headD_cons, Option.some.injEq, Network.mk.injEq, true_and]
    cases p.inUse <;> decide
  have hempty : (shown p).ssid = [] ↔ p.ssid = [] := by
    constructor
    · intro h
      have hlen := length_le_escape p.ssid
      rw [show escape p.ssid = [] from h] at hlen
      exact List.eq_nil_of_length_eq_zero (Nat.le_zero.1 hlen)
    · intro h
      rw [shown, h, escape_nil]
  rw [readPoint, hrow, hlines, List.tail_cons]
  by_cases hssid : p.ssid = []
  · rw [if_pos hssid, List.filterMap_cons_none (by simp [named, hnetwork, hempty.2 hssid]), List.nil_append]
  · have hssid' : (shown p).ssid ≠ [] := fun h => hssid (hempty.1 h)
    rw [if_neg hssid, List.filterMap_cons_some (b := shown p) (by simp [named, hnetwork, hssid']),
      List.singleton_append]

end Reading

/-! ### A scan -/

section Scans

variable {points : List AccessPoint} {p q : AccessPoint} {n : Network} {line : Str}

/-- What `scan` returns when these access points are listed. -/
def networks (points : List AccessPoint) : List Network :=
  sortDesc (·.signal) (firsts (·.ssid) [] (points.flatMap readPoint))

theorem scan_listing {m : Machine} {interface : Str} (hm : m.nmcli = true)
    (hout : m.process (listArgs interface) = (0, listing (points.map AccessPoint.fields))) :
    scan m interface = networks points := by
  rw [scan_eq hm hout, filterMap_listing rfl, List.flatMap_map]
  rfl

theorem mem_networks : n ∈ networks points ↔ IsFirst (·.ssid) (points.flatMap readPoint) n := by
  simp [networks, mem_firsts]

theorem exists_mem_networks (hp : p ∈ points) (hn : n ∈ readPoint p) : ∃ n' ∈ networks points, n'.ssid = n.ssid := by
  obtain ⟨n', hfirst, hssid⟩ := exists_isFirst Network.ssid (List.mem_flatMap.2 ⟨p, hp, hn⟩)
  exact ⟨n', mem_networks.2 hfirst, hssid⟩

theorem mem_readPoint_of_mem_networks (hn : n ∈ networks points) : ∃ p ∈ points, n ∈ readPoint p :=
  List.mem_flatMap.1 (mem_networks.1 hn).mem

theorem ssid_of_mem_networks (hn : n ∈ networks points) : OneLine n.ssid ∧ ':' ∉ n.ssid := by
  obtain ⟨p, -, hread⟩ := mem_readPoint_of_mem_networks hn
  obtain ⟨line, hline, hnamed⟩ := List.mem_filterMap.1 hread
  exact ssid_of_named (oneLine_of_mem_linesFrom (by simp [OneLine]) hline) hnamed

theorem shown_mem_readPoint (hcolon : ':' ∉ p.ssid) (hone : OneLine p.ssid) (hne : p.ssid ≠ []) :
    shown p ∈ readPoint p := by
  rw [readPoint_eq hcolon hone, if_neg hne]
  simp

/-- What is read from a further line of a row has a backslash in its name. -/
theorem backslash_of_mem_readPoint (hp : Plain p.ssid) (hn : n ∈ readPoint p) :
    (p.ssid ≠ [] ∧ n = shown p) ∨ '\\' ∈ n.ssid := by
  rw [readPoint_eq hp.notMem hp.oneLine] at hn
  rcases List.mem_append.1 hn with hn | hn
  · split at hn
    · cases hn
    · rename_i hne
      exact Or.inl ⟨hne, List.mem_singleton.1 hn⟩
  · obtain ⟨line, hline, hnamed⟩ := List.mem_filterMap.1 hn
    obtain ⟨line, -, rfl⟩ := List.mem_map.1 hline
    rcases named_escape line with ⟨-, hnone⟩ | ⟨-, n', hn', hslash⟩
    · rw [hnone] at hnamed
      cases hnamed
    · rw [hn'] at hnamed
      cases hnamed
      exact Or.inr hslash

/-- **The first access point of a name** gives the network that is taken, if all names are plain. -/
theorem isFirst_shown (hplain : ∀ p ∈ points, Plain p.ssid) (hp : IsFirst (·.ssid) points p) (hne : p.ssid ≠ []) :
    IsFirst (·.ssid) (points.flatMap readPoint) (shown p) := by
  have hpp := hplain p hp.mem
  have hssid : (shown p).ssid = p.ssid := hpp.escape
  obtain ⟨before, after, rfl, hkey⟩ := hp
  refine ⟨before.flatMap readPoint,
    ((linesFrom [] p.security).tail.map escape).filterMap named ++ after.flatMap readPoint, ?_, fun n hn => ?_⟩
  · rw [List.flatMap_append, List.flatMap_cons, readPoint_eq hpp.notMem hpp.oneLine, if_neg hne]
    simp
  · obtain ⟨q, hq, hread⟩ := List.mem_flatMap.1 hn
    have hqq := hplain q (List.mem_append_left _ hq)
    show n.ssid ≠ (shown p).ssid
    rw [hssid]
    rcases backslash_of_mem_readPoint hqq hread with ⟨-, rfl⟩ | hslash
    · rw [show (shown q).ssid = q.ssid from hqq.escape]
      exact hkey q hq
    · exact fun h => (hpp _ (h ▸ hslash)).2.1 rfl

theorem parseSignal_pyStr_iff (n : ℤ) :
    parseSignal (pyStr n) = n ↔ (decimal n.natAbs).length ≤ maxStrDigits := by
  have hne : pyStr n ≠ [] := by
    unfold pyStr
    split
    · simp
    · exact Nat.toDigits_ne_nil
  rw [parseSignal, if_neg hne, pyInt_pyStr_eq]
  split
  · rename_i hle
    simp [hle]
  · rename_i hlt
    refine iff_of_false (fun h => hlt ?_) hlt
    obtain rfl : 0 = n := h
    decide

/-- The security text is taken as it is exactly when it is plain. -/
theorem orOpen_upTo_iff (s : Str) :
    orOpen (upTo ':' (escape ((linesFrom [] s).headD []))) = orOpen s ↔ Plain s := by
  obtain ⟨head, tail, hlines⟩ := List.exists_cons_of_ne_nil (linesFrom_ne_nil [] s)
  rw [hlines, List.headD_cons]
  constructor
  · intro h
    by_cases hs : s = []
    · simp [hs, Plain]
    · rw [orOpen, orOpen, if_neg hs] at h
      split at h
      · -- nothing is read: the text would have been "Open"
        rename_i hnil
        subst h
        obtain ⟨rfl, -⟩ := List.cons.inj (hlines.symm.trans (linesFrom_of_oneLine (by decide) []))
        exact absurd hnil (by decide)
      · have hhead : OneLine head :=
          oneLine_of_mem_linesFrom (by simp [OneLine]) (hlines ▸ List.mem_cons_self ..)
        have hone : OneLine s := fun c hc => oneLine_escape.2 hhead c (List.takeWhile_subset _ (h ▸ hc))
        obtain ⟨hhead', -⟩ := List.cons.inj (hlines.symm.trans (linesFrom_of_oneLine hone []))
        rw [List.nil_append] at hhead'
        subst hhead'
        have hcolon : ':' ∉ head := (upTo_eq_iff.1 h).1
        rw [upTo_eq_self.2 (mt colon_mem_escape.1 hcolon)] at h
        exact fun c hc => ⟨(escape_eq_self_iff.1 h c hc).1, (escape_eq_self_iff.1 h c hc).2, hone c hc⟩
  · intro hs
    obtain ⟨hhead, -⟩ := List.cons.inj (hlines.symm.trans (linesFrom_of_oneLine hs.oneLine []))
    rw [hhead, List.nil_append, hs.escape]
    exact congrArg _ (upTo_eq_self.2 fun hc => (hs _ hc).1 rfl)

theorem Decodable.listed (h : Decodable points) : Listed points (networks points) := by
  have hread : ∀ p ∈ points, ∀ n ∈ readPoint p, p.ssid ≠ [] ∧ n = shown p := by
    intro p hp n hn
    have hpp := h.ssid p hp
    rw [readPoint_eq hpp.notMem hpp.oneLine] at hn
    rcases List.mem_append.1 hn with hn | hn
    · split at hn
      · cases hn
      · rename_i hne
        exact ⟨hne, List.mem_singleton.1 hn⟩
    · obtain ⟨line, hline, hnamed⟩ := List.mem_filterMap.1 hn
      obtain ⟨further, hfurther, rfl⟩ := List.mem_map.1 hline
      rcases named_escape further with ⟨-, hnone⟩ | ⟨hcount, -⟩
      · rw [hnone] at hnamed
        cases hnamed
      · exact absurd (h.rest p hp further hfurther) (Nat.not_lt.2 hcount)
  have hssid : ∀ p ∈ points, (shown p).ssid = p.ssid := fun p hp => (h.ssid p hp).escape
  refine ⟨?_, fun n hn => ?_, fun p hp hne => ?_, pairwise_sortDesc ..⟩
  · exact ((sortDesc_perm _ _).map _).nodup_iff.2 (nodup_firsts ..)
  · have hfirst := mem_networks.1 hn
    obtain ⟨p, hp, hnp⟩ := List.mem_flatMap.1 hfirst.mem
    obtain ⟨hne, rfl⟩ := hread p hp n hnp
    obtain ⟨q, hq, hkey⟩ := exists_isFirst AccessPoint.ssid hp
    have hqne : q.ssid ≠ [] := hkey ▸ hne
    have hsame : shown p = shown q :=
      hfirst.unique (isFirst_shown h.ssid hq hqne) ((hssid p hp).trans (hkey.symm.trans (hssid q hq.mem).symm))
    rw [hsame]
    exact ⟨q, hq, hqne, hssid q hq.mem, (parseSignal_pyStr_iff _).2 (h.signal q hq hqne),
      (orOpen_upTo_iff _).2 (h.security q hq hqne)⟩
  · obtain ⟨q, hq, hkey⟩ := exists_isFirst AccessPoint.ssid hp
    exact ⟨shown q, mem_networks.2 (isFirst_shown h.ssid hq (hkey ▸ hne)), (hssid q hq.mem).trans hkey⟩

/-- Names with a backslash get longer and longer: there is none. -/
theorem Listed.plain (h : Listed points (networks points)) : ∀ p ∈ points, Plain p.ssid := by
  have hclean : ∀ p ∈ points, OneLine p.ssid ∧ ':' ∉ p.ssid := by
    intro p hp
    by_cases hne : p.ssid = []
    · simp [hne, OneLine]
    · obtain ⟨n, hn, hssid⟩ := h.complete p hp hne
      exact hssid ▸ ssid_of_mem_networks hn
  have hlonger : ∀ k, ∀ p ∈ points, '\\' ∈ p.ssid → ∃ q ∈ points, '\\' ∈ q.ssid ∧ k + p.ssid.length ≤ q.ssid.length := by
    intro k
    induction k with
    | zero => exact fun p hp hslash => ⟨p, hp, hslash, by omega⟩
    | succ k ih =>
      intro p hp hslash
      obtain ⟨q, hq, hqslash, hlen⟩ := ih p hp hslash
      obtain ⟨hone, hcolon⟩ := hclean q hq
      obtain ⟨n, hn, hssid⟩ := exists_mem_networks hq (shown_mem_readPoint hcolon hone (List.ne_nil_of_mem hqslash))
      obtain ⟨r, hr, -, hrssid, -⟩ := h.taken n hn
      have hescape : escape q.ssid = r.ssid := hssid.symm.trans hrssid
      refine ⟨r, hr.mem, hescape ▸ mem_escape.2 (Or.inl hqslash), ?_⟩
      have hlt := length_lt_escape hqslash (Or.inr rfl)
      rw [hescape] at hlt
      omega
  intro p hp c hc
  refine ⟨fun hcolon => (hclean p hp).2 (hcolon ▸ hc), ?_, (hclean p hp).1 c hc⟩
  rintro rfl
  obtain ⟨q, hq, -, hlen⟩ := hlonger ((points.map AccessPoint.ssid).flatten.length + 1) p hp hc
  have hmem : q.ssid ∈ points.map AccessPoint.ssid := List.mem_map_of_mem hq
  have hle := (List.sublist_flatten_of_mem hmem).length_le
  omega

/-- **The access points whose listing is decoded.** -/
theorem listed_iff : Listed points (networks points) ↔ Decodable points := by
  refine ⟨fun h => ?_, Decodable.listed⟩
  have hplain := h.plain
  have hfirst : ∀ p, IsFirst (·.ssid) points p → p.ssid ≠ [] →
      parseSignal (pyStr p.signal) = p.signal ∧
        orOpen (upTo ':' (escape ((linesFrom [] p.security).headD []))) = orOpen p.security := by
    intro p hp hne
    obtain ⟨q, hq, -, hssid, hsignal, hsecurity⟩ := h.taken _ (mem_networks.2 (isFirst_shown hplain hp hne))
    obtain rfl : p = q := hp.unique hq ((hplain p hp.mem).escape.symm.trans hssid)
    exact ⟨hsignal, hsecurity⟩
  refine ⟨hplain, fun p hp hne => (orOpen_upTo_iff _).1 (hfirst p hp hne).2,
    fun p hp hne => (parseSignal_pyStr_iff _).1 (hfirst p hp hne).1, fun p hp line hline => ?_⟩
  rcases named_escape line with ⟨hlt, -⟩ | ⟨-, n, hn, hslash⟩
  · exact hlt
  · -- a further line that is read gives a name with a backslash
    have hread : n ∈ readPoint p := by
      rw [readPoint_eq (hplain p hp).notMem (hplain p hp).oneLine]
      exact List.mem_append_right _ (List.mem_filterMap.2 ⟨_, List.mem_map_of_mem hline, hn⟩)
    obtain ⟨n', hn', hssid⟩ := exists_mem_networks hp hread
    obtain ⟨q, hq, -, hqssid, -⟩ := h.taken n' hn'
    rw [← hssid, hqssid] at hslash
    exact absurd rfl (hplain q hq.mem _ hslash).2.1

end Scans

/-! ### Saved connections -/

section Saved

variable {connections : List Connection} {c : Connection} {name line u v type : Str}

/-- What is read from the row of a connection. -/
def readConnection (c : Connection) : List Str := (linesFrom [] (terse c.fields)).filterMap savedLine

theorem saved_listing {m : Machine} (hm : m.nmcli = true)
    (hout : m.process savedArgs = (0, listing (connections.map Connection.fields))) :
    saved m = connections.flatMap readConnection := by
  simp only [saved, hm, run, hout, Bool.not_true, Bool.false_eq_true, if_false, ne_eq, not_true_eq_false]
  rw [filterMap_splitlines rfl, linesFrom_universalNewlines, filterMap_listing rfl, List.flatMap_map]
  rfl

theorem Connection.plain_type (c : Connection) : Plain c.type := by
  have hall : ((':' :: '\\' :: lineBreaks).all fun c => !c.isAlphanum && c ≠ '-') = true := by decide
  intro d hd
  have hmem : d ∉ ':' :: '\\' :: lineBreaks := by
    intro h
    have hd' := List.all_eq_true.1 hall d h
    simp only [Bool.and_eq_true, Bool.not_eq_true', decide_eq_true_eq] at hd'
    rcases c.type_word d hd with h | h
    · rw [h] at hd'
      exact absurd hd'.1 (by decide)
    · exact hd'.2 h
  simpa only [List.mem_cons, not_or] using hmem

theorem upTo_escape_eq_wireless : upTo ':' (escape v) = wireless ↔ v = wireless := by
  constructor
  · intro h
    have hslash : '\\' ∉ upTo ':' (escape v) := by
      rw [h]
      decide
    by_cases hv : ':' ∈ v
    · obtain ⟨u, w, rfl, hu⟩ := List.eq_append_cons_of_mem hv
      have hesc : escape (u ++ ':' :: w) = (escape u ++ ['\\']) ++ ':' :: escape w := by
        rw [escape_append, escape_cons, if_pos (Or.inl rfl)]
        simp
      rw [hesc, upTo_append_cons_of_notMem _ (by simpa [colon_mem_escape] using hu)] at hslash
      simp at hslash
    · rw [upTo_eq_self.2 (mt colon_mem_escape.1 hv)] at h hslash
      rw [← h, escape_eq_self fun c hc => ⟨fun h => hv (h ▸ hc), fun h => hslash (mem_escape.2 (Or.inl (h ▸ hc)))⟩]
  · rintro rfl
    decide

/-- When an escaped line, with some parts behind it, reads as that of a wireless connection. -/
theorem savedName_escape (line : Str) (more : List Str) :
    savedName ((escape line).splitOn ':' ++ more) ≠ none ↔
      (∃ u, ':' ∉ u ∧ line = u ++ ':' :: wireless) ∨ ':' ∉ line ∧ more.head? = some wireless := by
  by_cases hl : ':' ∈ line
  · obtain ⟨u, v, rfl, hu⟩ := List.eq_append_cons_of_mem hl
    obtain ⟨rest, hrest⟩ := splitOn_eq_cons ':' (escape v)
    have hposes : (∃ u', ':' ∉ u' ∧ u ++ ':' :: v = u' ++ ':' :: wireless) ↔ v = wireless := by
      constructor
      · rintro ⟨u', hu', heq⟩
        have hcut := split1_eq_some.2 ⟨heq, hu'⟩
        rw [split1_eq_some.2 ⟨rfl, hu⟩] at hcut
        cases hcut
        rfl
      · rintro rfl
        exact ⟨u, hu, rfl⟩
    rw [hposes, splitOn_escape hu, hrest]
    simp [savedName, upTo_escape_eq_wireless]
  · have hnone : ¬ ∃ u, ':' ∉ u ∧ line = u ++ ':' :: wireless := by
      rintro ⟨u, -, rfl⟩
      exact hl (by simp)
    rw [List.splitOn_eq_singleton (by rwa [colon_mem_escape]), List.singleton_append]
    rcases more with _ | ⟨type, more⟩
    · simp [savedName, hnone]
    · simp [savedName, hnone, hl]

/-- The lines of a row: the type stands behind the last line of the name. -/
theorem readConnection_eq (c : Connection) : ∃ before last, linesFrom [] c.name = before ++ [last] ∧
    readConnection c = (before.map escape).filterMap savedLine ++
      (savedName ((escape last).splitOn ':' ++ [c.type])).toList := by
  have htype : OneLine (':' :: c.type) := List.forall_mem_cons.2 ⟨by decide, c.plain_type.oneLine⟩
  obtain ⟨before', last', hname, hrow⟩ := linesFrom_append_oneLine htype [] (escape c.name)
  obtain ⟨before, last, hlines⟩ : ∃ before last, linesFrom [] c.name = before ++ [last] :=
    ⟨_, _, (List.dropLast_concat_getLast (linesFrom_ne_nil [] c.name)).symm⟩
  have hmap := linesFrom_escape [] c.name
  rw [escape_nil, hname, hlines, List.map_append, List.map_singleton] at hmap
  obtain ⟨rfl, hlast⟩ := List.append_inj' hmap rfl
  obtain rfl := List.singleton_inj.1 hlast
  have hterse : terse c.fields = escape c.name ++ ':' :: c.type := by
    simp [terse, Connection.fields, c.plain_type.escape, List.intercalate]
  have hsplit : (escape last ++ ':' :: c.type).splitOn ':' = (escape last).splitOn ':' ++ [c.type] := by
    rw [List.splitOn_append_cons_self, List.splitOn_eq_singleton c.plain_type.notMem]
  refine ⟨before, last, hlines, ?_⟩
  rw [readConnection, hterse, hrow, List.filterMap_append, ← hsplit]
  rfl

theorem readConnection_eq_nil (hc : c.type ≠ wireless) : readConnection c = [] ↔ ¬ Posing c.name := by
  obtain ⟨before, last, hlines, hread⟩ := readConnection_eq c
  have hescaped : ∀ line, savedLine (escape line) = none ↔ ¬ ∃ u, ':' ∉ u ∧ line = u ++ ':' :: wireless := by
    intro line
    have h := savedName_escape line []
    simp only [List.append_nil, List.head?_nil, reduceCtorEq, and_false, or_false] at h
    rw [← h, not_not]
    rfl
  have hlast : savedName ((escape last).splitOn ':' ++ [c.type]) = none ↔
      ¬ ∃ u, ':' ∉ u ∧ last = u ++ ':' :: wireless := by
    have h := savedName_escape last [c.type]
    simp only [List.head?_cons, Option.some.injEq, hc, and_false, or_false] at h
    rw [← h, not_not]
  rw [hread, List.append_eq_nil_iff, List.filterMap_eq_nil_iff, List.forall_mem_map, Posing, hlines,
    Option.toList_eq_nil_iff, hlast]
  simp only [hescaped, List.mem_append, List.mem_singleton]
  constructor
  · rintro ⟨hbefore, hlast⟩ ⟨line, hmem | rfl, hposes⟩
    · exact hbefore line hmem hposes
    · exact hlast hposes
  · exact fun h => ⟨fun line hmem hposes => h ⟨line, Or.inl hmem, hposes⟩,
      fun hposes => h ⟨last, Or.inr rfl, hposes⟩⟩

theorem readConnection_of_wireless (hc : c.type = wireless) (hone : OneLine c.name) (hcolon : ':' ∉ c.name) :
    readConnection c = [escape c.name] := by
  obtain ⟨before, last, hlines, hread⟩ := readConnection_eq c
  rw [linesFrom_of_oneLine hone, List.nil_append] at hlines
  obtain ⟨rfl, hlast⟩ := List.append_inj' (show [] ++ [c.name] = before ++ [last] from hlines) rfl
  obtain rfl := List.singleton_inj.1 hlast
  rw [hread, List.splitOn_eq_singleton (by rwa [colon_mem_escape]), hc]
  rfl

theorem name_of_mem_readConnection (h : name ∈ readConnection c) : OneLine name ∧ ':' ∉ name := by
  obtain ⟨line, hline, hname⟩ := List.mem_filterMap.1 h
  have hone := oneLine_of_mem_linesFrom (by simp [OneLine]) hline
  have hmem : name ∈ line.splitOn ':' := by
    unfold savedLine savedName at hname
    split at hname
    · rename_i hsplit
      split at hname
      · cases hname
        simp [hsplit]
      · cases hname
    · cases hname
  exact ⟨fun c hc => hone c ((infix_of_mem_splitOn hmem).subset hc), notMem_of_mem_splitOn hmem⟩

/-- The names of the wireless connections. -/
def wirelessNames (connections : List Connection) : List Str :=
  (connections.filter (·.type = wireless)).map (·.name)

theorem length_wirelessNames_le (hone : ∀ c ∈ connections, c.type = wireless → readConnection c = [escape c.name]) :
    (wirelessNames connections).length ≤ (connections.flatMap readConnection).length := by
  induction connections with
  | nil => exact le_rfl
  | cons c connections ih =>
    obtain ⟨hc, hone⟩ := List.forall_mem_cons.1 hone
    have hle := ih hone
    rw [List.flatMap_cons, List.length_append, wirelessNames, List.filter_cons]
    rw [wirelessNames] at hle
    split
    · rename_i htype
      rw [hc (of_decide_eq_true htype), List.map_cons, List.length_cons, List.length_singleton]
      omega
    · omega

/-- Where each wireless connection adds one name, no other may add any, and each has to be printed as it is. -/
theorem flatMap_readConnection_eq (hone : ∀ c ∈ connections, c.type = wireless → readConnection c = [escape c.name]) :
    connections.flatMap readConnection = wirelessNames connections ↔
      ∀ c ∈ connections, if c.type = wireless then escape c.name = c.name else readConnection c = [] := by
  induction connections with
  | nil => simp [wirelessNames]
  | cons c connections ih =>
    obtain ⟨hc, hone⟩ := List.forall_mem_cons.1 hone
    have hle := length_wirelessNames_le hone
    rw [List.forall_mem_cons, ← ih hone, List.flatMap_cons]
    by_cases htype : c.type = wireless
    · have hnames : wirelessNames (c :: connections) = c.name :: wirelessNames connections := by
        simp [wirelessNames, htype]
      rw [if_pos htype, hc htype, hnames, List.singleton_append, List.cons_eq_cons]
    · have hnames : wirelessNames (c :: connections) = wirelessNames connections := by
        simp [wirelessNames, htype]
      rw [if_neg htype, hnames]
      constructor
      · intro h
        have hlen := congrArg List.length h
        rw [List.length_append] at hlen
        have hnil : readConnection c = [] := List.eq_nil_of_length_eq_zero (by omega)
        rw [hnil, List.nil_append] at h
        exact ⟨hnil, h⟩
      · rintro ⟨hnil, h⟩
        rw [hnil, List.nil_append, h]

/-- **The connections whose listing is decoded.** -/
theorem saved_iff : connections.flatMap readConnection = wirelessNames connections ↔ NamesDecodable connections := by
  constructor
  · intro h
    have hclean : ∀ c ∈ connections, c.type = wireless → OneLine c.name ∧ ':' ∉ c.name := by
      intro c hc htype
      have hmem : c.name ∈ wirelessNames connections :=
        List.mem_map_of_mem (List.mem_filter.2 ⟨hc, decide_eq_true htype⟩)
      rw [← h] at hmem
      obtain ⟨c', -, hread⟩ := List.mem_flatMap.1 hmem
      exact name_of_mem_readConnection hread
    have hall := (flatMap_readConnection_eq fun c hc htype =>
      readConnection_of_wireless htype (hclean c hc htype).1 (hclean c hc htype).2).1 h
    intro c hc
    have hcc := hall c hc
    by_cases htype : c.type = wireless
    · rw [if_pos htype] at hcc ⊢
      exact fun d hd => ⟨(escape_eq_self_iff.1 hcc d hd).1, (escape_eq_self_iff.1 hcc d hd).2,
        (hclean c hc htype).1 d hd⟩
    · rw [if_neg htype] at hcc ⊢
      exact (readConnection_eq_nil htype).1 hcc
  · intro h
    have hplain : ∀ c ∈ connections, c.type = wireless → Plain c.name := by
      intro c hc htype
      have hcc := h c hc
      rwa [if_pos htype] at hcc
    refine (flatMap_readConnection_eq fun c hc htype =>
      readConnection_of_wireless htype (hplain c hc htype).oneLine (hplain c hc htype).notMem).2 fun c hc => ?_
    have hcc := h c hc
    by_cases htype : c.type = wireless
    · rw [if_pos htype]
      exact (hplain c hc htype).escape
    · rw [if_neg htype] at hcc ⊢
      exact (readConnection_eq_nil htype).2 hcc

end Saved

/-! ### Both listings -/

section Listings

/-- **The Wi-Fi listings.**  A scan gives one network for each name, with the data of the first access point that has
it and the strongest first, exactly when the listing is decodable, and the saved names are those of the wireless
connections exactly when these are. -/
theorem listings_decode (m : Machine) (interface : Str) (points : List AccessPoint) (connections : List Connection)
    (hm : m.nmcli = true) (hscan : m.process (listArgs interface) = (0, listing (points.map AccessPoint.fields)))
    (hsaved : m.process savedArgs = (0, listing (connections.map Connection.fields))) :
    (Listed points (scan m interface) ↔ Decodable points) ∧
      (saved m = wirelessNames connections ↔ NamesDecodable connections) := by
  rw [scan_listing hm hscan, saved_listing hm hsaved]
  exact ⟨listed_iff, saved_iff⟩

/-- A machine with these access points and connections around it. -/
def machineOf (points : List AccessPoint) (connections : List Connection) : Machine where
  nmcli := true
  process args :=
    if args = savedArgs then (0, listing (connections.map Connection.fields))
    else (0, listing (points.map AccessPoint.fields))

def pointOf (ssid : String) (signal : ℤ) (security : String) : AccessPoint :=
  ⟨false, ssid.toList, signal, security.toList⟩

def wirelessOf (name : String) : Connection where
  name := name.toList
  type := wireless
  type_word c hc := by
    have hall : (wireless.all fun c => c.isAlphanum || c = '-') = true := by decide
    simpa using List.all_eq_true.1 hall c hc

theorem decodable_of_plain {points : List AccessPoint} (h : ∀ p ∈ points, Plain p.ssid ∧ Plain p.security ∧
    (decimal p.signal.natAbs).length ≤ maxStrDigits) : Decodable points := by
  refine ⟨fun p hp => (h p hp).1, fun p hp _ => (h p hp.mem).2.1, fun p hp _ => (h p hp.mem).2.2, fun p hp => ?_⟩
  rw [linesFrom_of_oneLine (h p hp).2.1.oneLine]
  simp

/-- Two access points with one name, and an open one. -/
def harbour : List AccessPoint := [pointOf "Harbour" 61 "WPA2", pointOf "Cafe" 70 "", pointOf "Harbour" 80 "WPA2"]

theorem listings_decode_harbour :
    Listed harbour (scan (machineOf harbour [wirelessOf "Harbour"]) "wlan0".toList) ∧
      saved (machineOf harbour [wirelessOf "Harbour"]) = ["Harbour".toList] := by
  have h := listings_decode (machineOf harbour [wirelessOf "Harbour"]) "wlan0".toList harbour [wirelessOf "Harbour"]
    rfl rfl rfl
  refine ⟨h.1.2 (decodable_of_plain (by decide +kernel)), h.2.2 fun c hc => ?_⟩
  obtain rfl := List.mem_singleton.1 hc
  rw [if_pos (show (wirelessOf "Harbour").type = wireless from rfl)]
  decide

/-- A colon in a name: `nmcli` prints `Cafe\:5`, and the scan and the saved connections lose it. -/
theorem listings_fail :
    ¬ Listed [pointOf "Cafe:5" 70 "WPA2"] (scan (machineOf [pointOf "Cafe:5" 70 "WPA2"] []) "wlan0".toList) ∧
      saved (machineOf [] [wirelessOf "Cafe:5"]) ≠ ["Cafe:5".toList] := by
  constructor
  · rw [scan_listing rfl rfl, listed_iff]
    exact fun h => absurd (h.ssid _ (List.mem_singleton.2 rfl)) (by decide)
  · rw [saved_listing rfl rfl]
    decide +kernel

end Listings

end AisServer.Host.Wifi
