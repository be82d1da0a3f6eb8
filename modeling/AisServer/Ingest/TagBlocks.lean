import AisServer.Ingest.Counters

/-!
# Tag blocks are transparent

`handleLine` is a call of `_handle_line` that nothing interrupts.  What it judges is the sentence behind the tag
block, and the block decides only under which key that is done.

* `readLine_tagged` — a line reads as the same sentence with a tag block and without;
* `handleLine_of_read` — what a call does with the sentence that it reads;
* `sourceIdOf_eq_some` — which source id a tag block has;
* `tag_blocks_transparent` — the same outcome with a tag block and without.
-/

namespace AisServer.Ingest

open AisServer.Lib AisServer.Nmea

/-! ### One call -/

namespace TcpIngest

/-- `set_source_id`, when the line asks for it. -/
def upgradeNow (s : TcpIngest) (i : ℕ) (now : Time) : Option TcpIngest :=
  match (s.sessions[i]?).map Session.pc with
  | some (.upgrade _ _) => s.step (.upgrade i now)
  | _ => some s

/-- The rest of the call, when there is a sentence to judge. -/
def judgeNow (s : TcpIngest) (i : ℕ) (now : Time) : Option TcpIngest :=
  match (s.sessions[i]?).map Session.pc with
  | some (.judge _) => s.step (.judge i now)
  | _ => some s

/-- `_handle_line` on the next line of a session, by the steps of its thread alone. -/
def handleLine (s : TcpIngest) (i : ℕ) (now : Time) : Option TcpIngest :=
  ((s.step (.line i)).bind fun t => t.upgradeNow i now).bind fun t => t.judgeNow i now

/-- The server with other bytes in the buffer of a session. -/
def withBuffer (s : TcpIngest) (i : ℕ) (x : Session) (buf : List UInt8) : TcpIngest :=
  { s with sessions := s.sessions.set i { x with buf } }

variable {s : TcpIngest} {i : ℕ} {x : Session} {q : Str} {sid : Option Str} {raw rest : List UInt8} {now : Time}

/-- What a call with the sentence `q` leaves, under the key of its session afterwards. -/
structure Handled (s t : TcpIngest) (i : ℕ) (x : Session) (q key : Str) (rest : List UInt8) (now : Time) : Prop where
  handed : t.handed = s.handed ++ if wellFormed q then [(q, key, now)] else []
  messages : t.registry.total (·.messages) = s.registry.total (·.messages) + if wellFormed q then 1 else 0
  invalid : t.registry.total (·.invalid) = s.registry.total (·.invalid) + if wellFormed q then 0 else 1
  session : t.sessions[i]? = some { x with buf := rest, key, pc := .lines }

theorem judgeNow_of_judge (hx : s.sessions[i]? = some x) (hpc : x.pc = .judge q)
    (hkey : s.registry.get x.key ≠ none) (now : Time) :
    ∃ t, s.judgeNow i now = some t ∧ Handled s t i x q x.key x.buf now := by
  have hi : i < s.sessions.length := (List.getElem?_eq_some_iff.1 hx).1
  have hstep : s.judgeNow i now = some
      { s with
        registry := s.registry.touch x.key 0 (wellFormed q) (!wellFormed q) now
        sessions := s.sessions.set i { x with pc := .lines }
        handed := if wellFormed q then s.handed ++ [(q, x.key, now)] else s.handed } := by
    simp only [judgeNow, hx, Option.map_some, hpc, step]
  refine ⟨_, hstep, ?_, ?_, ?_, List.getElem?_set_self hi⟩
  · rcases hw : wellFormed q with _ | _ <;> simp
  · exact NodeRegistry.total_touch (fun info => by cases wellFormed q <;> rfl) hkey
  · exact NodeRegistry.total_touch (fun info => by cases wellFormed q <;> rfl) hkey

/-- **A call on a line with a sentence**, in a session whose node is registered, judges that sentence and goes on with
the rest of the buffer; its key is the old one or the source id. -/
theorem handleLine_of_read (hx : s.sessions[i]? = some x) (hpc : x.pc = .lines)
    (hkey : s.registry.get x.key ≠ none) (hsplit : split1 10 x.buf = some (raw, rest))
    (hread : readLine raw = some (q, sid)) (now : Time) :
    ∃ t key, s.handleLine i now = some t ∧ Handled s t i x q key rest now ∧ (key = x.key ∨ sid = some key) := by
  have hi : i < s.sessions.length := (List.getElem?_eq_some_iff.1 hx).1
  have hline : s.step (.line i) = some
      { s with sessions := s.sessions.set i { x with buf := rest, pc := s.afterRead x q sid } } := by
    simp [step, hx, hpc, takeLine, hsplit, hread]
  rw [handleLine, hline, Option.bind_some]
  -- a call without an upgrade
  have hjudge : s.afterRead x q sid = .judge q → ∃ t key,
      ((upgradeNow { s with sessions := s.sessions.set i { x with buf := rest, pc := s.afterRead x q sid } }
        i now).bind fun t => t.judgeNow i now) = some t ∧ Handled s t i x q key rest now ∧
        (key = x.key ∨ sid = some key) := by
    intro hafter
    rw [hafter]
    have hup : upgradeNow { s with sessions := s.sessions.set i { x with buf := rest, pc := .judge q } } i now =
        some { s with sessions := s.sessions.set i { x with buf := rest, pc := .judge q } } := by
      simp [upgradeNow, hi]
    rw [hup, Option.bind_some]
    obtain ⟨t, ht, h⟩ := @judgeNow_of_judge
      { s with sessions := s.sessions.set i { x with buf := rest, pc := .judge q } } i
      { x with buf := rest, pc := .judge q } q (List.getElem?_set_self hi) rfl hkey now
    exact ⟨t, x.key, ht, ⟨h.handed, h.messages, h.invalid, h.session⟩, Or.inl rfl⟩
  rcases sid with _ | sid
  · exact hjudge rfl
  · by_cases hsid : s.infoSourceId x = some sid
    · exact hjudge (by simp [afterRead, hsid])
    · have hafter : s.afterRead x q (some sid) = .upgrade sid q := by simp [afterRead, hsid]
      rw [hafter]
      obtain ⟨⟨r, g⟩, hset⟩ : ∃ p, s.registry.setSourceId x.key sid now = some p :=
        Option.ne_none_iff_exists'.1 fun hset => hkey (NodeRegistry.setSourceId_eq_none hset)
      have hreg : g.get sid ≠ none := by
        rcases NodeRegistry.setSourceId_cases hset with ⟨hsid, rfl⟩ | ⟨-, -, -, hget⟩ | ⟨-, hnone, -, -⟩
        · exact hsid
        · rw [hget, if_pos rfl]
          simpa using hkey
        · exact absurd hnone hkey
      have hup : upgradeNow { s with sessions := s.sessions.set i { x with buf := rest, pc := .upgrade sid q } } i
          now = some { s with
            registry := g
            sessions := s.sessions.set i { x with buf := rest, key := sid, pc := .judge q } } := by
        simp [upgradeNow, step, hi, hset]
      rw [hup, Option.bind_some]
      obtain ⟨t, ht, h⟩ := @judgeNow_of_judge
        { s with
          registry := g
          sessions := s.sessions.set i { x with buf := rest, key := sid, pc := .judge q } } i
        { x with buf := rest, key := sid, pc := .judge q } q (List.getElem?_set_self hi) rfl hreg now
      refine ⟨t, sid, ht, ⟨h.handed, ?_, ?_, h.session⟩, Or.inr rfl⟩
      · rw [← NodeRegistry.total_setSourceId NodeRegistry.isCounter_messages hset]
        exact h.messages
      · rw [← NodeRegistry.total_setSourceId NodeRegistry.isCounter_invalid hset]
        exact h.invalid

end TcpIngest

/-! ### What a tagged line reads as -/

variable {block sentence : Str} {id : Str}

/-- The line of a sentence with a tag block. -/
def tagged (block sentence : Str) : Str := '\\' :: block ++ '\\' :: sentence

theorem tagged_eq (block sentence : Str) : tagged block sentence = ('\\' :: block ++ ['\\']) ++ sentence := by
  simp [tagged]

theorem ascii_tagged (hb : ∀ c ∈ block, c.toNat < 128 ∧ c ≠ '\\' ∧ c ≠ '\n')
    (hs : ∀ c ∈ sentence, c.toNat < 128 ∧ c ≠ '\n') :
    ∀ c ∈ tagged block sentence, c.toNat < 128 ∧ c ≠ '\n' := by
  intro c hc
  simp only [tagged, List.cons_append, List.mem_cons, List.mem_append] at hc
  rcases hc with rfl | hc | rfl | hc
  · decide
  · exact ⟨(hb c hc).1, (hb c hc).2.2⟩
  · decide
  · exact hs c hc

/-- The characters that a line is trimmed of. -/
def lineEdges : List Char := ['\r', '\n', '\t', ' ']

/-- A sentence on a line of its own is trimmed at the end only. -/
theorem decodeLine_sentence (hasc : ∀ c ∈ sentence, c.toNat < 128) (hbang : sentence.head? = some '!') :
    decodeLine (encodeAscii sentence) = rstrip lineEdges sentence := by
  rw [decodeLine, decodeAscii_encodeAscii hasc, strip_eq, lstrip_eq_self.2 (by simp [hbang])]
  rfl

theorem rstrip_of_bang (hbang : sentence.head? = some '!') : ∃ rest, rstrip lineEdges sentence = '!' :: rest := by
  obtain ⟨s, rfl⟩ := List.head?_eq_some_iff.1 hbang
  have hstay : ∃ c ∈ ['!'], c ∉ lineEdges := ⟨'!', by decide⟩
  obtain ⟨w, hw, hmem⟩ := exists_rstrip lineEdges ('!' :: s)
  rcases hr : rstrip lineEdges ('!' :: s) with _ | ⟨a, rest⟩
  · rw [hr, List.nil_append] at hw
    exact absurd (hmem '!' (hw ▸ List.mem_cons_self)) (by decide)
  · rw [hr, List.cons_append] at hw
    exact ⟨rest, by rw [(List.cons.inj hw).1]⟩

theorem decodeLine_tagged (hasc : ∀ c ∈ tagged block sentence, c.toNat < 128)
    (hbang : sentence.head? = some '!') :
    decodeLine (encodeAscii (tagged block sentence)) = tagged block (rstrip lineEdges sentence) := by
  have hstay : ∃ c ∈ sentence, c ∉ lineEdges := ⟨'!', List.mem_of_mem_head? hbang, by decide⟩
  rw [decodeLine, decodeAscii_encodeAscii hasc, strip_eq, lstrip_eq_self.2 (by simp [tagged]), tagged_eq,
    tagged_eq]
  exact rstrip_append _ hstay

theorem stripTagBlock_tagged (hb : '\\' ∉ block) (sentence : Str) :
    stripTagBlock (tagged block sentence) = (sentence, sourceIdOf block) := by
  have hsplit : split1 '\\' (block ++ '\\' :: sentence) = some (block, sentence) :=
    split1_eq_some.2 ⟨rfl, hb⟩
  rw [tagged, List.cons_append]
  simp only [stripTagBlock, hsplit]

/-- **A line reads as the same sentence** with a tag block and without. -/
theorem readLine_tagged (hb : ∀ c ∈ block, c.toNat < 128 ∧ c ≠ '\\' ∧ c ≠ '\n')
    (hs : ∀ c ∈ sentence, c.toNat < 128 ∧ c ≠ '\n') (hbang : sentence.head? = some '!') :
    readLine (encodeAscii sentence) = some (rstrip lineEdges sentence, none) ∧
    readLine (encodeAscii (tagged block sentence)) =
      some (rstrip lineEdges sentence, sourceIdOf block) := by
  constructor
  · obtain ⟨rest, hrest⟩ := rstrip_of_bang hbang
    rw [readLine, decodeLine_sentence (fun c hc => (hs c hc).1) hbang, hrest, if_neg (List.cons_ne_nil _ _)]
    rfl
  · rw [readLine, decodeLine_tagged (fun c hc => (ascii_tagged hb hs c hc).1) hbang, if_neg (by simp [tagged]),
      stripTagBlock_tagged fun hc => (hb _ hc).2.1 rfl]

/-- The block without its checksum, `block.rsplit("*", 1)[0]`. -/
def beforeLastStar (block : Str) : Str :=
  match rsplit1 '*' block with
  | some (b, _) => b
  | none => block

/-- The block before its last `*`, or all of it. -/
def BeforeLastStar (block text : Str) : Prop :=
  (∃ checksum, block = text ++ '*' :: checksum ∧ '*' ∉ checksum) ∨ '*' ∉ block ∧ text = block

theorem beforeLastStar_iff {text : Str} : BeforeLastStar block text ↔ text = beforeLastStar block := by
  unfold beforeLastStar
  rcases h : rsplit1 '*' block with _ | ⟨b, checksum⟩
  · have hstar := rsplit1_eq_none.1 h
    constructor
    · rintro (⟨checksum, hb, -⟩ | ⟨-, ht⟩)
      · exact absurd (by simp [hb]) hstar
      · exact ht
    · exact fun ht => Or.inr ⟨hstar, ht⟩
  · obtain ⟨hb, hck⟩ := rsplit1_eq_some.1 h
    constructor
    · rintro (⟨checksum', hb', hck'⟩ | ⟨hstar, -⟩)
      · rw [rsplit1_eq_some.2 ⟨hb', hck'⟩] at h
        exact (Prod.mk.inj (Option.some.inj h)).1
      · exact absurd (by simp [hb]) hstar
    · rintro rfl
      exact Or.inl ⟨checksum, hb, hck⟩

theorem find_field {fs : List Str} {field : Str} :
    fs.find? (fun field => ['s', ':'].isPrefixOf field) = some field ↔
      ∃ before value after, field = 's' :: ':' :: value ∧ fs = before ++ field :: after ∧
        ∀ f ∈ before, ¬['s', ':'] <+: f := by
  rw [List.find?_eq_some_iff_append]
  constructor
  · rintro ⟨hpre, before, after, hsplit, hbefore⟩
    obtain ⟨value, rfl⟩ := List.isPrefixOf_iff_prefix.1 hpre
    refine ⟨before, value, after, rfl, hsplit, fun f hf hp => ?_⟩
    simpa [List.isPrefixOf_iff_prefix.2 hp] using hbefore f hf
  · rintro ⟨before, value, after, rfl, hsplit, hbefore⟩
    refine ⟨rfl, before, after, hsplit, fun f hf => ?_⟩
    rw [Bool.not_eq_true']
    exact Bool.eq_false_iff.2 fun hp => hbefore f hf (List.isPrefixOf_iff_prefix.1 hp)

/-- **The source id of a tag block** is the trimmed text of the first field that starts with `s:`, if that is not
blank. -/
theorem sourceIdOf_eq_some : sourceIdOf block = some id ↔
    ∃ text, BeforeLastStar block text ∧ ∃ before value after,
      text.splitOn ',' = before ++ ('s' :: ':' :: value) :: after ∧ (∀ f ∈ before, ¬['s', ':'] <+: f) ∧
      id = strip spaces value ∧ id ≠ [] := by
  have hdef : sourceIdOf block =
      (((beforeLastStar block).splitOn ',').find? fun field => ['s', ':'].isPrefixOf field).bind fun field =>
        if strip spaces (field.drop 2) = [] then none else some (strip spaces (field.drop 2)) := by
    unfold sourceIdOf beforeLastStar
    rcases rsplit1 '*' block with _ | ⟨b, checksum⟩ <;> dsimp only <;>
      generalize List.find? (fun field => ['s', ':'].isPrefixOf field) _ = found <;> cases found <;> rfl
  simp only [beforeLastStar_iff, exists_eq_left, hdef]
  generalize beforeLastStar block = text
  constructor
  · intro h
    obtain ⟨field, hfind, hid⟩ := Option.bind_eq_some_iff.1 h
    obtain ⟨before, value, after, rfl, hsplit, hbefore⟩ := find_field.1 hfind
    split at hid
    · cases hid
    · rename_i hne
      obtain rfl := Option.some.inj hid
      exact ⟨before, value, after, hsplit, hbefore, rfl, hne⟩
  · rintro ⟨before, value, after, hsplit, hbefore, rfl, hne⟩
    rw [find_field.2 ⟨before, value, after, rfl, hsplit, hbefore⟩]
    exact if_neg hne

/-- **Tag blocks are transparent.**  In any state in which the key of a session is registered, a call of
`_handle_line` on a sentence behind a tag block and a call on the sentence alone both return; both hand on the same
sentence, or both count the line as invalid.  The source id of the block is its first `s:` field. -/
theorem tag_blocks_transparent (hb : ∀ c ∈ block, c.toNat < 128 ∧ c ≠ '\\' ∧ c ≠ '\n')
    (hs : ∀ c ∈ sentence, c.toNat < 128 ∧ c ≠ '\n') (hbang : sentence.head? = some '!') :
    (∀ (s : TcpIngest) (i : ℕ) (x : Session) (rest : List UInt8) (now : Time), s.sessions[i]? = some x →
      x.pc = .lines → s.registry.get x.key ≠ none →
      ∃ t u key q, (s.withBuffer i x (encodeAscii sentence ++ 10 :: rest)).handleLine i now = some t ∧
        (s.withBuffer i x (encodeAscii (tagged block sentence) ++ 10 :: rest)).handleLine i now = some u ∧
        TcpIngest.Handled s t i x q x.key rest now ∧ TcpIngest.Handled s u i x q key rest now ∧
        t.handed.map (·.1) = u.handed.map (·.1)) ∧
    stripTagBlock (tagged block sentence) = (sentence, sourceIdOf block) ∧
    ∀ id, sourceIdOf block = some id ↔
      ∃ text, BeforeLastStar block text ∧ ∃ before value after,
        text.splitOn ',' = before ++ ('s' :: ':' :: value) :: after ∧ (∀ f ∈ before, ¬['s', ':'] <+: f) ∧
        id = strip spaces value ∧ id ≠ [] := by
  refine ⟨fun s i x rest now hx hpc hkey => ?_, stripTagBlock_tagged (fun hc => (hb _ hc).2.1 rfl) _,
    fun id => sourceIdOf_eq_some⟩
  obtain ⟨hplain, htagged⟩ := readLine_tagged hb hs hbang
  have hlf : ∀ {line : Str}, (∀ c ∈ line, c.toNat < 128 ∧ c ≠ '\n') →
      split1 10 (encodeAscii line ++ 10 :: rest) = some (encodeAscii line, rest) := fun hline =>
    split1_eq_some.2 ⟨rfl, lineFeed_notMem_encodeAscii (fun hn => (hline _ hn).2 rfl) fun c hc => (hline c hc).1⟩
  have hi : i < s.sessions.length := (List.getElem?_eq_some_iff.1 hx).1
  obtain ⟨t, k, ht, hplain, hk⟩ := @TcpIngest.handleLine_of_read
    (s.withBuffer i x (encodeAscii sentence ++ 10 :: rest)) i _ _ _ _ _ (List.getElem?_set_self hi) hpc hkey
    (hlf hs) hplain now
  obtain ⟨u, key, hu, htagged, -⟩ := @TcpIngest.handleLine_of_read
    (s.withBuffer i x (encodeAscii (tagged block sentence) ++ 10 :: rest)) i _ _ _ _ _
    (List.getElem?_set_self hi) hpc hkey (hlf (ascii_tagged hb hs)) htagged now
  obtain rfl : k = x.key := hk.resolve_right (by simp)
  refine ⟨t, u, key, rstrip lineEdges sentence, ht, hu, ?_, ?_, ?_⟩
  · exact ⟨hplain.handed, hplain.messages, hplain.invalid, hplain.session⟩
  · exact ⟨htagged.handed, htagged.messages, htagged.invalid, htagged.session⟩
  · rw [hplain.handed, htagged.handed, List.map_append, List.map_append]
    cases wellFormed (rstrip lineEdges sentence) <;> rfl

/-- A report behind the tag block of a station, and alone. -/
theorem tag_blocks_transparent_station :
    ∃ s x t u, run TcpIngest.step {} [.start ['p'] ['H'] 1, .recv 0 [10] 1] = some s ∧
      (s.withBuffer 0 x (encodeAscii "!AIVDM,1,1,,A,w,0*51".toList ++ [10])).handleLine 0 2 = some t ∧
      (s.withBuffer 0 x
        (encodeAscii (tagged "s:GIB-01,c:1714063200*5C".toList "!AIVDM,1,1,,A,w,0*51".toList) ++
          [10])).handleLine 0 2 = some u ∧
      t.handed.map (·.1) = ["!AIVDM,1,1,,A,w,0*51".toList] ∧ t.handed.map (·.1) = u.handed.map (·.1) := by
  have hrun : (run TcpIngest.step {} [.start ['p'] ['H'] 1, .recv 0 [10] 1]).bind (fun s =>
      (s.sessions[0]?).map fun x => (x.pc, (s.registry.get x.key).isSome,
        ((s.withBuffer 0 x (encodeAscii "!AIVDM,1,1,,A,w,0*51".toList ++ [10])).handleLine 0 2).map fun t =>
          t.handed.map (·.1))) = some (.lines, true, some ["!AIVDM,1,1,,A,w,0*51".toList]) := by
    decide +kernel
  obtain ⟨s, hs, hfacts⟩ := Option.bind_eq_some_iff.1 hrun
  obtain ⟨x, hx, hfacts⟩ := Option.map_eq_some_iff.1 hfacts
  obtain ⟨hpc, hfacts⟩ := Prod.mk.inj hfacts
  obtain ⟨hkey, hhanded⟩ := Prod.mk.inj hfacts
  have hb : ("s:GIB-01,c:1714063200*5C".toList.all fun c => c.toNat < 128 ∧ c ≠ '\\' ∧ c ≠ '\n') = true := by
    decide +kernel
  have hsent : ("!AIVDM,1,1,,A,w,0*51".toList.all fun c => c.toNat < 128 ∧ c ≠ '\n') = true := by
    decide +kernel
  obtain ⟨t, u, -, -, ht, hu, -, -, hsame⟩ := (@tag_blocks_transparent "s:GIB-01,c:1714063200*5C".toList
    "!AIVDM,1,1,,A,w,0*51".toList (fun c hc => of_decide_eq_true (List.all_eq_true.1 hb c hc))
    (fun c hc => of_decide_eq_true (List.all_eq_true.1 hsent c hc)) (by decide +kernel)).1 s 0 x [] 2 hx hpc
    (fun hnone => by simp [hnone] at hkey)
  rw [ht, Option.map_some] at hhanded
  exact ⟨s, x, t, u, hs, ht, hu, Option.some.inj hhanded, hsame⟩

end AisServer.Ingest
