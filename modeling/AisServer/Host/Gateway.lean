import AisServer.Host.NetCheck
import AisServer.Lib.Listing
import AisServer.Lib.Words

/-!
# The default gateway

`_default_gateway` of `netcheck.py`, over the table of routes that the kernel prints.  The file is read in chunks, and a
chunk with a byte outside ASCII raises when the loop gets to it.

* `words_line` — a row of the table is read column by column;
* `defaultGateway_table` — what is found in a whole table;
* `probes_gateway` — so where the watch on the network probes.
-/

namespace AisServer.Host

open AisServer.Lib

/-! ### Reading the table -/

/-- `".".join(str(int(gw_hex[i:i + 2], 16)) for i in (6, 4, 2, 0))`; `none` is a `ValueError`. -/
def dottedOf (gwHex : Str) : Option Str :=
  ([6, 4, 2, 0].mapM fun i => pyInt 16 ((gwHex.drop i).take 2)).map fun octets =>
    ['.'].intercalate (octets.map pyStr)

/-- `"00000000"` -/
def noAddress : Str := List.replicate 8 '0'

/-- The loop over the lines; a `ValueError` ends it with nothing. -/
def findGateway : List Str → Option Str
  | [] => none
  | line :: lines =>
    match words line with
    | _ :: destination :: gwHex :: flags :: _ =>
      if destination = noAddress then
        match pyInt 16 flags with
        | none => none
        | some n => if n / 2 % 2 = 1 then dottedOf gwHex else findGateway lines
      else findGateway lines
    | _ => findGateway lines

/-- The text up to the first chunk that is not ASCII, and whether there is one. -/
def readAscii : List (List UInt8) → Str × Bool
  | [] => ([], false)
  | chunk :: chunks =>
    if chunk.all (· < 128) then (decodeAscii chunk ++ (readAscii chunks).1, (readAscii chunks).2) else ([], true)

/-- The lines that the loop gets before the file ends or a chunk raises. -/
def linesRead (chunks : List (List UInt8)) : List Str :=
  match readAscii chunks with
  | (text, false) => (universalNewlines text).splitOn '\n'
  | (text, true) =>
    -- the next chunk is needed for the end of the last line, and behind a carriage return
    ((universalNewlines (if text.getLast? = some '\r' then text.dropLast else text)).splitOn '\n').dropLast

/-- `_default_gateway`, of the chunks of `/proc/net/route`; `none` is a file that cannot be opened. -/
def defaultGateway (route : Option (List (List UInt8))) : Option Str :=
  route.bind fun chunks =>
    match linesRead chunks with
    | [] => none
    | _ :: lines => findGateway lines

/-! ### What the kernel prints -/

/-- An address, its octets from the left. -/
structure Ipv4 where
  a : UInt8
  b : UInt8
  c : UInt8
  d : UInt8
  deriving DecidableEq

/-- The octets as the machine has them, the last one in front. -/
def Ipv4.hex (ip : Ipv4) : Str := hexText [ip.d.toNat, ip.c.toNat, ip.b.toNat, ip.a.toNat]

def Ipv4.dotted (ip : Ipv4) : Str :=
  ['.'].intercalate ([ip.a, ip.b, ip.c, ip.d].map fun octet => pyStr octet.toNat)

/-- Text that stays on its line. -/
def AsciiLine (s : Str) : Prop := ∀ c ∈ s, c.toNat < 128 ∧ c ≠ '\n' ∧ c ≠ '\r'

/-- A row of the table.  What follows the flags is on the same line. -/
structure Route where
  interface : Str
  destination : Ipv4
  gateway : Ipv4
  flags : UInt16
  rest : Str
  interface_ne : interface ≠ []
  interface_word : ∀ c ∈ interface, c.toNat < 128 ∧ c ∉ spaces
  rest_line : AsciiLine rest

/-- A default route that goes through a gateway, whatever its mask. -/
def Route.IsDefault (r : Route) : Prop := r.destination = ⟨0, 0, 0, 0⟩ ∧ r.flags.toNat / 2 % 2 = 1

instance (r : Route) : Decidable r.IsDefault := inferInstanceAs (Decidable (_ ∧ _))

def Route.line (r : Route) : Str :=
  r.interface ++ '\t' :: (r.destination.hex ++ '\t' :: (r.gateway.hex ++ '\t' ::
    (hexText [r.flags.toNat / 256, r.flags.toNat % 256] ++ '\t' :: r.rest)))

/-- The table, with the names of the columns above. -/
structure RouteTable where
  header : Str
  header_line : AsciiLine header
  routes : List Route

def RouteTable.text (t : RouteTable) : Str := (t.header :: t.routes.map Route.line).flatMap (· ++ ['\n'])

variable {ip : Ipv4} {r : Route} {chunks : List (List UInt8)}

/-! ### Reading what is printed -/

theorem readAscii_of_ascii (h : ∀ b ∈ chunks.flatten, b < 128) :
    readAscii chunks = (decodeAscii chunks.flatten, false) := by
  induction chunks with
  | nil => rfl
  | cons chunk chunks ih =>
    rw [List.flatten_cons, List.forall_mem_append] at h
    have hchunk : chunk.all (· < 128) = true := List.all_eq_true.2 fun b hb => decide_eq_true (h.1 b hb)
    rw [readAscii, if_pos hchunk, ih h.2, List.flatten_cons, decodeAscii_append]

/-- A text in ASCII is read whole, however it comes. -/
theorem linesRead_encodeAscii {text : Str} (hascii : ∀ c ∈ text, c.toNat < 128)
    (h : chunks.flatten = encodeAscii text) : linesRead chunks = (universalNewlines text).splitOn '\n' := by
  have hbytes : ∀ b ∈ chunks.flatten, b < 128 := by
    intro b hb
    rw [h, encodeAscii_of_ascii hascii] at hb
    obtain ⟨c, hc, rfl⟩ := List.mem_map.1 hb
    have hlt := hascii c hc
    rw [UInt8.lt_iff_toNat_lt, UInt8.toNat_ofNat_of_lt' (hlt.trans (by decide))]
    exact hlt
  rw [linesRead, readAscii_of_ascii hbytes, h, decodeAscii_encodeAscii hascii]

theorem hexText_word {bytes : List ℕ} : ∀ c ∈ hexText bytes, c ∉ spaces := by
  intro c hc hsp
  have hval := digitVal_of_mem_spaces c hsp
  rw [(hexDigit_spec (mem_hexText hc)).1] at hval
  cases hval

/-- **The columns of a row.** -/
theorem words_line (r : Route) : words r.line = r.interface :: r.destination.hex :: r.gateway.hex ::
    hexText [r.flags.toNat / 256, r.flags.toNat % 256] :: words r.rest := by
  have htab : '\t' ∈ spaces := by decide
  have hcolumn : ∀ (m n : ℕ) (bytes : List ℕ) (s : Str),
      words (hexText (m :: n :: bytes) ++ '\t' :: s) = hexText (m :: n :: bytes) :: words s := fun m n bytes s =>
    words_append (by simp [hexText, hexPair]) hexText_word htab
  rw [Route.line, words_append r.interface_ne (fun c hc => (r.interface_word c hc).2) htab, Ipv4.hex, Ipv4.hex, hcolumn, hcolumn, hcolumn]

theorem hex_eq_noAddress : ip.hex = noAddress ↔ ip = ⟨0, 0, 0, 0⟩ := by
  have hzero : noAddress = Ipv4.hex ⟨0, 0, 0, 0⟩ := by decide
  constructor
  · intro h
    rw [hzero] at h
    have hlt : ∀ n : UInt8, n.toNat < 256 := fun n => n.toNat_lt
    have hbytes := hexText_inj (by simp [hlt]) (by simp) h
    obtain ⟨a, b, c, d⟩ := ip
    simp only [List.cons.injEq, and_true] at hbytes
    obtain ⟨hd, hc, hb, ha⟩ := hbytes
    rw [UInt8.toNat.inj ha, UInt8.toNat.inj hb, UInt8.toNat.inj hc, UInt8.toNat.inj hd]
  · rintro rfl
    exact hzero.symm

/-- The pairs of digits are the octets, from the last. -/
theorem dottedOf_hex (ip : Ipv4) : dottedOf ip.hex = some ip.dotted := by
  have hpair : ∀ n : UInt8, pyInt 16 (hexPair true n.toNat) = some (n.toNat : ℤ) := fun n => pyInt_hexPair n.toNat_lt
  have ha : (ip.hex.drop 6).take 2 = hexPair true ip.a.toNat := by simp [Ipv4.hex, hexText, hexPair]
  have hb : (ip.hex.drop 4).take 2 = hexPair true ip.b.toNat := by simp [Ipv4.hex, hexText, hexPair]
  have hc : (ip.hex.drop 2).take 2 = hexPair true ip.c.toNat := by simp [Ipv4.hex, hexText, hexPair]
  have hd : ip.hex.take 2 = hexPair true ip.d.toNat := by simp [Ipv4.hex, hexText, hexPair]
  simp [dottedOf, ha, hb, hc, hd, hpair, Ipv4.dotted]

theorem pyInt_flags (flags : UInt16) :
    pyInt 16 (hexText [flags.toNat / 256, flags.toNat % 256]) = some (flags.toNat : ℤ) := by
  have hlt := flags.toNat_lt
  rw [pyInt_hexText (by omega) (by omega)]
  congr 2
  omega

theorem findGateway_lines (routes : List Route) : findGateway (routes.map Route.line ++ [[]]) =
    (routes.find? fun r => r.IsDefault).map (·.gateway.dotted) := by
  induction routes with
  | nil => rfl
  | cons r routes ih =>
    rw [List.map_cons, List.cons_append, findGateway, words_line, List.find?_cons]
    simp only [hex_eq_noAddress, pyInt_flags, dottedOf_hex, ih, Route.IsDefault]
    by_cases hdest : r.destination = ⟨0, 0, 0, 0⟩
    · by_cases hflag : r.flags.toNat / 2 % 2 = 1
      · have hint : ((r.flags.toNat : ℤ) / 2 % 2 = 1) := by omega
        simp [hdest, hflag, hint]
      · have hint : ¬ ((r.flags.toNat : ℤ) / 2 % 2 = 1) := by omega
        simp [hdest, hflag, hint]
    · simp [hdest]

theorem asciiLine_line (r : Route) : AsciiLine r.line := by
  have hword : ∀ c, c.toNat < 128 → c ∉ spaces → c.toNat < 128 ∧ c ≠ '\n' ∧ c ≠ '\r' := by
    intro c hascii hc
    refine ⟨hascii, ?_, ?_⟩ <;>
    · rintro rfl
      exact hc (by decide)
  have hhex : ∀ {bytes : List ℕ}, ∀ c ∈ hexText bytes, c.toNat < 128 ∧ c ≠ '\n' ∧ c ≠ '\r' := fun c hc =>
    hword c (hexDigit_spec (mem_hexText hc)).2.2.2.2 (hexText_word c hc)
  intro c hc
  simp only [Route.line, Ipv4.hex, List.mem_append, List.mem_cons] at hc
  rcases hc with hc | rfl | hc | rfl | hc | rfl | hc | rfl | hc
  · exact hword c (r.interface_word c hc).1 (r.interface_word c hc).2
  · decide
  · exact hhex c hc
  · decide
  · exact hhex c hc
  · decide
  · exact hhex c hc
  · decide
  · exact r.rest_line c hc

/-- **The default gateway** is that of the first row that is a default route through a gateway, however the file is cut
into chunks. -/
theorem defaultGateway_table (table : RouteTable) (h : chunks.flatten = encodeAscii table.text) :
    defaultGateway (some chunks) = (table.routes.find? fun r => r.IsDefault).map (·.gateway.dotted) := by
  have hlines : ∀ l ∈ table.header :: table.routes.map Route.line, AsciiLine l := by
    intro l hl
    rcases List.mem_cons.1 hl with rfl | hl
    · exact table.header_line
    · obtain ⟨r, -, rfl⟩ := List.mem_map.1 hl
      exact asciiLine_line r
  have hascii : ∀ c ∈ table.text, c.toNat < 128 := by
    intro c hc
    obtain ⟨l, hl, hc⟩ := List.mem_flatMap.1 hc
    rcases List.mem_append.1 hc with hc | hc
    · exact (hlines l hl c hc).1
    · rw [List.mem_singleton.1 hc]
      decide
  have hsplit : (universalNewlines table.text).splitOn '\n' =
      table.header :: (table.routes.map Route.line ++ [[]]) := by
    rw [RouteTable.text, universalNewlines_lines fun l hl c hc => (hlines l hl c hc).2.2,
      splitOn_lines fun l hl hn => (hlines l hl _ hn).2.1 rfl]
    rfl
  rw [defaultGateway, Option.bind_some, linesRead_encodeAscii hascii h, hsplit]
  exact findGateway_lines table.routes

/-- **The watch probes the gateway.**  Whatever the table of routes and however it is read, a wake-up probes the
configured host, or else the gateway of the first default route, and without one it probes nothing. -/
theorem probes_gateway (n : NetCheck) (w : Wake) (table : RouteTable) {chunks : List (List UInt8)}
    (h : chunks.flatten = encodeAscii table.text) :
    n.target { w with gateway := defaultGateway (some chunks) } =
      (n.host.filter (· ≠ [])).or ((table.routes.find? fun r => r.IsDefault).map (·.gateway.dotted)) := by
  have hdotted : ∀ ip : Ipv4, ip.dotted ≠ [] := by
    intro ip
    simp [Ipv4.dotted]
  have hfilter : ∀ found : Option Route,
      (found.map (·.gateway.dotted)).filter (· ≠ []) = found.map (·.gateway.dotted) := by
    rintro (_ | r)
    · rfl
    · simp [hdotted]
  rw [NetCheck.target, defaultGateway_table table h]
  exact congrArg _ (hfilter _)

instance (s : Str) : Decidable (AsciiLine s) :=
  decidable_of_iff (s.all fun c => c.toNat < 128 ∧ c ≠ '\n' ∧ c ≠ '\r') (by simp [AsciiLine])

/-- The network of the wired interface, and a default route over the wireless one. -/
def wirelessTable : RouteTable where
  header := "Iface\tDestination\tGateway \tFlags\tRefCnt\tUse\tMetric\tMask".toList
  header_line := by decide +kernel
  routes := [
    ⟨"eth0".toList, ⟨192, 168, 1, 0⟩, ⟨0, 0, 0, 0⟩, 1, "0\t0\t0\t00FFFFFF".toList, by decide,
      by simp [spaces, asciiSpaces, wideSpaces], by decide +kernel⟩,
    ⟨"wlan0".toList, ⟨0, 0, 0, 0⟩, ⟨192, 168, 1, 254⟩, 3, "0\t0\t600\t00000000".toList, by decide,
      by simp [spaces, asciiSpaces, wideSpaces], by decide +kernel⟩]

theorem probes_gateway_wireless :
    (NetCheck.new 3 none 53 "wlan0".toList true).target ⟨defaultGateway (some
      [(encodeAscii wirelessTable.text).take 60, (encodeAscii wirelessTable.text).drop 60]), true, 0, {}⟩ =
        some "192.168.1.254".toList := by
  rw [probes_gateway (NetCheck.new 3 none 53 "wlan0".toList true) ⟨none, true, 0, {}⟩ wirelessTable (by simp)]
  decide +kernel

end AisServer.Host
