import Umd.Lib.Json
import Umd.Projections.Search
/-!
# The WebVTT pre-normalizer

`normalize_webvtt_timestamp_map`: the header is stripped and every timing line that the
normalizer recognises is shifted by `MPEGTS/90000 - LOCAL`. It recognises hours of one or
two digits only, and takes the fraction of `LOCAL` for milliseconds. The times are exact
rationals.
-/

namespace Umd.Subtitle.Webvtt

open Umd.Lib Umd.Projections

/-- What `\d` of `re` and `int` take for a digit; of ASCII, the ten digits. -/
structure Decimals where
  value : Char → Option Nat
  ascii : ∀ c : Char, c.toNat < 128 → value c = if isDigit c then some (c.toNat - 48) else none

/-- The ASCII digits alone. -/
def asciiDecimals : Decimals := ⟨fun c => if isDigit c then some (c.toNat - 48) else none, fun _ _ => rfl⟩

/-! ## The patterns -/

/-- `int` of digits. -/
def number (ds : List Nat) : Nat := ds.foldl (fun n x => 10 * n + x) 0

/-- A text that is there as it is written. -/
def expect (t cs : List Char) : Option (List Char) := if t.isPrefixOf cs then some (cs.drop t.length) else none

/-- A capital letter under `re.IGNORECASE`. -/
def sameLetter (p c : Char) : Bool := c.toUpper == p || (p == 'S' && c == '\u017f') || (p == 'I' && (c == '\u0130' || c == '\u0131'))

/-- A text in either case. -/
def expectNoCase : List Char → List Char → Option (List Char)
  | [], cs => some cs
  | p :: ps, c :: cs => if sameLetter p c then expectNoCase ps cs else none
  | _ :: _, [] => none

structure Clock where
  h : Nat
  m : Nat
  s : Nat
  ms : Nat
deriving DecidableEq

/-- `_hms_ms_to_ms`. -/
def Clock.toMs (t : Clock) : Nat := t.h * 3600000 + t.m * 60000 + t.s * 1000 + t.ms

structure Timing where
  start : Clock
  stop : Clock
  settings : List Char
deriving DecidableEq

/-- The groups of `_MAP_RE`, the digits of the fraction as they stand. -/
structure TimestampMap where
  h : Nat
  m : Nat
  s : Nat
  fraction : List Nat
  ts : Nat
deriving DecidableEq

section
variable (d : Decimals)

/-- The digits at the head, and what follows them. -/
def run : List Char → List Nat × List Char
  | [] => ([], [])
  | c :: cs =>
    match d.value c with
    | some n => (n :: (run cs).1, (run cs).2)
    | none => ([], c :: cs)

/-- `\d{1,2}`; as no digit follows it, all the digits at the head. -/
def oneOrTwo (cs : List Char) : Option (Nat × List Char) :=
  if (run d cs).1.length = 1 ∨ (run d cs).1.length = 2 then some (number (run d cs).1, (run d cs).2) else none

/-- `\d+`; as no digit follows it, all the digits at the head. -/
def oneOrMore (cs : List Char) : Option (List Nat × List Char) := if (run d cs).1 = [] then none else some (run d cs)

/-- `\d{3}` -/
def three : List Char → Option (Nat × List Char)
  | a :: b :: c :: cs => do some (number [← d.value a, ← d.value b, ← d.value c], cs)
  | _ => none

/-- `(\d{1,2}):(\d{1,2}):(\d{1,2})\.` -/
def hms (cs : List Char) : Option (Nat × Nat × Nat × List Char) := do
  let (h, cs) ← oneOrTwo d cs
  let (m, cs) ← oneOrTwo d (← expect [':'] cs)
  let (s, cs) ← oneOrTwo d (← expect [':'] cs)
  some (h, m, s, ← expect ['.'] cs)

def clock (cs : List Char) : Option (Clock × List Char) := do
  let (h, m, s, cs) ← hms d cs
  let (ms, cs) ← three d cs
  some (⟨h, m, s, ms⟩, cs)

/-- `_TIMING_RE.match` of a line, which has no newline. -/
def timing (line : List Char) : Option Timing := do
  let (start, cs) ← clock d line
  let cs ← expect ['-', '-', '>'] (cs.dropWhile isSpace)
  let (stop, cs) ← clock d (cs.dropWhile isSpace)
  some ⟨start, stop, cs.dropWhile isSpace⟩

/-- `_MAP_RE` at a place of a line. -/
def mapAt (cs : List Char) : Option TimestampMap := do
  let cs ← expectNoCase "X-TIMESTAMP-MAP".toList cs
  let cs ← expect ['='] (cs.dropWhile isSpace)
  let cs ← expectNoCase "LOCAL:".toList (cs.dropWhile isSpace)
  let (h, m, s, cs) ← hms d cs
  let (fraction, cs) ← oneOrMore d cs
  let cs ← expectNoCase ",MPEGTS:".toList cs
  let (ts, _) ← oneOrMore d cs
  some ⟨h, m, s, fraction, number ts⟩

/-- `_MAP_RE.search`. -/
def mapIn : List Char → Option TimestampMap
  | [] => mapAt d []
  | c :: cs => (mapAt d (c :: cs)).or (mapIn cs)

end

/-! ## The lines -/

/-- A line boundary of `str.splitlines`. -/
def lineEnd (c : Char) : Bool := c.toNat ∈ [10, 11, 12, 13, 0x1c, 0x1d, 0x1e, 0x85, 0x2028, 0x2029]

/-- `str.splitlines`. -/
def splitLines : List Char → List (List Char)
  | [] => []
  | '\r' :: '\n' :: cs => [] :: splitLines cs
  | c :: cs =>
    if lineEnd c then [] :: splitLines cs
    else match splitLines cs with
      | l :: ls => (c :: l) :: ls
      | [] => [[c]]

/-- `_split_header`; the first blank line stands between the two. -/
def splitHeader (text : String) : List (List Char) × List (List Char) :=
  let blank := fun line : List Char => line.all isSpace
  let lines := splitLines text.toList
  (lines.takeWhile (!blank ·), (lines.dropWhile (!blank ·)).tail)

/-- The first map of the header. -/
def headerMap (d : Decimals) (text : String) : Option TimestampMap := (splitHeader text).1.findSome? (mapIn d)

/-! ## The shift -/

/-- `round`: of two nearest integers the even one. -/
def roundHalfEven (x : ℚ) : ℤ :=
  if x - ⌊x⌋ < 1 / 2 then ⌊x⌋ else if 1 / 2 < x - ⌊x⌋ then ⌊x⌋ + 1 else if ⌊x⌋ % 2 = 0 then ⌊x⌋ else ⌊x⌋ + 1

/-- The digits of a number, with zeros in front up to a width. -/
def zeroPadded (width n : Nat) : List Char := List.replicate (width - (Nat.toDigits 10 n).length) '0' ++ Nat.toDigits 10 n

/-- `_ms_to_hms_ms`. -/
def msToHmsMs (ms : ℤ) : List Char :=
  let n := ms.toNat
  zeroPadded 2 (n / 3600000) ++ ':' :: (zeroPadded 2 (n % 3600000 / 60000) ++ ':' ::
    (zeroPadded 2 (n % 3600000 % 60000 / 1000) ++ '.' :: zeroPadded 3 (n % 3600000 % 60000 % 1000)))

namespace TimestampMap

/-- `local_ms`. -/
def localMs (map : TimestampMap) : Nat := Clock.toMs ⟨map.h, map.m, map.s, number map.fraction⟩

/-- `shift_s`. -/
def shiftS (map : TimestampMap) : ℚ := map.ts / 90000 - map.localMs / 1000

/-- `shift_ms`. -/
def shiftMs (map : TimestampMap) : ℤ := roundHalfEven (map.shiftS * 1000)

end TimestampMap

/-- A line of the body, shifted if it is a timing line. -/
def shiftLine (d : Decimals) (map : TimestampMap) (line : List Char) : List Char :=
  match timing d line with
  | some t =>
    msToHmsMs (t.start.toMs + map.shiftMs) ++ " --> ".toList ++ msToHmsMs (t.stop.toMs + map.shiftMs) ++
      (if t.settings = [] then [] else ' ' :: t.settings)
  | none => line

structure Transformation where
  applied : Bool
  headerStripped : Bool := true
  shiftS : ℚ := 0
  reason : Option String := none
  localText : Option String := none
  localMs : Option Nat := none
  mpegts : Option Nat := none
  shiftMs : Option ℤ := none
  timescale : Option Nat := none
  formula : Option String := none

/-- The lines after the header as they are returned. -/
def normalizedBody (d : Decimals) (text : String) : List (List Char) :=
  match headerMap d text with
  | some map => (splitHeader text).2.map (shiftLine d map)
  | none => (splitHeader text).2

/-- `normalize_webvtt_timestamp_map`. -/
def normalizeWebvttTimestampMap (d : Decimals) (text : String) : String × Transformation :=
  ("WEBVTT\n\n" ++ String.ofList (['\n'].intercalate (normalizedBody d text)),
    match headerMap d text with
    | some map => {
        applied := true
        shiftS := roundHalfEven (map.shiftS * 1000000) / 1000000
        localText := some (String.ofList (msToHmsMs map.localMs))
        localMs := some map.localMs
        mpegts := some map.ts
        shiftMs := some map.shiftMs
        timescale := some 90000
        formula := some "shift = MPEGTS/90000 - LOCAL" }
    | none => { applied := false, reason := some "no X-TIMESTAMP-MAP present" })

end Umd.Subtitle.Webvtt
