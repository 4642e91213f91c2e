import Umd.Lib.JsonRead
import Umd.Subtitle.Webvtt
/-!
# Cue timings of WebVTT

Timestamps and timing lines as the WebVTT grammar has them, and which documents the
pre-normalizer shifts right (`shifted_iff`): those whose cues have two digits of hours, also
when shifted, and where the fraction of `LOCAL` is read for what it is.
-/

namespace Umd.Subtitle.Webvtt

open Umd.Lib Umd.Projections

/-- A digit as it is written. -/
def digit (n : Nat) : Char := Nat.digitChar n

def pad2 (n : Nat) : List Char := [digit (n / 10 % 10), digit (n % 10)]

def pad3 (n : Nat) : List Char := [digit (n / 100 % 10), digit (n / 10 % 10), digit (n % 10)]

/-- A timestamp of the grammar; the hours may be left out, or have two digits or more. -/
structure Timestamp where
  hours : Option (List (Fin 10))
  minutes : Fin 60
  seconds : Fin 60
  millis : Fin 1000
  twoOrMore : ∀ ds ∈ hours, 2 ≤ ds.length

namespace Timestamp

def hoursText (t : Timestamp) : List Char := (t.hours.map fun ds => ds.map (fun x => digit x.val) ++ [':']).getD []

def text (t : Timestamp) : List Char :=
  t.hoursText ++ (pad2 t.minutes ++ ':' :: (pad2 t.seconds ++ '.' :: pad3 t.millis))

def ms (t : Timestamp) : Nat :=
  Clock.toMs ⟨number ((t.hours.getD []).map fun x => x.val), t.minutes, t.seconds, t.millis⟩

/-- The hours are there, with two digits. -/
def TwoDigits (t : Timestamp) : Prop := ∃ ds, t.hours = some ds ∧ ds.length = 2

end Timestamp

/-- A timing line of the grammar, with blanks around its arrow and before its settings. -/
structure CueTiming where
  start : Timestamp
  stop : Timestamp
  before : List Char
  after : List Char
  gap : List Char
  settings : List Char
  blanks : ∀ c ∈ before ++ after ++ gap, c = ' ' ∨ c = '\t'
  spaced : before ≠ [] ∧ after ≠ [] ∧ (settings ≠ [] → gap ≠ [])
  head : ∀ c ∈ settings.head?, isSpace c = false

def CueTiming.text (c : CueTiming) : List Char :=
  c.start.text ++ (c.before ++ ('-' :: '-' :: '>' :: (c.after ++ (c.stop.text ++ (c.gap ++ c.settings)))))

/-- A line of a body: no line but a timing line has an arrow. -/
inductive BodyLine where
  | timing (cue : CueTiming)
  | other (line : List Char) (h : ¬ ['-', '-', '>'] <:+: line)

def BodyLine.text : BodyLine → List Char
  | .timing cue => cue.text
  | .other line _ => line

/-! ## Digits -/

section
variable (d : Decimals)

theorem value_digit {n : Nat} (h : n < 10) : d.value (digit n) = some n := by
  have hascii : ∀ n < 10, (digit n).toNat < 128 ∧ isDigit (digit n) = true ∧ (digit n).toNat - 48 = n := by decide
  obtain ⟨hlt, hdigit, hval⟩ := hascii n h
  rw [d.ascii _ hlt, if_pos hdigit, hval]

theorem value_mark {c : Char} (h : c = ':' ∨ c = '.' ∨ c = ' ' ∨ c = '\t' ∨ c = '-') : d.value c = none := by
  rcases h with rfl | rfl | rfl | rfl | rfl <;> exact (d.ascii _ (by decide)).trans rfl

/-- The digits up to what is none. -/
theorem run_digits {ds : List Nat} (h : ∀ x ∈ ds, x < 10) {c : Char} (hc : d.value c = none) (rest : List Char) :
    run d (ds.map digit ++ c :: rest) = (ds, c :: rest) := by
  induction ds with
  | nil => rw [List.map_nil, List.nil_append, run, hc]
  | cons x ds ih =>
    rw [List.map_cons, List.cons_append, run, value_digit d (h x (.head _)), ih fun y hy => h y (.tail _ hy)]

theorem oneOrTwo_digits {ds : List Nat} (h : ∀ x ∈ ds, x < 10) {c : Char} (hc : d.value c = none) (rest : List Char) :
    oneOrTwo d (ds.map digit ++ c :: rest) = if ds.length = 1 ∨ ds.length = 2 then some (number ds, c :: rest) else none := by
  rw [oneOrTwo, run_digits d h hc]

theorem oneOrTwo_pad2 {n : Nat} (h : n < 100) {c : Char} (hc : d.value c = none) (rest : List Char) :
    oneOrTwo d (pad2 n ++ c :: rest) = some (n, c :: rest) := by
  have hdigits : ∀ x ∈ [n / 10 % 10, n % 10], x < 10 := by
    simp only [List.mem_cons, List.not_mem_nil, or_false, forall_eq_or_imp, forall_eq]
    omega
  have hpad : pad2 n = [n / 10 % 10, n % 10].map digit := rfl
  rw [hpad, oneOrTwo_digits d hdigits hc, if_pos (.inr rfl)]
  have hval : number [n / 10 % 10, n % 10] = n := by
    change 10 * (10 * 0 + n / 10 % 10) + n % 10 = n
    omega
  rw [hval]

theorem three_pad3 {n : Nat} (h : n < 1000) (rest : List Char) : three d (pad3 n ++ rest) = some (n, rest) := by
  have hval : number [n / 100 % 10, n / 10 % 10, n % 10] = n := by
    change 10 * (10 * (10 * 0 + n / 100 % 10) + n / 10 % 10) + n % 10 = n
    omega
  change (do some (number [← d.value (digit (n / 100 % 10)), ← d.value (digit (n / 10 % 10)), ← d.value (digit (n % 10))], rest)) = _
  rw [value_digit d (by omega), value_digit d (by omega), value_digit d (by omega)]
  exact congrArg (fun n => some (n, rest)) hval

theorem expect_cons (c : Char) (cs : List Char) : expect [c] (c :: cs) = some cs := by
  rw [expect, List.isPrefixOf_cons_cons_self]
  rfl

theorem expect_ne {c x : Char} (h : c ≠ x) (cs : List Char) : expect [c] (x :: cs) = none := by
  rw [expect, if_neg]
  simpa [List.isPrefixOf] using h

/-- A timestamp is read where its hours have one digit or two. -/
theorem clock_hours {ds : List Nat} (hds : ∀ x ∈ ds, x < 10) {m s ms : Nat} (hm : m < 100) (hs : s < 100) (hmillis : ms < 1000)
    (rest : List Char) : clock d (ds.map digit ++ ':' :: (pad2 m ++ ':' :: (pad2 s ++ '.' :: (pad3 ms ++ rest)))) =
      if ds.length = 1 ∨ ds.length = 2 then some (⟨number ds, m, s, ms⟩, rest) else none := by
  unfold clock hms
  rw [oneOrTwo_digits d hds (value_mark d (.inl rfl))]
  split
  · simp only [Option.bind_eq_bind, Option.bind_some, expect_cons, oneOrTwo_pad2 d hm (value_mark d (.inl rfl)),
      oneOrTwo_pad2 d hs (value_mark d (.inr (.inl rfl))), three_pad3 d hmillis]
  · rfl

/-- Without hours it is not. -/
theorem clock_no_hours {m s : Nat} (hm : m < 100) (hs : s < 100) (rest : List Char) :
    clock d (pad2 m ++ ':' :: (pad2 s ++ '.' :: rest)) = none := by
  unfold clock hms
  simp only [Option.bind_eq_bind, Option.bind_some, expect_cons, oneOrTwo_pad2 d hm (value_mark d (.inl rfl)),
      oneOrTwo_pad2 d hs (value_mark d (.inr (.inl rfl))), expect_ne (by decide : ':' ≠ '.')]
  rfl

/-- What is read of a time, whatever follows it. -/
def Reads (text : List Char) (time : Option Clock) : Prop := ∀ rest, clock d (text ++ rest) = time.map fun c => (c, rest)

theorem timestamp_reads (t : Timestamp) : ∃ time, Reads d t.text time ∧
    (t.TwoDigits → ∃ c, time = some c ∧ c.toMs = t.ms) ∧ (¬ t.TwoDigits → time = none) := by
  have hm : (t.minutes : Nat) < 100 := by omega
  have hs : (t.seconds : Nat) < 100 := by omega
  cases hh : t.hours with
  | none =>
    refine ⟨none, fun rest => ?_, ?_, fun _ => rfl⟩
    · have htext : t.text = pad2 t.minutes ++ ':' :: (pad2 t.seconds ++ '.' :: pad3 t.millis) := by
        rw [Timestamp.text, Timestamp.hoursText, hh]
        rfl
      rw [htext, List.append_assoc, List.cons_append, List.append_assoc, List.cons_append]
      exact clock_no_hours d hm hs _
    · rintro ⟨ds, hds, -⟩
      cases hh.symm.trans hds
  | some ds =>
    have htwo := t.twoOrMore ds hh
    have htext : ∀ rest, t.text ++ rest = (ds.map fun x => x.val).map digit ++ ':' :: (pad2 t.minutes ++ ':' :: (pad2 t.seconds ++
        '.' :: (pad3 t.millis ++ rest))) := by
      intro rest
      have hmap : (ds.map fun x => x.val).map digit = ds.map fun x => digit x.val := List.map_map ..
      rw [hmap, Timestamp.text, Timestamp.hoursText, hh]
      simp
    have hdigits : ∀ x ∈ ds.map fun x => x.val, x < 10 := by
      intro x hx
      obtain ⟨y, -, rfl⟩ := List.mem_map.1 hx
      exact y.isLt
    have hread := fun rest => clock_hours d hdigits hm hs t.millis.isLt rest
    simp only [List.length_map] at hread
    by_cases hlength : ds.length = 2
    · refine ⟨some ⟨number (ds.map fun x => x.val), t.minutes, t.seconds, t.millis⟩, fun rest => ?_, fun _ => ⟨_, rfl, ?_⟩,
        fun h => absurd ⟨ds, hh, hlength⟩ h⟩
      · rw [htext, hread, if_pos (.inr hlength)]
        rfl
      · rw [Timestamp.ms, hh]
        rfl
    · refine ⟨none, fun rest => ?_, ?_, fun _ => rfl⟩
      · rw [htext, hread, if_neg (by omega)]
        rfl
      · rintro ⟨ds', hds', hlength'⟩
        cases hh.symm.trans hds'
        exact absurd hlength' hlength

/-! ## Times as they are written -/

theorem number_append (ds es : List Nat) : number (ds ++ es) = number ds * 10 ^ es.length + number es := by
  induction es using List.reverseRecOn with
  | nil => simp [number]
  | append_singleton es x ih =>
    have hlast : ∀ ds : List Nat, number (ds ++ [x]) = 10 * number ds + x := fun ds => by simp [number]
    rw [← List.append_assoc, hlast, ih, hlast, List.length_append, List.length_singleton, pow_succ]
    ring

theorem number_lt {ds : List Nat} (h : ∀ x ∈ ds, x < 10) : number ds < 10 ^ ds.length := by
  induction ds using List.reverseRecOn with
  | nil => decide
  | append_singleton ds x ih =>
    have hds := ih fun y hy => h y (List.mem_append_left _ hy)
    have hx := h x (by simp)
    have hone : number [x] = x := by simp [number]
    rw [number_append, List.length_append, List.length_singleton, hone, pow_one, pow_succ]
    omega

/-- The digits of a number, with zeros in front. -/
theorem zeroPadded_digits (width n : Nat) : ∃ ds : List Nat, zeroPadded width n = ds.map digit ∧ (∀ x ∈ ds, x < 10) ∧ number ds = n := by
  have hchar : ∀ c : Char, isDigit c = true → digit (c.toNat - 48) = c ∧ c.toNat - 48 < 10 := by
    intro c hc
    have hbounds : 48 ≤ c.toNat ∧ c.toNat ≤ 57 := of_decide_eq_true hc
    have hdigit : ∀ k < 10, digit k = Char.ofNat (48 + k) := by decide
    refine ⟨?_, by omega⟩
    rw [hdigit _ (by omega), Nat.add_sub_cancel' hbounds.1, Char.ofNat_toNat]
  have hall : ∀ c ∈ zeroPadded width n, isDigit c = true := by
    intro c hc
    rcases List.mem_append.1 hc with hc | hc
    · rw [List.eq_of_mem_replicate hc]
      rfl
    · exact toDigits_digits n c hc
  refine ⟨(zeroPadded width n).map fun c => c.toNat - 48, ?_, fun x hx => ?_, ?_⟩
  · rw [List.map_map]
    exact (List.map_id _).symm.trans (List.map_congr_left fun c hc => (hchar c (hall c hc)).1.symm)
  · obtain ⟨c, hc, rfl⟩ := List.mem_map.1 hx
    exact (hchar c (hall c hc)).2
  · have hval : digitsVal (zeroPadded width n) = n := by
      rw [digitsVal_eq, zeroPadded, Nat.ofDigitChars_append, Nat.ofDigitChars_replicate_zero, Nat.mul_zero, Nat.ofDigitChars_ten_toDigits]
    rw [number, List.foldl_map]
    exact hval

theorem zeroPadded_one {n : Nat} (h : n < 10) : zeroPadded 1 n = [digit n] := by
  unfold zeroPadded
  rw [Nat.toDigits_of_lt_base h]
  rfl

/-- The last digit of a padded number stands by itself. -/
theorem zeroPadded_succ (width n : Nat) : zeroPadded (width + 2) n = zeroPadded (width + 1) (n / 10) ++ [digit (n % 10)] := by
  unfold zeroPadded digit
  by_cases hn : n < 10
  · rw [Nat.div_eq_of_lt hn, Nat.mod_eq_of_lt hn, Nat.toDigits_of_lt_base hn, Nat.toDigits_zero]
    simp [List.replicate_succ']
  · rw [Nat.toDigits_of_base_le (by omega) (by omega : 10 ≤ n), List.length_append, List.length_singleton, ← List.append_assoc]
    congr 3
    omega

theorem zeroPadded_two (n : Nat) (h : n < 100) : zeroPadded 2 n = pad2 n := by
  rw [zeroPadded_succ, zeroPadded_one (by omega), pad2, Nat.mod_eq_of_lt (by omega : n / 10 < 10)]
  rfl

theorem zeroPadded_three (n : Nat) (h : n < 1000) : zeroPadded 3 n = pad3 n := by
  rw [zeroPadded_succ, zeroPadded_two _ (by omega), pad2, pad3, Nat.div_div_eq_div_mul]
  rfl

theorem msToHmsMs_reads (x : ℤ) : ∃ time, Reads d (msToHmsMs x) time ∧
    (x < 360000000 → ∃ c, time = some c ∧ (c.toMs : ℤ) = max 0 x) ∧ (¬ x < 360000000 → time = none) := by
  set n := x.toNat with hn
  obtain ⟨ds, htext, hds, hnumber⟩ := zeroPadded_digits 2 (n / 3600000)
  have hread : ∀ rest, clock d (msToHmsMs x ++ rest) = if ds.length = 1 ∨ ds.length = 2 then
      some (⟨number ds, n % 3600000 / 60000, n % 3600000 % 60000 / 1000, n % 3600000 % 60000 % 1000⟩, rest) else none := by
    intro rest
    rw [← clock_hours d hds (by omega) (by omega) (by omega), ← htext, ← zeroPadded_two _ (by omega), ← zeroPadded_two _ (by omega),
      ← zeroPadded_three _ (by omega)]
    simp [msToHmsMs, ← hn]
  by_cases hx : x < 360000000
  · have hlength : ds.length = 2 := by
      have h := congrArg List.length htext
      rw [zeroPadded_two _ (by omega), List.length_map] at h
      exact h.symm
    refine ⟨_, fun rest => (hread rest).trans (if_pos (.inr hlength)), fun _ => ⟨_, rfl, ?_⟩, fun h => absurd hx h⟩
    rw [Clock.toMs, hnumber]
    dsimp only
    omega
  · have hlength : ¬ (ds.length = 1 ∨ ds.length = 2) := by
      intro h
      have hlt := number_lt hds
      have hpow : 10 ^ ds.length ≤ 10 ^ 2 := Nat.pow_le_pow_right (by decide) (by omega)
      omega
    exact ⟨none, fun rest => (hread rest).trans (if_neg hlength), fun h => absurd h hx, fun _ => rfl⟩

/-! ## Timing lines -/

theorem dropWhile_spaces {blanks rest : List Char} (h : ∀ c ∈ blanks, isSpace c = true) (hhead : ∀ c ∈ rest.head?, isSpace c = false) :
    (blanks ++ rest).dropWhile isSpace = rest := by
  rw [List.dropWhile_append_of_pos h]
  cases rest with
  | nil => rfl
  | cons c rest => rw [List.dropWhile_cons, hhead c rfl, if_neg Bool.false_ne_true]

/-- A line with an arrow is a timing line if both its times are read. -/
theorem timing_parts {a b before after tail : List Char} {start stop : Option Clock} (ha : Reads d a start) (hb : Reads d b stop)
    (hbefore : ∀ c ∈ before, isSpace c = true) (hafter : ∀ c ∈ after, isSpace c = true) (hhead : ∃ c cs, b = c :: cs ∧ isSpace c = false) :
    timing d (a ++ (before ++ ('-' :: '-' :: '>' :: (after ++ (b ++ tail))))) =
      start.bind fun start => stop.map fun stop => ⟨start, stop, tail.dropWhile isSpace⟩ := by
  have harrow : (before ++ ('-' :: '-' :: '>' :: (after ++ (b ++ tail)))).dropWhile isSpace = '-' :: '-' :: '>' :: (after ++ (b ++ tail)) :=
    dropWhile_spaces hbefore (by simp [isSpace])
  have hstop : (after ++ (b ++ tail)).dropWhile isSpace = b ++ tail := by
    obtain ⟨c, cs, rfl, hc⟩ := hhead
    exact dropWhile_spaces hafter (by simpa using hc)
  have hexpect : ∀ cs, expect ['-', '-', '>'] ('-' :: '-' :: '>' :: cs) = some cs := fun cs => by simp [expect]
  unfold timing
  rw [ha]
  cases start with
  | none => rfl
  | some start =>
    simp only [Option.map_some, Option.bind_eq_bind, Option.bind_some, harrow, hexpect, hstop]
    rw [hb]
    cases stop <;> rfl

theorem run_suffix (cs : List Char) : (run d cs).2 <:+ cs := by
  induction cs with
  | nil => exact List.suffix_rfl
  | cons c cs ih =>
    rw [run]
    split
    · exact ih.trans (List.suffix_cons c cs)
    · exact List.suffix_rfl

theorem expect_suffix {t cs rest : List Char} (h : expect t cs = some rest) : cs = t ++ rest := by
  unfold expect at h
  split at h
  · rename_i hpre
    cases h
    exact List.prefix_append_drop ( List.isPrefixOf_iff_prefix.1 hpre)
  · cases h

theorem hms_suffix {cs rest : List Char} {h m s : Nat} (heq : hms d cs = some (h, m, s, rest)) : rest <:+ cs := by
  have hone : ∀ {cs n rest}, oneOrTwo d cs = some (n, rest) → rest <:+ cs := by
    intro cs n rest h
    unfold oneOrTwo at h
    split at h
    · cases h
      exact run_suffix d cs
    · cases h
  have hexpect : ∀ {t cs rest : List Char}, expect t cs = some rest → rest <:+ cs := fun h => ⟨_, (expect_suffix h).symm⟩
  simp only [hms, Option.bind_eq_bind, Option.bind_eq_some_iff, Option.some.injEq, Prod.exists, Prod.mk.injEq] at heq
  obtain ⟨_, _, h₁, _, h₂, _, _, h₃, _, h₄, _, _, h₅, _, h₆, -, -, -, rfl⟩ := heq
  exact (hexpect h₆).trans ((hone h₅).trans ((hexpect h₄).trans ((hone h₃).trans ((hexpect h₂).trans (hone h₁)))))

theorem clock_suffix {cs rest : List Char} {c : Clock} (h : clock d cs = some (c, rest)) : rest <:+ cs := by
  have hthree : ∀ {cs n rest}, three d cs = some (n, rest) → rest <:+ cs := by
    intro cs n rest h
    unfold three at h
    split at h
    · simp only [Option.bind_eq_bind, Option.bind_eq_some_iff, Option.some.injEq, Prod.mk.injEq] at h
      obtain ⟨_, -, _, -, _, -, -, rfl⟩ := h
      exact ⟨[_, _, _], rfl⟩
    · cases h
  simp only [clock, Option.bind_eq_bind, Option.bind_eq_some_iff, Option.some.injEq, Prod.exists, Prod.mk.injEq] at h
  obtain ⟨_, _, _, _, h₁, _, _, h₂, -, rfl⟩ := h
  exact (hthree h₂).trans (hms_suffix d h₁)

theorem timing_arrow {line : List Char} {t : Timing} (h : timing d line = some t) : ['-', '-', '>'] <:+: line := by
  simp only [timing, Option.bind_eq_bind, Option.bind_eq_some_iff, Option.some.injEq, Prod.exists] at h
  obtain ⟨_, cs, hstart, rest, harrow, -⟩ := h
  have hinside : ['-', '-', '>'] <:+: cs.dropWhile isSpace := by
    rw [expect_suffix harrow]
    exact (List.prefix_append _ _).isInfix
  exact hinside.trans ((List.dropWhile_suffix _).isInfix.trans (clock_suffix d hstart).isInfix)

end

/-! ## The shift -/

/-- The shift, with the digits of the fraction for what they are, in milliseconds. -/
def TimestampMap.exactShift (map : TimestampMap) : ℚ :=
  map.ts / 90000 * 1000 - (Clock.toMs ⟨map.h, map.m, map.s, 0⟩ + number map.fraction * 1000 / 10 ^ map.fraction.length)

/-- An integer as near as any. -/
def Nearest (x : ℚ) (n : ℤ) : Prop := |x - n| ≤ 1 / 2

/-- The time, shifted, rounded and not negative. -/
def Moved (map : TimestampMap) (time out : Nat) : Prop := ∃ n : ℤ, Nearest (time + map.exactShift) n ∧ (out : ℤ) = max 0 n

/-- What a line of the body has to become: a timing line that is read with the shifted times and the settings that it had,
and any other line itself. -/
def Shifted (d : Decimals) (map : TimestampMap) : BodyLine → List Char → Prop
  | .timing cue, line => ∃ t, timing d line = some t ∧ Moved map cue.start.ms t.start.toMs ∧ Moved map cue.stop.ms t.stop.toMs ∧
      t.settings = cue.settings
  | .other line _, line' => line' = line

/-- The shift is right for a time, which stays below a hundred hours: the fraction read for milliseconds gives a nearest shift, or
the time ends at zero all the same. -/
def Fits (map : TimestampMap) (time : Nat) : Prop :=
  time + map.shiftMs < 360000000 ∧
    (Nearest map.exactShift map.shiftMs ∨ time + map.shiftMs ≤ 0 ∧ (time : ℚ) + map.exactShift ≤ 1 / 2)

theorem roundHalfEven_nearest (x : ℚ) : Nearest x (roundHalfEven x) := by
  have hle := Int.floor_le x
  have hlt := Int.lt_floor_add_one x
  unfold Nearest roundHalfEven
  split_ifs <;> rw [abs_le] <;> push_cast <;> constructor <;> linarith

/-- A fraction of three digits, or of zeros, is read for what it is. -/
theorem nearest_of_fraction {map : TimestampMap} (h : map.fraction.length = 3 ∨ number map.fraction = 0) :
    Nearest map.exactShift map.shiftMs := by
  have hshift : map.exactShift = map.shiftS * 1000 := by
    unfold TimestampMap.exactShift TimestampMap.shiftS TimestampMap.localMs Clock.toMs
    rcases h with h | h
    · rw [h]
      push_cast
      ring
    · rw [h]
      push_cast
      ring
  rw [hshift]
  exact roundHalfEven_nearest _

/-- Any other fraction but one of value one is not. -/
theorem fraction_of_nearest {map : TimestampMap} (h : Nearest map.exactShift map.shiftMs) :
    map.fraction.length = 3 ∨ number map.fraction ≤ 1 := by
  by_contra hnot
  rw [not_or, not_le] at hnot
  obtain ⟨hthree, htwo⟩ := hnot
  have hdiff : map.exactShift - map.shiftS * 1000 = number map.fraction - number map.fraction * 1000 / 10 ^ map.fraction.length := by
    unfold TimestampMap.exactShift TimestampMap.shiftS TimestampMap.localMs Clock.toMs
    push_cast
    ring
  have hround := abs_le.1 (roundHalfEven_nearest (map.shiftS * 1000))
  have hexact := abs_le.1 h
  have hvalue : (2 : ℚ) ≤ number map.fraction := by exact_mod_cast htwo
  change _ ≤ map.shiftS * 1000 - (map.shiftMs : ℚ) ∧ map.shiftS * 1000 - (map.shiftMs : ℚ) ≤ _ at hround
  generalize (number map.fraction : ℚ) = f at hdiff hvalue
  rcases lt_or_gt_of_ne hthree with hlt | hgt
  · have hless : f - f * 1000 / 10 ^ map.fraction.length ≤ -18 := by
      generalize map.fraction.length = k at hlt
      interval_cases k <;> linarith
    linarith [hround.1, hexact.1, hround.2, hexact.2]
  · have hmore : f * 1000 / 10 ^ map.fraction.length ≤ f / 10 := by
      have hpow : (10 : ℚ) ^ 4 ≤ 10 ^ map.fraction.length := pow_le_pow_right₀ (by norm_num) hgt
      rw [div_le_div_iff₀ (by positivity) (by norm_num)]
      nlinarith
    linarith [hround.1, hexact.1, hround.2, hexact.2]

/-- What the exact shift allows. -/
theorem moved_iff {map : TimestampMap} {time out : Nat} (h : (out : ℤ) = max 0 (time + map.shiftMs)) :
    Moved map time out ↔ Nearest map.exactShift map.shiftMs ∨ time + map.shiftMs ≤ 0 ∧ (time : ℚ) + map.exactShift ≤ 1 / 2 := by
  unfold Moved Nearest
  constructor
  · rintro ⟨n, hn, hout⟩
    rw [abs_le] at hn
    rw [h] at hout
    by_cases hpos : 0 < time + map.shiftMs
    · have heq : n = time + map.shiftMs := by omega
      rw [heq] at hn
      push_cast at hn
      exact .inl (abs_le.2 ⟨by linarith, by linarith⟩)
    · have hle : (n : ℚ) ≤ 0 := Int.cast_nonpos.2 (by omega)
      exact .inr ⟨by omega, by linarith⟩
  · rintro (hn | ⟨hle, hclamped⟩)
    · refine ⟨time + map.shiftMs, ?_, h⟩
      push_cast
      rwa [add_sub_add_left_eq_sub]
    · have hout : (out : ℤ) = 0 := by omega
      by_cases hpos : 0 ≤ (time : ℚ) + map.exactShift
      · refine ⟨0, ?_, by omega⟩
        rw [Int.cast_zero, sub_zero, abs_of_nonneg hpos]
        exact hclamped
      · have hnear := roundHalfEven_nearest (time + map.exactShift)
        refine ⟨_, hnear, ?_⟩
        have hlt : (roundHalfEven (time + map.exactShift) : ℚ) < 1 := by
          have hbound := (abs_le.1 hnear).1
          linarith
        have hint : roundHalfEven (time + map.exactShift) < 1 := by exact_mod_cast hlt
        omega

theorem isSpace_digit : ∀ n < 10, isSpace (digit n) = false := by decide

/-- A timestamp begins with a digit. -/
theorem text_head (t : Timestamp) : ∃ c cs, t.text = c :: cs ∧ isSpace c = false := by
  cases hh : t.hours with
  | none =>
    refine ⟨digit (t.minutes / 10 % 10), digit (t.minutes % 10) :: ':' :: (pad2 t.seconds ++ '.' :: pad3 t.millis), ?_,
      isSpace_digit _ (by omega)⟩
    rw [Timestamp.text, Timestamp.hoursText, hh]
    rfl
  | some ds =>
    have htwo := t.twoOrMore ds hh
    obtain ⟨x, ds, rfl⟩ := List.exists_cons_of_length_pos (by omega : 0 < ds.length)
    refine ⟨digit x, ds.map (fun x => digit x.val) ++ [':'] ++ (pad2 t.minutes ++ ':' :: (pad2 t.seconds ++ '.' :: pad3 t.millis)), ?_,
      isSpace_digit _ x.isLt⟩
    rw [Timestamp.text, Timestamp.hoursText, hh]
    rfl

theorem msToHmsMs_head (x : ℤ) : ∃ c cs, msToHmsMs x = c :: cs ∧ isSpace c = false := by
  obtain ⟨ds, htext, hds, -⟩ := zeroPadded_digits 2 (x.toNat / 3600000)
  have hne : zeroPadded 2 (x.toNat / 3600000) ≠ [] := List.append_ne_nil_of_right_ne_nil _ Nat.toDigits_ne_nil
  rw [htext] at hne
  cases ds with
  | nil => exact absurd rfl hne
  | cons y ds =>
    have hcons : ∃ cs, msToHmsMs x = digit y :: cs := by
      rw [msToHmsMs, htext]
      exact ⟨_, rfl⟩
    obtain ⟨cs, hcs⟩ := hcons
    exact ⟨digit y, cs, hcs, isSpace_digit y (hds y (.head _))⟩

/-- What is read of a timing line of the grammar. -/
theorem timing_text (d : Decimals) (cue : CueTiming) :
    (cue.start.TwoDigits ∧ cue.stop.TwoDigits → ∃ start stop, timing d cue.text = some ⟨start, stop, cue.settings⟩ ∧
      start.toMs = cue.start.ms ∧ stop.toMs = cue.stop.ms) ∧
    (¬ (cue.start.TwoDigits ∧ cue.stop.TwoDigits) → timing d cue.text = none) := by
  have hblank : ∀ c ∈ cue.before ++ cue.after ++ cue.gap, isSpace c = true := by
    intro c hc
    rcases cue.blanks c hc with rfl | rfl <;> rfl
  obtain ⟨start, hstart, hstartTwo, hstartNone⟩ := timestamp_reads d cue.start
  obtain ⟨stop, hstop, hstopTwo, hstopNone⟩ := timestamp_reads d cue.stop
  have hread : timing d cue.text = start.bind fun start => stop.map fun stop => ⟨start, stop, cue.settings⟩ := by
    rw [CueTiming.text, timing_parts d hstart hstop (fun c hc => hblank c (by simp [hc])) (fun c hc => hblank c (by simp [hc]))
      (text_head cue.stop), dropWhile_spaces (fun c hc => hblank c (by simp [hc])) cue.head]
  rw [hread]
  constructor
  · rintro ⟨h₁, h₂⟩
    obtain ⟨c₁, rfl, hc₁⟩ := hstartTwo h₁
    obtain ⟨c₂, rfl, hc₂⟩ := hstopTwo h₂
    exact ⟨c₁, c₂, rfl, hc₁, hc₂⟩
  · intro h
    by_cases h₁ : cue.start.TwoDigits
    · rw [hstopNone fun h₂ => h ⟨h₁, h₂⟩]
      cases start <;> rfl
    · rw [hstartNone h₁]
      rfl

/-- A shifted line is a timing line again if both times stay below a hundred hours. -/
theorem timing_shifted (d : Decimals) {x y : ℤ} {settings : List Char} (h : ∀ c ∈ settings.head?, isSpace c = false) :
    let line := msToHmsMs x ++ " --> ".toList ++ msToHmsMs y ++ (if settings = [] then [] else ' ' :: settings)
    (x < 360000000 ∧ y < 360000000 → ∃ start stop, timing d line = some ⟨start, stop, settings⟩ ∧
      (start.toMs : ℤ) = max 0 x ∧ (stop.toMs : ℤ) = max 0 y) ∧
    (¬ (x < 360000000 ∧ y < 360000000) → timing d line = none) := by
  intro line
  obtain ⟨start, hstart, hstartFits, hstartNone⟩ := msToHmsMs_reads d x
  obtain ⟨stop, hstop, hstopFits, hstopNone⟩ := msToHmsMs_reads d y
  have hblank : ∀ c ∈ [' '], isSpace c = true := by simp [isSpace]
  have hline : line = msToHmsMs x ++ ([' '] ++ ('-' :: '-' :: '>' :: ([' '] ++ (msToHmsMs y ++
      (if settings = [] then [] else ' ' :: settings))))) := by
    simp [line]
  have htail : (if settings = [] then [] else ' ' :: settings).dropWhile isSpace = settings := by
    split
    · rename_i hnil
      rw [hnil]
      rfl
    · exact dropWhile_spaces hblank h
  have hread : timing d line = start.bind fun start => stop.map fun stop => ⟨start, stop, settings⟩ := by
    rw [hline, timing_parts d hstart hstop hblank hblank (msToHmsMs_head y), htail]
  rw [hread]
  constructor
  · rintro ⟨h₁, h₂⟩
    obtain ⟨c₁, rfl, hc₁⟩ := hstartFits h₁
    obtain ⟨c₂, rfl, hc₂⟩ := hstopFits h₂
    exact ⟨c₁, c₂, rfl, hc₁, hc₂⟩
  · intro h
    by_cases h₁ : x < 360000000
    · rw [hstopNone fun h₂ => h ⟨h₁, h₂⟩]
      cases start <;> rfl
    · rw [hstartNone h₁]
      rfl

theorem shifted_timing (d : Decimals) (map : TimestampMap) (cue : CueTiming) :
    Shifted d map (.timing cue) (shiftLine d map cue.text) ↔
      (cue.start.TwoDigits ∧ cue.stop.TwoDigits) ∧ Fits map cue.start.ms ∧ Fits map cue.stop.ms := by
  obtain ⟨htwo, hnot⟩ := timing_text d cue
  by_cases hdigits : cue.start.TwoDigits ∧ cue.stop.TwoDigits
  · obtain ⟨start, stop, hread, hstart, hstop⟩ := htwo hdigits
    have hline : shiftLine d map cue.text = msToHmsMs (cue.start.ms + map.shiftMs) ++ " --> ".toList ++
        msToHmsMs (cue.stop.ms + map.shiftMs) ++ (if cue.settings = [] then [] else ' ' :: cue.settings) := by
      rw [shiftLine, hread]
      dsimp only
      rw [hstart, hstop]
    obtain ⟨hfits, hover⟩ := @timing_shifted d (cue.start.ms + map.shiftMs) (cue.stop.ms + map.shiftMs) cue.settings cue.head
    rw [← hline] at hfits hover
    rw [and_iff_right hdigits]
    by_cases hbelow : cue.start.ms + map.shiftMs < 360000000 ∧ cue.stop.ms + map.shiftMs < 360000000
    · obtain ⟨c₁, c₂, hout, hc₁, hc₂⟩ := hfits hbelow
      unfold Fits
      rw [and_iff_right hbelow.1, and_iff_right hbelow.2, ← moved_iff hc₁, ← moved_iff hc₂]
      constructor
      · rintro ⟨t, ht, h₁, h₂, -⟩
        cases hout.symm.trans ht
        exact ⟨h₁, h₂⟩
      · exact fun h => ⟨_, hout, h.1, h.2, rfl⟩
    · refine iff_of_false ?_ fun h => hbelow ⟨h.1.1, h.2.1⟩
      rintro ⟨t, ht, -⟩
      cases (hover hbelow).symm.trans ht
  · refine iff_of_false ?_ fun h => hdigits h.1
    have hnone := hnot hdigits
    rintro ⟨t, ht, -⟩
    rw [shiftLine, hnone] at ht
    cases hnone.symm.trans ht

/-- A map shifts every line of the body. -/
theorem normalizedBody_eq {text : String} {body : List BodyLine} {map : TimestampMap}
    (hbody : (splitHeader text).2 = body.map BodyLine.text) (hmap : headerMap d text = some map) :
    normalizedBody d text = body.map fun line => shiftLine d map line.text := by
  rw [normalizedBody, hmap, hbody]
  exact List.map_map

/-- **The cues of a document are shifted as they should be, to lines that are timing lines again, and its other lines are kept, if and
only if all its cues have two digits of hours and the shift fits their times.** -/
theorem shifted_iff (d : Decimals) {text : String} {body : List BodyLine} {map : TimestampMap}
    (hbody : (splitHeader text).2 = body.map BodyLine.text) (hmap : headerMap d text = some map) :
    List.Forall₂ (Shifted d map) body (normalizedBody d text) ↔
      ∀ cue, .timing cue ∈ body → (cue.start.TwoDigits ∧ cue.stop.TwoDigits) ∧ Fits map cue.start.ms ∧ Fits map cue.stop.ms := by
  rw [normalizedBody_eq hbody hmap, List.forall₂_map_right_iff, List.forall₂_same]
  constructor
  · exact fun h cue hcue => (shifted_timing d map cue).1 (h _ hcue)
  · intro h line hline
    cases line with
    | timing cue => exact (shifted_timing d map cue).2 (h cue hline)
    | other line harrow =>
      have hnone : timing d line = none := Option.eq_none_iff_forall_ne_some.2 fun t ht => harrow (timing_arrow d ht)
      change shiftLine d map line = line
      rw [shiftLine, hnone]

/-- A document of one cue, ten seconds from its stream. -/
def holmesVtt (cue : CueTiming) : String := String.ofList (['\n'].intercalate
  ["WEBVTT".toList, "X-TIMESTAMP-MAP=LOCAL:00:00:00.000,MPEGTS:900000".toList, [], cue.text, "Holmes came.".toList])

def holmesMap : TimestampMap := ⟨0, 0, 0, [0, 0, 0], 900000⟩

def holmesBody (cue : CueTiming) : List BodyLine := [.timing cue, .other "Holmes came.".toList (by decide +kernel)]

theorem splitHeader_ofList (cs : List Char) : splitHeader (String.ofList cs) =
    ((splitLines cs).takeWhile (!·.all isSpace), ((splitLines cs).dropWhile (!·.all isSpace)).tail) := by
  unfold splitHeader
  rw [String.toList_ofList]

/-- A cue of one second and a half, with hours or without. -/
def holmesCue (hours : Option (List (Fin 10))) (h : ∀ ds ∈ hours, 2 ≤ ds.length) : CueTiming where
  start := ⟨hours, 0, 1, 0, h⟩
  stop := ⟨hours, 0, 2, 500, h⟩
  before := [' ']
  after := [' ']
  gap := [' ']
  settings := "align:start".toList
  blanks := by simp
  spaced := by simp
  head := by
    rintro c ⟨⟩
    rfl

theorem shifted_iff_holmes : List.Forall₂ (Shifted asciiDecimals holmesMap) (holmesBody (holmesCue (some [0, 0]) (by simp)))
    (normalizedBody asciiDecimals (holmesVtt (holmesCue (some [0, 0]) (by simp)))) := by
  have hnear : Nearest holmesMap.exactShift holmesMap.shiftMs := nearest_of_fraction (.inl rfl)
  have hshift : holmesMap.shiftMs = 10000 := by decide +kernel
  obtain ⟨hbody, hmap⟩ : (splitHeader (holmesVtt (holmesCue (some [0, 0]) (by simp)))).2 =
        (holmesBody (holmesCue (some [0, 0]) (by simp))).map BodyLine.text ∧
      headerMap asciiDecimals (holmesVtt (holmesCue (some [0, 0]) (by simp))) = some holmesMap := by
    unfold headerMap holmesVtt
    rw [splitHeader_ofList]
    decide +kernel
  refine (shifted_iff asciiDecimals hbody hmap).2 fun cue hcue => ?_
  obtain rfl : cue = holmesCue (some [0, 0]) (by simp) := by simpa [holmesBody] using hcue
  exact ⟨⟨⟨_, rfl, rfl⟩, ⟨_, rfl, rfl⟩⟩, ⟨by rw [hshift]; decide, .inl hnear⟩, by rw [hshift]; decide, .inl hnear⟩

/-- A cue without hours stays where it was. -/
theorem hourless_unshifted : ¬ ∀ (d : Decimals) (text : String) (body : List BodyLine) (map : TimestampMap),
    (splitHeader text).2 = body.map BodyLine.text → headerMap d text = some map →
    List.Forall₂ (Shifted d map) body (normalizedBody d text) := by
  intro hall
  obtain ⟨hbody, hmap⟩ : (splitHeader (holmesVtt (holmesCue none nofun))).2 = (holmesBody (holmesCue none nofun)).map BodyLine.text ∧
      headerMap asciiDecimals (holmesVtt (holmesCue none nofun)) = some holmesMap := by
    unfold headerMap holmesVtt
    rw [splitHeader_ofList]
    decide +kernel
  have hkept := hall asciiDecimals (holmesVtt (holmesCue none nofun)) (holmesBody (holmesCue none nofun)) holmesMap hbody hmap
  rw [normalizedBody_eq hbody hmap, List.forall₂_map_right_iff, List.forall₂_same] at hkept
  obtain ⟨⟨⟨ds, hds, -⟩, -⟩, -⟩ := (shifted_timing asciiDecimals holmesMap _).1 (hkept _ (.head _))
  cases hds

end Umd.Subtitle.Webvtt
