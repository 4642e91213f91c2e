import Umd.Lib.Python
import Umd.Lib.Runs
/-!
# Voice activity

`detect_speech` over exact samples: the energy of the frames, the threshold, the mask with
its hangover, and the segments of the runs that last long enough. Frames are cut at a whole
number of samples and timed by the frame length that was asked for, so a segment can end
after the audio does; nothing else can go wrong (`speech_iff`).
-/

namespace Umd.Audio

open Umd.Lib

/-- `SpeechSegment`, over the numbers `F`. -/
structure SpeechSegment (F : Type) where
  startS : F
  endS : F
  meanEnergy : F
  peakEnergy : F

/-- `VadResult`. -/
structure VadResult (F : Type) where
  speechSegments : List (SpeechSegment F)
  totalSpeechS : F
  noSpeechRatio : F

/-- `DecodedAudio`, as far as it is read here. -/
structure DecodedAudio where
  sampleRate : Nat
  pcm : List ℚ
  durationS : ℚ

def minSpeechS : ℚ := 5 / 100

def hangoverS : ℚ := 4 / 100

def silenceMargin : ℚ := 25 / 10

/-- `SpeechSegment.duration_s`. -/
def SpeechSegment.durationS (s : SpeechSegment ℚ) : ℚ := max 0 (s.endS - s.startS)

/-- The samples of a frame. -/
def frameSize (sampleRate : Nat) (frameS : ℚ) : Nat := max 1 (pyRound (frameS * sampleRate)).toNat

/-- `_rms_frames`; `root` is `** 0.5`. -/
def rmsFrames (root : ℚ → ℚ) (pcm : List ℚ) (sampleRate : Nat) (frameS : ℚ) : List ℚ :=
  let size := frameSize sampleRate frameS
  (List.range ((pcm.length + size - 1) / size)).map fun k =>
    let win := (pcm.drop (k * size)).take size
    root (win.foldl (fun acc v => acc + v * v) 0 / win.length)

/-- `_adaptive_threshold`. -/
def adaptiveThreshold (rms : List ℚ) : ℚ :=
  if rms = [] then 0
  else
    let sortedRms := rms.insertionSort (· ≤ ·)
    let floor := sortedRms.getD (min (sortedRms.length - 1) (sortedRms.length / 10)) 0
    max (floor * silenceMargin) (1 / 10000)

/-- The loop of `_speech_mask` at frame `i`. -/
def maskFrom (threshold : ℚ) (hangoverFrames : Int) (i : Int) (active : Bool) (lastSpeech : Int) : List ℚ → List Bool
  | [] => []
  | e :: rms =>
    if e ≥ threshold then true :: maskFrom threshold hangoverFrames (i + 1) true i rms
    else if active && i - lastSpeech ≤ hangoverFrames then true :: maskFrom threshold hangoverFrames (i + 1) true lastSpeech rms
    else false :: maskFrom threshold hangoverFrames (i + 1) false lastSpeech rms

/-- `_speech_mask`. -/
def speechMask (rms : List ℚ) (threshold : ℚ) (hangoverFrames : Nat) : List Bool :=
  maskFrom threshold hangoverFrames 0 false (-1) rms

/-- `_segment_from`. -/
def segmentFrom (rms : List ℚ) (start stop : Nat) (frameS : ℚ) : SpeechSegment ℚ :=
  let slice := (rms.drop start).take (stop - start)
  let window := if slice = [] then [0] else slice
  { startS := start * frameS
    endS := stop * frameS
    meanEnergy := window.sum / window.length
    peakEnergy := window.max?.getD 0 }

/-- The loop over the mask at frame `i`, with the frame at which the open run began. -/
def segmentsFrom (rms : List ℚ) (frameS : ℚ) (i : Nat) (startIdx : Option Nat) : List Bool → List (SpeechSegment ℚ)
  | [] => match startIdx with
    | some s => if (i - s : Nat) * frameS ≥ minSpeechS then [segmentFrom rms s i frameS] else []
    | none => []
  | on :: mask => match on, startIdx with
    | true, none => segmentsFrom rms frameS (i + 1) (some i) mask
    | false, some s =>
      if (i - s : Nat) * frameS ≥ minSpeechS then segmentFrom rms s i frameS :: segmentsFrom rms frameS (i + 1) none mask
      else segmentsFrom rms frameS (i + 1) none mask
    | _, _ => segmentsFrom rms frameS (i + 1) startIdx mask

/-- The order of the keys `(s.start_s, s.end_s)`. -/
def SegmentLe (s s' : SpeechSegment ℚ) : Prop := s.startS < s'.startS ∨ s.startS = s'.startS ∧ s.endS ≤ s'.endS

instance : DecidableRel SegmentLe := fun _ _ => inferInstanceAs (Decidable (_ ∨ _))

/-- The segment merged last, with another that overlaps it. -/
def SpeechSegment.merge (prev seg : SpeechSegment ℚ) : SpeechSegment ℚ where
  startS := prev.startS
  endS := max prev.endS seg.endS
  meanEnergy := (prev.meanEnergy + seg.meanEnergy) / 2
  peakEnergy := max prev.peakEnergy seg.peakEnergy

/-- The loop of `merge_overlaps`. -/
def mergeFrom (prev : SpeechSegment ℚ) : List (SpeechSegment ℚ) → List (SpeechSegment ℚ)
  | [] => [prev]
  | seg :: segments =>
    if seg.startS ≤ prev.endS + 1 / 1000000 then mergeFrom (prev.merge seg) segments
    else prev :: mergeFrom seg segments

/-- `merge_overlaps`. -/
def mergeOverlaps (segments : List (SpeechSegment ℚ)) : List (SpeechSegment ℚ) :=
  match segments.insertionSort SegmentLe with
  | [] => []
  | first :: rest => mergeFrom first rest

def hangoverFrames (frameS : ℚ) : Nat := max 1 (pyRound (hangoverS / frameS)).toNat

/-- `detect_speech`. -/
def detectSpeech (root : ℚ → ℚ) (audio : DecodedAudio) (frameS : ℚ) : VadResult ℚ :=
  let rms := rmsFrames root audio.pcm audio.sampleRate frameS
  if rms = [] then ⟨[], 0, 0⟩
  else
    let mask := speechMask rms (adaptiveThreshold rms) (hangoverFrames frameS)
    let segments := mergeOverlaps (segmentsFrom rms frameS 0 none mask)
    let total := (segments.map (·.durationS)).sum
    let noSpeech := max 0 (audio.durationS - total)
    let ratio := if audio.durationS > 0 then noSpeech / audio.durationS else 1
    ⟨segments, total, ratio⟩

/-! ## What is to be detected -/

/-- Audio of the samples, as long as they last. -/
def decoded (pcm : List ℚ) (sampleRate : Nat) : DecodedAudio := ⟨sampleRate, pcm, pcm.length / sampleRate⟩

/-- A frame at or above the threshold is here, or so few frames before. -/
def LoudWithin (rms : List ℚ) (threshold : ℚ) (hangover : Nat) (i : Nat) : Prop :=
  ∃ j e, j ≤ i ∧ i ≤ j + hangover ∧ rms[j]? = some e ∧ threshold ≤ e

def SpeechFrame (rms : List ℚ) (threshold : ℚ) (hangover : Nat) (i : Nat) : Prop :=
  i < rms.length ∧ LoudWithin rms threshold hangover i

/-- The speech frames of some audio. -/
def Speech (root : ℚ → ℚ) (audio : DecodedAudio) (frameS : ℚ) : Nat → Prop :=
  let rms := rmsFrames root audio.pcm audio.sampleRate frameS
  SpeechFrame rms (adaptiveThreshold rms) (hangoverFrames frameS)

/-- Segments in order that lie within the audio, with their total, and with every loud frame of a run that lasts. -/
structure Detected (root : ℚ → ℚ) (audio : DecodedAudio) (frameS : ℚ) (result : VadResult ℚ) : Prop where
  sorted : result.speechSegments.Pairwise fun s s' => s.endS < s'.startS
  long : ∀ s ∈ result.speechSegments, minSpeechS ≤ s.endS - s.startS
  within : ∀ s ∈ result.speechSegments, 0 ≤ s.startS ∧ s.endS ≤ audio.durationS
  total : result.totalSpeechS = (result.speechSegments.map fun s => s.endS - s.startS).sum ∧ result.totalSpeechS ≤ audio.durationS
  ratio : 0 < audio.durationS → result.noSpeechRatio = 1 - result.totalSpeechS / audio.durationS
  covered : ∀ r, IsRun (Speech root audio frameS) r → minSpeechS ≤ (r.2 - r.1 : Nat) * frameS →
    ∀ i e, r.1 ≤ i → i < r.2 → (rmsFrames root audio.pcm audio.sampleRate frameS)[i]? = some e →
      adaptiveThreshold (rmsFrames root audio.pcm audio.sampleRate frameS) ≤ e →
        ∃ s ∈ result.speechSegments, s.startS ≤ i * frameS ∧ (i + 1) * frameS ≤ s.endS

/-- Every stretch of speech frames that lasts long enough ends, at the frame length that was asked for, before the audio does. -/
def EndsInTime (root : ℚ → ℚ) (audio : DecodedAudio) (frameS : ℚ) : Prop :=
  ∀ s e : Nat, s < e → (∀ i, s ≤ i → i < e → Speech root audio frameS i) → minSpeechS ≤ (e - s : Nat) * frameS →
    e * frameS ≤ audio.durationS

/-! ## The mask -/

theorem loudWithin_zero {e threshold : ℚ} {rms : List ℚ} {hangover : Nat} :
    LoudWithin (e :: rms) threshold hangover 0 ↔ threshold ≤ e := by
  constructor
  · rintro ⟨j, e', hj, -, he, hloud⟩
    obtain rfl : j = 0 := by omega
    cases he
    exact hloud
  · exact fun h => ⟨0, e, le_rfl, by omega, rfl, h⟩

theorem loudWithin_succ {e threshold : ℚ} {rms : List ℚ} {hangover k : Nat} :
    LoudWithin (e :: rms) threshold hangover (k + 1) ↔
      k + 1 ≤ hangover ∧ threshold ≤ e ∨ LoudWithin rms threshold hangover k := by
  constructor
  · rintro ⟨j, e', hj, hk, he, hloud⟩
    cases j with
    | zero =>
      cases he
      exact .inl ⟨by omega, hloud⟩
    | succ j => exact .inr ⟨j, e', by omega, by omega, he, hloud⟩
  · rintro (⟨hk, hloud⟩ | ⟨j, e', hj, hk, he, hloud⟩)
    · exact ⟨0, e, by omega, by omega, rfl, hloud⟩
    · exact ⟨j + 1, e', by omega, by omega, he, hloud⟩

/-- What the loop marks from a frame on: the frames that are loud or follow a loud one, of those here or the last before. -/
theorem on_maskFrom {threshold : ℚ} {hangover : Nat} {i lastSpeech : Int} {active : Bool} {rms : List ℚ} (hi : 0 ≤ i)
    (hlast : lastSpeech < i) (hactive : active = true ↔ 0 ≤ lastSpeech ∧ i - 1 - lastSpeech ≤ hangover) (k : Nat) :
    On (maskFrom threshold hangover i active lastSpeech rms) k ↔ k < rms.length ∧
      (LoudWithin rms threshold hangover k ∨ 0 ≤ lastSpeech ∧ i + k - lastSpeech ≤ hangover) := by
  induction rms generalizing i lastSpeech active k with
  | nil => simp [maskFrom, On]
  | cons e rms ih =>
    have hzero : ∀ {b : Bool} {bs : List Bool}, On (b :: bs) 0 ↔ b = true := by simp [On]
    have hsucc : ∀ {b : Bool} {bs : List Bool} {k : Nat}, On (b :: bs) (k + 1) ↔ On bs k := by simp [On]
    rw [maskFrom]
    split
    · -- a loud frame: those before no longer matter
      rename_i hloud
      cases k with
      | zero => simp [hzero, loudWithin_zero, hloud]
      | succ k =>
        rw [hsucc, ih (by omega) (by omega) (by simp [hi]), List.length_cons, loudWithin_succ]
        constructor
        · rintro ⟨hk, h | h⟩
          · exact ⟨by omega, .inl (.inr h)⟩
          · exact ⟨by omega, .inl (.inl ⟨by omega, hloud⟩)⟩
        · rintro ⟨hk, (h | h) | h⟩
          · exact ⟨by omega, .inr ⟨hi, by omega⟩⟩
          · exact ⟨by omega, .inl h⟩
          · exact ⟨by omega, .inr ⟨hi, by push_cast at h; omega⟩⟩
    · rename_i hquiet
      have hstill : (active && decide (i - lastSpeech ≤ hangover)) = true ↔ 0 ≤ lastSpeech ∧ i - lastSpeech ≤ hangover := by
        rw [Bool.and_eq_true, hactive, decide_eq_true_eq]
        omega
      have htail : ∀ {active' : Bool}, (active' = true ↔ 0 ≤ lastSpeech ∧ i - lastSpeech ≤ hangover) → ∀ k : Nat,
          On (maskFrom threshold hangover (i + 1) active' lastSpeech rms) k ↔ k + 1 < (e :: rms).length ∧
            (LoudWithin (e :: rms) threshold hangover (k + 1) ∨ 0 ≤ lastSpeech ∧ i + (k + 1 : Nat) - lastSpeech ≤ hangover) := by
        intro active' hactive' k
        rw [ih (by omega) (by omega) (by rw [hactive']; omega), List.length_cons, loudWithin_succ]
        push_cast
        constructor
        · rintro ⟨hk, h | h⟩
          · exact ⟨by omega, .inl (.inr h)⟩
          · exact ⟨by omega, .inr (by omega)⟩
        · rintro ⟨hk, (h | h) | h⟩
          · exact absurd h.2 hquiet
          · exact ⟨by omega, .inl h⟩
          · exact ⟨by omega, .inr (by omega)⟩
      split
      · rename_i hon
        have hwithin := hstill.1 hon
        cases k with
        | zero => simp [hzero, hwithin]
        | succ k => rw [hsucc, htail (by simpa using hwithin)]
      · rename_i hoff
        have hnot : ¬ (0 ≤ lastSpeech ∧ i - lastSpeech ≤ hangover) := fun h => hoff (hstill.2 h)
        cases k with
        | zero =>
          rw [hzero, loudWithin_zero]
          refine iff_of_false (by simp) ?_
          rintro ⟨-, h | h⟩
          · exact hquiet h
          · exact hnot (by simpa using h)
        | succ k => rw [hsucc, htail (by simpa using hnot)]

/-- The mask marks the speech frames. -/
theorem on_speechMask {rms : List ℚ} {threshold : ℚ} {hangover : Nat} :
    On (speechMask rms threshold hangover) = SpeechFrame rms threshold hangover := by
  funext k
  unfold speechMask SpeechFrame
  rw [on_maskFrom le_rfl (by omega) (by simp)]
  simp

/-! ## The segments of the runs -/

/-- The loop keeps the runs that last long enough. -/
theorem segmentsFrom_eq (rms : List ℚ) (frameS : ℚ) (i : Nat) (start : Option Nat) (mask : List Bool) :
    segmentsFrom rms frameS i start mask =
      ((runsFrom i start mask).filter fun r => minSpeechS ≤ (r.2 - r.1 : Nat) * frameS).map
        fun r => segmentFrom rms r.1 r.2 frameS := by
  induction mask generalizing i start with
  | nil =>
    cases start with
    | none => rfl
    | some s =>
      simp only [segmentsFrom, runsFrom, Option.map_some, Option.toList_some]
      split
      · rename_i hlong
        rw [List.filter_cons_of_pos (by simpa using hlong)]
        rfl
      · rename_i hshort
        rw [List.filter_cons_of_neg (by simpa using hshort)]
        rfl
  | cons on mask ih =>
    cases on with
    | true => cases start <;> exact ih ..
    | false =>
      cases start with
      | none => exact ih ..
      | some s =>
        simp only [segmentsFrom, runsFrom, Option.map_some, Option.toList_some, List.singleton_append]
        split
        · rename_i hlong
          rw [List.filter_cons_of_pos (by simpa using hlong), List.map_cons, ih]
        · rename_i hshort
          rw [List.filter_cons_of_neg (by simpa using hshort), ih]

/-! ## Merging -/

/-- Merging keeps segments in order and apart, and covers each: a merged segment begins where one of them begins, is no shorter,
and ends where one of them ends. -/
theorem mergeFrom_spec {prev : SpeechSegment ℚ} {segments : List (SpeechSegment ℚ)}
    (hsorted : (prev :: segments).Pairwise fun s s' => s.endS < s'.startS) (hpos : ∀ s ∈ prev :: segments, s.startS < s.endS) :
    ((mergeFrom prev segments).Pairwise fun s s' => s.endS < s'.startS) ∧
      (∀ m ∈ mergeFrom prev segments, ∃ s ∈ prev :: segments, m.startS = s.startS ∧ s.endS ≤ m.endS) ∧
      (∀ m ∈ mergeFrom prev segments, ∃ s ∈ prev :: segments, m.endS = s.endS) ∧
      ∀ s ∈ prev :: segments, ∃ m ∈ mergeFrom prev segments, m.startS ≤ s.startS ∧ s.endS ≤ m.endS := by
  induction segments generalizing prev with
  | nil => simp [mergeFrom]
  | cons seg segments ih =>
    obtain ⟨hprev, hrest⟩ := List.pairwise_cons.1 hsorted
    obtain ⟨hseg, hrest'⟩ := List.pairwise_cons.1 hrest
    have hlt := hprev seg (.head _)
    have hlt' := hpos seg (by simp)
    rw [mergeFrom]
    split
    · -- the two are one segment from here on
      have hstart : (prev.merge seg).startS = prev.startS := rfl
      have hend : (prev.merge seg).endS = seg.endS := max_eq_right (by linarith)
      generalize prev.merge seg = merged at hstart hend
      obtain ⟨hapart, hbegin, hstop, hcover⟩ := @ih merged
        (List.pairwise_cons.2 ⟨fun s hs => by rw [hend]; exact hseg s hs, hrest'⟩) (fun s hs => by
          rcases List.mem_cons.1 hs with rfl | hs
          · rw [hstart, hend]
            have := hpos prev (.head _)
            linarith
          · exact hpos s (by simp [hs]))
      refine ⟨hapart, fun m hm => ?_, fun m hm => ?_, fun s hs => ?_⟩
      · obtain ⟨s, hs, hstart', hle⟩ := hbegin m hm
        rcases List.mem_cons.1 hs with rfl | hs
        · exact ⟨prev, .head _, hstart'.trans hstart, by rw [hend] at hle; linarith⟩
        · exact ⟨s, by simp [hs], hstart', hle⟩
      · obtain ⟨s, hs, hend'⟩ := hstop m hm
        rcases List.mem_cons.1 hs with rfl | hs
        · exact ⟨seg, by simp, hend'.trans hend⟩
        · exact ⟨s, by simp [hs], hend'⟩
      · rcases List.mem_cons.1 hs with rfl | hs
        · obtain ⟨m, hm, hle, hle'⟩ := hcover merged (.head _)
          exact ⟨m, hm, by rwa [hstart] at hle, by rw [hend] at hle'; linarith⟩
        · rcases List.mem_cons.1 hs with rfl | hs
          · obtain ⟨m, hm, hle, hle'⟩ := hcover merged (.head _)
            rw [hstart] at hle
            rw [hend] at hle'
            have := hpos prev (.head _)
            exact ⟨m, hm, by linarith, hle'⟩
          · exact hcover s (.tail _ hs)
    · obtain ⟨hapart, hbegin, hstop, hcover⟩ := ih hrest fun s hs => hpos s (.tail _ hs)
      refine ⟨List.pairwise_cons.2 ⟨fun m hm => ?_, hapart⟩, fun m hm => ?_, fun m hm => ?_, fun s hs => ?_⟩
      · obtain ⟨s, hs, hstart, -⟩ := hbegin m hm
        rw [hstart]
        exact hprev s hs
      · rcases List.mem_cons.1 hm with rfl | hm
        · exact ⟨m, .head _, rfl, le_rfl⟩
        · obtain ⟨s, hs, h⟩ := hbegin m hm
          exact ⟨s, .tail _ hs, h⟩
      · rcases List.mem_cons.1 hm with rfl | hm
        · exact ⟨m, .head _, rfl⟩
        · obtain ⟨s, hs, h⟩ := hstop m hm
          exact ⟨s, .tail _ hs, h⟩
      · rcases List.mem_cons.1 hs with rfl | hs
        · exact ⟨s, .head _, le_rfl, le_rfl⟩
        · obtain ⟨m, hm, h⟩ := hcover s hs
          exact ⟨m, .tail _ hm, h⟩

/-- Segments in order within some time are no longer together than that time. -/
theorem sum_le_of_apart {segments : List (SpeechSegment ℚ)} {lo hi : ℚ} (hlo : lo ≤ hi)
    (hsorted : segments.Pairwise fun s s' => s.endS < s'.startS) (hpos : ∀ s ∈ segments, s.startS < s.endS)
    (hin : ∀ s ∈ segments, lo ≤ s.startS ∧ s.endS ≤ hi) : (segments.map fun s => s.endS - s.startS).sum ≤ hi - lo := by
  induction segments generalizing lo with
  | nil =>
    simp only [List.map_nil, List.sum_nil]
    linarith
  | cons s segments ih =>
    obtain ⟨hfirst, hrest⟩ := List.pairwise_cons.1 hsorted
    obtain ⟨hs, hs'⟩ := hin s (.head _)
    have := ih hs' hrest (fun s' h => hpos s' (.tail _ h)) fun s' h => ⟨(hfirst s' h).le, (hin s' (.tail _ h)).2⟩
    rw [List.map_cons, List.sum_cons]
    linarith

/-! ## The whole detection -/

section Detection

variable {root : ℚ → ℚ} {audio : DecodedAudio} {frameS : ℚ}

/-- The runs of speech frames that last long enough, as segments. -/
def LongRun (root : ℚ → ℚ) (audio : DecodedAudio) (frameS : ℚ) (r : Nat × Nat) : Prop :=
  IsRun (Speech root audio frameS) r ∧ minSpeechS ≤ (r.2 - r.1 : Nat) * frameS

/-- The segments before they are merged. -/
def unmerged (root : ℚ → ℚ) (audio : DecodedAudio) (frameS : ℚ) : List (SpeechSegment ℚ) :=
  let rms := rmsFrames root audio.pcm audio.sampleRate frameS
  segmentsFrom rms frameS 0 none (speechMask rms (adaptiveThreshold rms) (hangoverFrames frameS))

theorem mem_unmerged {s : SpeechSegment ℚ} : s ∈ unmerged root audio frameS ↔ ∃ r, LongRun root audio frameS r ∧
    s = segmentFrom (rmsFrames root audio.pcm audio.sampleRate frameS) r.1 r.2 frameS := by
  unfold unmerged LongRun Speech
  dsimp only
  rw [segmentsFrom_eq, List.mem_map, ← on_speechMask]
  refine exists_congr fun r => and_congr ?_ eq_comm
  rw [List.mem_filter, decide_eq_true_eq]
  exact and_congr_left' (mem_runs_iff r)

theorem unmerged_sorted (hframe : 0 < frameS) : (unmerged root audio frameS).Pairwise fun s s' => s.endS < s'.startS := by
  unfold unmerged
  dsimp only
  rw [segmentsFrom_eq, List.pairwise_map]
  refine (runs_apart.filter _).imp fun {r r'} hlt => ?_
  exact mul_lt_mul_of_pos_right (by exact_mod_cast hlt) hframe

theorem unmerged_pos (hframe : 0 < frameS) : ∀ s ∈ unmerged root audio frameS, s.startS < s.endS := by
  intro s hs
  obtain ⟨r, hr, rfl⟩ := mem_unmerged.1 hs
  exact mul_lt_mul_of_pos_right (by exact_mod_cast hr.1.lt) hframe

/-- What is merged is already in order. -/
theorem unmerged_insertionSort (hframe : 0 < frameS) : (unmerged root audio frameS).insertionSort SegmentLe = unmerged root audio frameS := by
  refine List.Pairwise.insertionSort_eq ((unmerged_sorted hframe).imp_of_mem fun {s s'} hs _ hlt => .inl ?_)
  exact (unmerged_pos hframe s hs).trans hlt

/-- The segments that are returned: in order and apart, each no shorter than a run that it covers and ending with a run, and
together covering all the runs. -/
theorem merged_spec (hframe : 0 < frameS) :
    ((mergeOverlaps (unmerged root audio frameS)).Pairwise fun s s' => s.endS < s'.startS) ∧
      (∀ m ∈ mergeOverlaps (unmerged root audio frameS), ∃ r, LongRun root audio frameS r ∧ m.startS = r.1 * frameS ∧
        r.2 * frameS ≤ m.endS) ∧
      (∀ m ∈ mergeOverlaps (unmerged root audio frameS), ∃ r, LongRun root audio frameS r ∧ m.endS = r.2 * frameS) ∧
      ∀ r, LongRun root audio frameS r → ∃ m ∈ mergeOverlaps (unmerged root audio frameS),
        m.startS ≤ r.1 * frameS ∧ r.2 * frameS ≤ m.endS := by
  have hsorted := @unmerged_sorted root audio frameS hframe
  have hpos := @unmerged_pos root audio frameS hframe
  have hmem : ∀ s ∈ unmerged root audio frameS, ∃ r, LongRun root audio frameS r ∧ s.startS = r.1 * frameS ∧ s.endS = r.2 * frameS :=
    fun s hs => by
      obtain ⟨r, hr, rfl⟩ := mem_unmerged.1 hs
      exact ⟨r, hr, rfl, rfl⟩
  unfold mergeOverlaps
  rw [unmerged_insertionSort hframe]
  cases hsegments : unmerged root audio frameS with
  | nil =>
    refine ⟨List.Pairwise.nil, nofun, nofun, fun r hr => ?_⟩
    have := mem_unmerged.2 ⟨r, hr, rfl⟩
    rw [hsegments] at this
    cases this
  | cons first rest =>
    rw [hsegments] at hsorted hpos hmem
    obtain ⟨hapart, hbegin, hstop, hcover⟩ := mergeFrom_spec hsorted hpos
    refine ⟨hapart, fun m hm => ?_, fun m hm => ?_, fun r hr => ?_⟩
    · obtain ⟨s, hs, hstart, hle⟩ := hbegin m hm
      obtain ⟨r, hr, hrs, hre⟩ := hmem s hs
      exact ⟨r, hr, hstart.trans hrs, hre ▸ hle⟩
    · obtain ⟨s, hs, hend⟩ := hstop m hm
      obtain ⟨r, hr, -, hre⟩ := hmem s hs
      exact ⟨r, hr, hend.trans hre⟩
    · have hin := mem_unmerged.2 ⟨r, hr, rfl⟩
      rw [hsegments] at hin
      exact hcover _ hin

/-- The runs lie within the audio if and only if the stretches do. -/
theorem endsInTime_iff (hframe : 0 < frameS) :
    EndsInTime root audio frameS ↔ ∀ r, LongRun root audio frameS r → r.2 * frameS ≤ audio.durationS := by
  constructor
  · exact fun h r hr => h r.1 r.2 hr.1.lt hr.1.on hr.2
  · intro h s e hlt hon hlong
    have hspeech := hon s le_rfl hlt
    have hmask : On (speechMask (rmsFrames root audio.pcm audio.sampleRate frameS)
        (adaptiveThreshold (rmsFrames root audio.pcm audio.sampleRate frameS)) (hangoverFrames frameS)) = Speech root audio frameS :=
      on_speechMask
    rw [← hmask] at hspeech
    obtain ⟨r, hr, hle, hlt'⟩ := run_of_on hspeech
    rw [hmask] at hr
    -- the stretch does not go on after the run
    have hend : e ≤ r.2 := by
      by_contra hgt
      exact hr.after (hon r.2 (by omega) (by omega))
    have hwide : ((e - s : Nat) : ℚ) * frameS ≤ (r.2 - r.1 : Nat) * frameS :=
      mul_le_mul_of_nonneg_right (by exact_mod_cast (by omega : e - s ≤ r.2 - r.1)) hframe.le
    have hstop : (e : ℚ) * frameS ≤ r.2 * frameS := mul_le_mul_of_nonneg_right (by exact_mod_cast hend) hframe.le
    exact hstop.trans (h r ⟨hr, hlong.trans hwide⟩)

theorem durations_eq {segments : List (SpeechSegment ℚ)} (hpos : ∀ s ∈ segments, s.startS ≤ s.endS) :
    segments.map (·.durationS) = segments.map fun s => s.endS - s.startS :=
  List.map_congr_left fun s hs => max_eq_right (by linarith [hpos s hs])

end Detection

/-- **`detect_speech` keeps its segments within the audio if and only if every stretch of speech frames that lasts long enough
ends in time, and then gives all that is to be detected.** -/
theorem speech_iff (root : ℚ → ℚ) (pcm : List ℚ) (sampleRate : Nat) (frameS : ℚ) (hframe : 0 < frameS) :
    Detected root (decoded pcm sampleRate) frameS (detectSpeech root (decoded pcm sampleRate) frameS) ↔
      EndsInTime root (decoded pcm sampleRate) frameS := by
  generalize haudio : decoded pcm sampleRate = audio
  have hduration : 0 ≤ audio.durationS := by
    rw [← haudio]
    unfold decoded
    positivity
  obtain ⟨hapart, hbegin, hstop, hcover⟩ := @merged_spec root audio frameS hframe
  rw [endsInTime_iff hframe]
  by_cases hempty : rmsFrames root audio.pcm audio.sampleRate frameS = []
  · -- no frame, and so no run
    have hnone : ∀ i, ¬ Speech root audio frameS i := fun i hi => by
      have hlt : i < (rmsFrames root audio.pcm audio.sampleRate frameS).length := hi.1
      rw [hempty] at hlt
      cases hlt
    have hresult : detectSpeech root audio frameS = ⟨[], 0, 0⟩ := by
      unfold detectSpeech
      dsimp only
      rw [if_pos hempty]
    have hzero : audio.durationS = 0 := by
      have hlen := congrArg List.length hempty
      unfold rmsFrames at hlen
      simp only [List.length_map, List.length_range, List.length_nil] at hlen
      have hsize : 1 ≤ frameSize audio.sampleRate frameS := le_max_left ..
      have hnil : audio.pcm.length = 0 := by
        have := (Nat.div_eq_zero_iff).1 hlen
        omega
      rw [← haudio] at hnil ⊢
      change ((pcm.length : ℚ) / sampleRate) = 0
      rw [show pcm.length = 0 from hnil, Nat.cast_zero, zero_div]
    rw [hresult]
    refine iff_of_true ⟨List.Pairwise.nil, nofun, nofun, ⟨rfl, hduration⟩, fun h => absurd hzero h.ne', fun r hr => ?_⟩
      fun r hr => absurd (hr.1.on r.1 le_rfl hr.1.lt) (hnone _)
    exact absurd (hr.on r.1 le_rfl hr.lt) (hnone _)
  · have hresult : detectSpeech root audio frameS =
        ⟨mergeOverlaps (unmerged root audio frameS), ((mergeOverlaps (unmerged root audio frameS)).map (·.durationS)).sum,
          if audio.durationS > 0 then
            max 0 (audio.durationS - ((mergeOverlaps (unmerged root audio frameS)).map (·.durationS)).sum) / audio.durationS
          else 1⟩ := by
      unfold detectSpeech
      dsimp only
      rw [if_neg hempty]
      rfl
    have hpos : ∀ s ∈ mergeOverlaps (unmerged root audio frameS), s.startS < s.endS := fun s hs => by
      obtain ⟨r, hr, hstart, hle⟩ := hbegin s hs
      have := hr.1.lt
      have hlt : (r.1 : ℚ) * frameS < r.2 * frameS := mul_lt_mul_of_pos_right (by exact_mod_cast this) hframe
      linarith
    rw [hresult, durations_eq fun s hs => (hpos s hs).le]
    constructor
    · intro hdetected r hr
      obtain ⟨m, hm, -, hle⟩ := hcover r hr
      exact hle.trans (hdetected.within m hm).2
    · intro hends
      have hwithin : ∀ s ∈ mergeOverlaps (unmerged root audio frameS), 0 ≤ s.startS ∧ s.endS ≤ audio.durationS := fun s hs => by
        obtain ⟨r, -, hstart, -⟩ := hbegin s hs
        obtain ⟨r', hr', hend⟩ := hstop s hs
        rw [hstart, hend]
        exact ⟨by positivity, hends r' hr'⟩
      have htotal := sum_le_of_apart hduration hapart hpos hwithin
      rw [sub_zero] at htotal
      refine ⟨hapart, fun s hs => ?_, hwithin, ⟨rfl, htotal⟩, fun hpositive => ?_, fun r hr hlong i e hi hi' _ _ => ?_⟩
      · obtain ⟨r, hr, hstart, hle⟩ := hbegin s hs
        have hlong := hr.2
        rw [Nat.cast_sub hr.1.lt.le, sub_mul] at hlong
        linarith
      · dsimp only
        rw [if_pos hpositive, max_eq_right (by linarith), sub_div, div_self hpositive.ne']
      · obtain ⟨m, hm, hle, hle'⟩ := hcover r ⟨hr, hlong⟩
        have hfirst : (r.1 : ℚ) * frameS ≤ i * frameS := mul_le_mul_of_nonneg_right (by exact_mod_cast hi) hframe.le
        have hlast : ((i : ℚ) + 1) * frameS ≤ r.2 * frameS := mul_le_mul_of_nonneg_right (by exact_mod_cast hi') hframe.le
        exact ⟨m, hm, hle.trans hfirst, hlast.trans hle'⟩

/-- A silent frame and three loud ones of two samples each. -/
theorem speech_iff_whole : Detected id (decoded [0, 0, 1, 1, 1, 1, 1, 1] 100) (1 / 50)
      (detectSpeech id (decoded [0, 0, 1, 1, 1, 1, 1, 1] 100) (1 / 50)) ↔
    EndsInTime id (decoded [0, 0, 1, 1, 1, 1, 1, 1] 100) (1 / 50) :=
  speech_iff id [0, 0, 1, 1, 1, 1, 1, 1] 100 (1 / 50) (by norm_num)

/-- The last frame has one sample of two, and is timed as a whole one. -/
theorem partial_frame_late : ¬ Detected id (decoded [0, 0, 1, 1, 1, 1, 1] 100) (1 / 50)
    (detectSpeech id (decoded [0, 0, 1, 1, 1, 1, 1] 100) (1 / 50)) := by
  intro hdetected
  have hends : (detectSpeech id (decoded [0, 0, 1, 1, 1, 1, 1] 100) (1 / 50)).speechSegments.map (·.endS) = [8 / 100] := by
    decide +kernel
  obtain ⟨s, hs, hend⟩ := List.mem_map.1 (hends ▸ List.mem_singleton_self (8 / 100 : ℚ))
  have hlate := (hdetected.within s hs).2
  rw [hend] at hlate
  revert hlate
  decide +kernel

end Umd.Audio
