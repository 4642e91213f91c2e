import Umd.Audio.Words
import Umd.Lib.Closing
/-!
# Music and sound events

`detect_music_and_sfx` over exact samples: runs of frames that are louder than the floor, joined
over short gaps, are sounds. A long steady sound is music and a short one a sound event; a long
sound that is not steady is neither. The regions are exactly those of the sounds of the audio,
and they are apart (`music_found`).
-/

namespace Umd.Audio

open Umd.Lib

/-- `MusicRegion` -/
structure MusicRegion where
  startS : ℚ
  endS : ℚ
  confidence : ℚ
deriving DecidableEq

/-- `SoundRegion` -/
structure SoundRegion where
  startS : ℚ
  endS : ℚ
  kind : String
  confidence : ℚ
deriving DecidableEq

/-- `MIN_MUSIC_S` -/
def minMusicS : ℚ := 25 / 100

/-- `_SPLIT_GAP_S` -/
def splitGapS : ℚ := 4 / 100

/-- `_ENERGY_FLOOR` -/
def leastFloor : ℚ := 1 / 1000

/-- `_LOW_VAR` -/
def lowVar : ℚ := 5 / 10

/-- `_MUSIC_CONF` -/
def musicConf : ℚ := 6 / 10

/-- `_SFX_CONF` -/
def sfxConf : ℚ := 55 / 100

/-- `floor` -/
def soundFloor (energy : List ℚ) : ℚ := max leastFloor (adaptiveFloor energy)

/-- `gap_frames` -/
def gapFrames (frameS : ℚ) : Nat := max 1 (pyRound (splitGapS / frameS)).toNat

/-- `merged` -/
def sounds (energy : List ℚ) (frameS : ℚ) : List (Nat × Nat) :=
  closeGaps (gapFrames frameS) (runs (energy.map fun e => decide (soundFloor energy < e)))

/-- `dur_s` -/
def soundS (frameS : ℚ) (r : Nat × Nat) : ℚ := ((r.2 : ℚ) - r.1) * frameS

/-- `steady` -/
def isSteady (root : ℚ → ℚ) (energy : List ℚ) (r : Nat × Nat) : Bool :=
  let window := (energy.take r.2).drop r.1
  let window := if window = [] then [0] else window
  let mean := window.sum / window.length
  let var := root ((window.map fun e => (e - mean) ^ 2).sum / window.length)
  decide (var ≤ lowVar * max mean (soundFloor energy))

/-- The region of a sound that is music. -/
def musicOf (root : ℚ → ℚ) (energy : List ℚ) (frameS : ℚ) (r : Nat × Nat) : Option MusicRegion :=
  if minMusicS ≤ soundS frameS r ∧ isSteady root energy r then some { startS := r.1 * frameS, endS := r.2 * frameS, confidence := musicConf }
  else none

/-- The region of a sound that is an event. -/
def eventOf (frameS : ℚ) (r : Nat × Nat) : Option SoundRegion :=
  if soundS frameS r < minMusicS then some { startS := r.1 * frameS, endS := r.2 * frameS, kind := "transient", confidence := sfxConf }
  else none

/-- `detect_music_and_sfx` -/
def detectMusicAndSfx (root : ℚ → ℚ) (audio : DecodedAudio) (frameS : ℚ) : List MusicRegion × List SoundRegion :=
  let energy := frameEnergy root audio.pcm audio.sampleRate frameS
  ((sounds energy frameS).filterMap (musicOf root energy frameS), (sounds energy frameS).filterMap (eventOf frameS))

/-! ## What the regions are to be -/

/-- A frame that is louder than the floor. -/
def Sounding (energy : List ℚ) (i : Nat) : Prop := ∃ e, energy[i]? = some e ∧ soundFloor energy < e

/-- A sound of the audio: loud at its ends, with short gaps in it and long ones around. -/
def IsSound (energy : List ℚ) (frameS : ℚ) (r : Nat × Nat) : Prop := IsStretch (Sounding energy) (gapFrames frameS) r

/-- The stretches of time are further apart than the gap. -/
def FarApart (frameS startS endS startS' endS' : ℚ) : Prop := endS + gapFrames frameS * frameS < startS' ∨ endS' + gapFrames frameS * frameS < startS

/-- Music and events are the long steady sounds and the short ones, in order and apart. -/
structure FindsSounds (root : ℚ → ℚ) (energy : List ℚ) (frameS : ℚ) (found : List MusicRegion × List SoundRegion) : Prop where
  music : ∀ m, m ∈ found.1 ↔ ∃ r, IsSound energy frameS r ∧ minMusicS ≤ soundS frameS r ∧ isSteady root energy r = true ∧
    m = ⟨r.1 * frameS, r.2 * frameS, musicConf⟩
  events : ∀ s, s ∈ found.2 ↔ ∃ r, IsSound energy frameS r ∧ soundS frameS r < minMusicS ∧
    s = ⟨r.1 * frameS, r.2 * frameS, "transient", sfxConf⟩
  musicApart : found.1.Pairwise fun m m' => m.endS + gapFrames frameS * frameS < m'.startS
  eventsApart : found.2.Pairwise fun s s' => s.endS + gapFrames frameS * frameS < s'.startS
  apart : ∀ m ∈ found.1, ∀ s ∈ found.2, FarApart frameS m.startS m.endS s.startS s.endS

section

variable {root : ℚ → ℚ} {energy : List ℚ} {frameS : ℚ}

theorem mem_sounds_iff (r : Nat × Nat) : r ∈ sounds energy frameS ↔ IsSound energy frameS r := by
  have hon : On (energy.map fun e => decide (soundFloor energy < e)) = Sounding energy := by
    funext i
    simp only [On, List.getElem?_map, Option.map_eq_some_iff, decide_eq_true_eq, Sounding]
  rw [sounds, mem_closeGaps_iff, hon, IsSound]

theorem musicOf_some {r : Nat × Nat} {m : MusicRegion} (h : musicOf root energy frameS r = some m) :
    minMusicS ≤ soundS frameS r ∧ isSteady root energy r = true ∧ m = ⟨r.1 * frameS, r.2 * frameS, musicConf⟩ := by
  unfold musicOf at h
  split at h
  · next hmusic => exact ⟨hmusic.1, hmusic.2, (Option.some.inj h).symm⟩
  · cases h

theorem eventOf_some {r : Nat × Nat} {s : SoundRegion} (h : eventOf frameS r = some s) :
    soundS frameS r < minMusicS ∧ s = ⟨r.1 * frameS, r.2 * frameS, "transient", sfxConf⟩ := by
  unfold eventOf at h
  split at h
  · next hshort => exact ⟨hshort, (Option.some.inj h).symm⟩
  · cases h

/-- Sounds that are apart by frames are so in time. -/
theorem apart_in_time (hframe : 0 < frameS) {i j : Nat} (h : i + gapFrames frameS < j) :
    i * frameS + gapFrames frameS * frameS < j * frameS := by
  have hcast : (i : ℚ) + gapFrames frameS < j := by exact_mod_cast h
  rw [← add_mul]
  exact mul_lt_mul_of_pos_right hcast hframe

/-- **The regions are exactly those of the sounds**: the long steady ones are music and the short
ones events, in order and further apart than the gap that is closed. -/
theorem music_found (root : ℚ → ℚ) (audio : DecodedAudio) (frameS : ℚ) (hframe : 0 < frameS) :
    FindsSounds root (frameEnergy root audio.pcm audio.sampleRate frameS) frameS (detectMusicAndSfx root audio frameS) := by
  have hapart : (sounds (frameEnergy root audio.pcm audio.sampleRate frameS) frameS).Pairwise fun r r' => r.2 + gapFrames frameS < r'.1 :=
    closeGaps_apart
  unfold detectMusicAndSfx
  generalize frameEnergy root audio.pcm audio.sampleRate frameS = energy at hapart ⊢
  refine ⟨fun m => ?_, fun s => ?_, ?_, ?_, fun m hm s hs => ?_⟩
  · rw [List.mem_filterMap]
    constructor
    · rintro ⟨r, hr, hm⟩
      exact ⟨r, (mem_sounds_iff r).1 hr, musicOf_some hm⟩
    · rintro ⟨r, hr, hlong, hsteady, rfl⟩
      exact ⟨r, (mem_sounds_iff r).2 hr, if_pos ⟨hlong, hsteady⟩⟩
  · rw [List.mem_filterMap]
    constructor
    · rintro ⟨r, hr, hs⟩
      exact ⟨r, (mem_sounds_iff r).1 hr, eventOf_some hs⟩
    · rintro ⟨r, hr, hshort, rfl⟩
      exact ⟨r, (mem_sounds_iff r).2 hr, if_pos hshort⟩
  · rw [List.pairwise_filterMap]
    refine hapart.imp fun {r r'} h m hm m' hm' => ?_
    rw [(musicOf_some hm).2.2, (musicOf_some hm').2.2]
    exact apart_in_time hframe h
  · rw [List.pairwise_filterMap]
    refine hapart.imp fun {r r'} h s hs s' hs' => ?_
    rw [(eventOf_some hs).2, (eventOf_some hs').2]
    exact apart_in_time hframe h
  · obtain ⟨r, hr, hmusic⟩ := List.mem_filterMap.1 hm
    obtain ⟨r', hr', hevent⟩ := List.mem_filterMap.1 hs
    obtain ⟨hlong, -, rfl⟩ := musicOf_some hmusic
    obtain ⟨hshort, rfl⟩ := eventOf_some hevent
    rcases pairwise_cases hapart hr hr' with rfl | h | h
    · exact absurd hshort (not_lt.2 hlong)
    · exact .inl (apart_in_time hframe h)
    · exact .inr (apart_in_time hframe h)

end

/-- A tone, and a click after it. -/
theorem music_found_click :
    detectMusicAndSfx id (decoded (List.replicate 8 0 ++ List.replicate 14 1 ++ [0, 0, 0, 2, 0]) 50) (1 / 50) =
        ([⟨8 / 50, 22 / 50, 6 / 10⟩], [⟨25 / 50, 26 / 50, "transient", 55 / 100⟩]) ∧
      FindsSounds id (frameEnergy id (List.replicate 8 0 ++ List.replicate 14 1 ++ [0, 0, 0, 2, 0]) 50 (1 / 50)) (1 / 50)
        (detectMusicAndSfx id (decoded (List.replicate 8 0 ++ List.replicate 14 1 ++ [0, 0, 0, 2, 0]) 50) (1 / 50)) :=
  ⟨by decide +kernel, music_found id (decoded (List.replicate 8 0 ++ List.replicate 14 1 ++ [0, 0, 0, 2, 0]) 50) (1 / 50) (by norm_num)⟩

end Umd.Audio
