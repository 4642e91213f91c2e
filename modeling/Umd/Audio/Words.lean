import Umd.Audio.Vad
import Umd.Lib.Groups
/-!
# Words of the reference transcript

`_words_in_segment` over exact samples: the frames of a speech segment that are louder than
the floor make bursts, bursts that are close make words, and a word is read from its bursts
by the tone decoder, which is given. Words are in order and apart, hold every loud frame, and
two neighbouring bursts are in one exactly if the gap is short; they lie in the segment if
and only if every loud frame, timed by the nominal frame length, ends in it (`words_iff`).
-/

namespace Umd.Audio

open Umd.Lib

/-- `NO_LEXICAL_MAP` -/
def noLexicalMap : String := "<unmapped>"

/-- `WORD_GAP_S` -/
def wordGapS : ℚ := 16 / 100

/-- `frame_s` in `_words_in_segment`. -/
def burstFrameS : ℚ := 5 / 1000

/-- `(t0, t1, word, conf)` -/
structure TimedWord where
  t0 : ℚ
  t1 : ℚ
  word : String
  conf : ℚ

/-- `_frame_energy`, the same loop as that of the voice activity. -/
def frameEnergy (root : ℚ → ℚ) (pcm : List ℚ) (sr : Nat) (frameS : ℚ) : List ℚ := rmsFrames root pcm sr frameS

/-- `music._adaptive_floor` -/
def adaptiveFloor (energy : List ℚ) : ℚ :=
  if energy = [] then 1 / 1000
  else
    let s := energy.insertionSort (· ≤ ·)
    s.getD (max 0 (min (s.length - 1) (s.length / 4))) 0

/-- `pcm[s0:s1]`: a negative end counts from the end of the list. -/
def slice (pcm : List ℚ) (s0 : Nat) (s1 : Int) : List ℚ :=
  let stop := if s1 < 0 then (s1 + pcm.length).toNat else s1.toNat
  (pcm.take stop).drop s0

/-- The samples of the segment. -/
def segmentSamples (pcm : List ℚ) (startS endS : ℚ) (sr : Nat) : List ℚ :=
  slice pcm (pyRound (startS * sr)).toNat (min (pcm.length : Int) (pyRound (endS * sr)))

/-- The floor the frames are compared with. -/
def energyFloor (energy : List ℚ) : ℚ := if energy = [] then 1 / 1000 else max (adaptiveFloor energy) (1 / 1000)

/-- `active` -/
def activeFrames (energy : List ℚ) : List Bool := energy.map fun e => decide (energyFloor energy < e)

/-- The gap to the next burst is shorter than that between words. -/
def closeTo (r r' : Nat × Nat) : Bool := decide ((r'.1 : ℚ) * burstFrameS - r.2 * burstFrameS < wordGapS)

/-- A word of a group of bursts, if it has characters. -/
def wordOf (decode : List ℚ → Option Char) (seg : List ℚ) (fs : Nat) (startS : ℚ) (group : List (Nat × Nat)) : Option TimedWord :=
  let decoded := group.map fun r => decode ((seg.take (r.2 * fs)).drop (r.1 * fs))
  let matched := (decoded.filter Option.isSome).length
  let word := String.ofList (decoded.map fun ch => ch.getD '?')
  let conf : ℚ := if decoded = [] then 0 else matched / decoded.length
  if word = "" then none
  else some {
    t0 := startS + (span group).1 * burstFrameS
    t1 := startS + (span group).2 * burstFrameS
    word := if matched = 0 then noLexicalMap else word
    conf
  }

/-- The energy of the frames of the segment. -/
def segmentEnergy (root : ℚ → ℚ) (pcm : List ℚ) (startS endS : ℚ) (sr : Nat) : List ℚ :=
  frameEnergy root (segmentSamples pcm startS endS sr) sr burstFrameS

/-- `_words_in_segment`; `decode` reads a burst, `tone.nearest_char` of `tone.dominant_frequency`. -/
def wordsInSegment (root : ℚ → ℚ) (decode : List ℚ → Option Char) (pcm : List ℚ) (startS endS : ℚ) (sr : Nat) : List TimedWord :=
  let seg := segmentSamples pcm startS endS sr
  if seg = [] then []
  else
    let energy := segmentEnergy root pcm startS endS sr
    let words := (runs (activeFrames energy)).splitBy closeTo
    words.filterMap (wordOf decode seg (frameSize sr burstFrameS) startS)

/-! ## What the words are to be -/

/-- A frame of the segment that is louder than the floor. -/
def Loud (root : ℚ → ℚ) (pcm : List ℚ) (startS endS : ℚ) (sr : Nat) (i : Nat) : Prop :=
  ∃ e, (segmentEnergy root pcm startS endS sr)[i]? = some e ∧ energyFloor (segmentEnergy root pcm startS endS sr) < e

/-- When a frame begins, by the nominal frame length. -/
def frameTime (startS : ℚ) (i : Nat) : ℚ := startS + i * burstFrameS

/-- Words in order and apart, in the segment, that hold the loud frames and the bursts of one word together. -/
structure Timed (loud : Nat → Prop) (startS endS : ℚ) (words : List TimedWord) : Prop where
  ordered : words.Pairwise fun w w' => w.t1 < w'.t0
  nonempty : ∀ w ∈ words, w.t0 < w.t1
  inside : ∀ w ∈ words, startS ≤ w.t0 ∧ w.t1 ≤ endS
  covered : ∀ i, loud i → ∃ w ∈ words, w.t0 ≤ frameTime startS i ∧ frameTime startS (i + 1) ≤ w.t1
  grouped : ∀ r r', IsRun loud r → IsRun loud r' → r.2 < r'.1 → (∀ i, r.2 ≤ i → i < r'.1 → ¬ loud i) →
    ((∃ w ∈ words, w.t0 ≤ frameTime startS r.1 ∧ frameTime startS r'.2 ≤ w.t1) ↔
      frameTime startS r'.1 - frameTime startS r.2 < wordGapS)

/-- Every loud frame ends, by the nominal frame length, in the segment. -/
def LoudInTime (loud : Nat → Prop) (startS endS : ℚ) : Prop := ∀ i : Nat, loud i → (i + 1) * burstFrameS ≤ endS - startS

section

variable {root : ℚ → ℚ} {decode : List ℚ → Option Char} {pcm : List ℚ} {startS endS : ℚ} {sr : Nat}

theorem on_active {i : Nat} : On (activeFrames (segmentEnergy root pcm startS endS sr)) i ↔ Loud root pcm startS endS sr i := by
  rw [On, activeFrames, List.getElem?_map, Option.map_eq_some_iff]
  simp only [decide_eq_true_eq]
  rfl

theorem runs_are_apart (bs : List Bool) : Apart (runs bs) := ⟨fun r hr => ((mem_runs_iff r).1 hr).lt, runs_apart⟩

/-- A group of bursts is a word from its first burst to its last. -/
theorem wordOf_some {seg : List ℚ} {fs : Nat} {group : List (Nat × Nat)} (h : group ≠ []) :
    ∃ w, wordOf decode seg fs startS group = some w ∧ w.t0 = frameTime startS (span group).1 ∧
      w.t1 = frameTime startS (span group).2 := by
  have hword : String.ofList ((group.map fun r => decode ((seg.take (r.2 * fs)).drop (r.1 * fs))).map fun ch => ch.getD '?') ≠ "" := by
    intro hempty
    have hlist := congrArg String.toList hempty
    rw [String.toList_ofList] at hlist
    exact h (List.map_eq_nil_iff.1 (List.map_eq_nil_iff.1 hlist))
  rw [wordOf, if_neg hword]
  exact ⟨_, rfl, rfl, rfl⟩

/-- A segment without samples has no words either way. -/
theorem wordsInSegment_eq : wordsInSegment root decode pcm startS endS sr =
    ((runs (activeFrames (segmentEnergy root pcm startS endS sr))).splitBy closeTo).filterMap
      (wordOf decode (segmentSamples pcm startS endS sr) (frameSize sr burstFrameS) startS) := by
  unfold wordsInSegment
  dsimp only
  split
  · next hempty =>
    have hframes : segmentEnergy root pcm startS endS sr = [] := by
      have hsize : 1 ≤ frameSize sr burstFrameS := le_max_left ..
      rw [segmentEnergy, frameEnergy, hempty, rmsFrames]
      dsimp only
      rw [List.length_nil, Nat.zero_add, Nat.div_eq_of_lt (by omega)]
      rfl
    rw [hframes]
    rfl
  · rfl

/-- The words are those of the groups of bursts, with their spans. -/
theorem mem_words {t0 t1 : ℚ} : (∃ w ∈ wordsInSegment root decode pcm startS endS sr, w.t0 = t0 ∧ w.t1 = t1) ↔
    ∃ g ∈ (runs (activeFrames (segmentEnergy root pcm startS endS sr))).splitBy closeTo,
      frameTime startS (span g).1 = t0 ∧ frameTime startS (span g).2 = t1 := by
  rw [wordsInSegment_eq]
  constructor
  · rintro ⟨w, hw, h0, h1⟩
    obtain ⟨g, hg, hword⟩ := List.mem_filterMap.1 hw
    obtain ⟨w', hw', h0', h1'⟩ := wordOf_some (List.ne_nil_of_mem_splitBy hg)
    obtain rfl := Option.some.inj (hw'.symm.trans hword)
    exact ⟨g, hg, h0' ▸ h0, h1' ▸ h1⟩
  · rintro ⟨g, hg, h0, h1⟩
    obtain ⟨w, hw, h0', h1'⟩ := wordOf_some (List.ne_nil_of_mem_splitBy hg)
    exact ⟨w, List.mem_filterMap.2 ⟨g, hg, hw⟩, h0'.trans h0, h1'.trans h1⟩

theorem frameTime_le {i j : Nat} : frameTime startS i ≤ frameTime startS j ↔ i ≤ j := by
  unfold frameTime burstFrameS
  constructor
  · intro h
    have hcast : (i : ℚ) ≤ j := by linarith
    exact_mod_cast hcast
  · intro h
    have hcast : (i : ℚ) ≤ j := by exact_mod_cast h
    linarith

theorem frameTime_lt {i j : Nat} : frameTime startS i < frameTime startS j ↔ i < j := by
  rw [← not_le, ← not_le, frameTime_le]

theorem start_le_frameTime (i : Nat) : startS ≤ frameTime startS i := by
  have hpos : (0 : ℚ) ≤ i * burstFrameS := mul_nonneg (Nat.cast_nonneg i) (by norm_num [burstFrameS])
  unfold frameTime
  linarith

/-- Bursts with nothing loud between them are listed one after the other. -/
theorem neighbours {bs : List Bool} {r r' : Nat × Nat} (hr : r ∈ runs bs) (hr' : r' ∈ runs bs) (hlt : r.2 < r'.1)
    (hbetween : ∀ i, r.2 ≤ i → i < r'.1 → ¬ On bs i) : ∃ A B, runs bs = A ++ r :: r' :: B := by
  obtain ⟨A, C, hsplit⟩ := List.append_of_mem hr
  have hapart := @runs_apart bs
  have hrlt := ((mem_runs_iff r).1 hr).lt
  have hrlt' := ((mem_runs_iff r').1 hr').lt
  rw [hsplit, List.pairwise_append, List.pairwise_cons] at hapart
  obtain ⟨-, ⟨hafter, hrest⟩, hbefore⟩ := hapart
  rw [hsplit] at hr'
  rcases List.mem_append.1 hr' with hA | hC
  · have := hbefore r' hA r List.mem_cons_self
    omega
  · rcases List.mem_cons.1 hC with rfl | hC
    · omega
    · cases C with
      | nil => cases hC
      | cons c C =>
        rcases List.mem_cons.1 hC with rfl | hC
        · exact ⟨A, C, hsplit⟩
        · have hc : c ∈ runs bs := by rw [hsplit]; simp
          have hcrun := (mem_runs_iff c).1 hc
          have hclt := hcrun.lt
          have hfirst := hafter c List.mem_cons_self
          have hlast := (List.pairwise_cons.1 hrest).1 r' hC
          exact absurd (hcrun.on c.1 le_rfl hclt) (hbetween c.1 hfirst.le (by omega))

theorem words_ordered : (wordsInSegment root decode pcm startS endS sr).Pairwise fun w w' => w.t1 < w'.t0 := by
  rw [wordsInSegment_eq, List.pairwise_filterMap]
  refine (groups_apart (runs_are_apart _)).imp_of_mem fun {g g'} hg hg' hapart w hw w' hw' => ?_
  obtain ⟨v, hv, -, ht1⟩ := wordOf_some (List.ne_nil_of_mem_splitBy hg)
  obtain ⟨v', hv', ht0, -⟩ := wordOf_some (List.ne_nil_of_mem_splitBy hg')
  obtain rfl := Option.some.inj (hv.symm.trans hw)
  obtain rfl := Option.some.inj (hv'.symm.trans hw')
  obtain ⟨-, b, hb, hspan⟩ := span_mem hg
  obtain ⟨⟨a, ha, hspan'⟩, -⟩ := span_mem hg'
  rw [ht1, ht0, hspan, hspan', frameTime_lt]
  exact hapart b hb a ha

/-- A stretch of time that frames bound lies in a word if and only if it lies in the span of a group. -/
theorem in_word_iff {i j : Nat} : (∃ w ∈ wordsInSegment root decode pcm startS endS sr, w.t0 ≤ frameTime startS i ∧ frameTime startS j ≤ w.t1) ↔
    ∃ g ∈ (runs (activeFrames (segmentEnergy root pcm startS endS sr))).splitBy closeTo, (span g).1 ≤ i ∧ j ≤ (span g).2 := by
  constructor
  · rintro ⟨w, hw, h0, h1⟩
    obtain ⟨g, hg, hg0, hg1⟩ := mem_words.1 ⟨w, hw, rfl, rfl⟩
    exact ⟨g, hg, frameTime_le.1 (hg0 ▸ h0), frameTime_le.1 (hg1 ▸ h1)⟩
  · rintro ⟨g, hg, h0, h1⟩
    obtain ⟨w, hw, hw0, hw1⟩ := mem_words.2 ⟨g, hg, rfl, rfl⟩
    exact ⟨w, hw, hw0 ▸ frameTime_le.2 h0, hw1 ▸ frameTime_le.2 h1⟩

theorem words_covered {i : Nat} (h : Loud root pcm startS endS sr i) :
    ∃ w ∈ wordsInSegment root decode pcm startS endS sr, w.t0 ≤ frameTime startS i ∧ frameTime startS (i + 1) ≤ w.t1 := by
  obtain ⟨r, hr, hfirst, hlast⟩ := run_of_on (on_active.2 h)
  obtain ⟨g, hg, hin⟩ := @group_of_run closeTo _ r ((mem_runs_iff r).2 hr)
  have hspan := (group_apart (runs_are_apart _) hg).span_le hin
  exact in_word_iff.2 ⟨g, hg, hspan.1.trans hfirst, le_trans hlast hspan.2⟩

theorem words_grouped {r r' : Nat × Nat} (hr : IsRun (Loud root pcm startS endS sr) r) (hr' : IsRun (Loud root pcm startS endS sr) r')
    (hlt : r.2 < r'.1) (hbetween : ∀ i, r.2 ≤ i → i < r'.1 → ¬ Loud root pcm startS endS sr i) :
    (∃ w ∈ wordsInSegment root decode pcm startS endS sr, w.t0 ≤ frameTime startS r.1 ∧ frameTime startS r'.2 ≤ w.t1) ↔
      frameTime startS r'.1 - frameTime startS r.2 < wordGapS := by
  have hloud : Loud root pcm startS endS sr = On (activeFrames (segmentEnergy root pcm startS endS sr)) :=
    funext fun i => propext on_active.symm
  rw [hloud] at hr hr' hbetween
  obtain ⟨A, B, hsplit⟩ := neighbours ((mem_runs_iff r).2 hr) ((mem_runs_iff r').2 hr') hlt hbetween
  have hgap : frameTime startS r'.1 - frameTime startS r.2 = r'.1 * burstFrameS - r.2 * burstFrameS := by
    unfold frameTime
    ring
  rw [in_word_iff, span_together_iff (runs_are_apart _) hsplit, closeTo, decide_eq_true_eq, hgap]

/-- **The words are in order and apart, hold every loud frame and join the bursts that are close, and they lie in the segment if and
only if every loud frame ends in it by the nominal frame length.** -/
theorem words_iff (root : ℚ → ℚ) (decode : List ℚ → Option Char) (pcm : List ℚ) (startS endS : ℚ) (sr : Nat) :
    Timed (Loud root pcm startS endS sr) startS endS (wordsInSegment root decode pcm startS endS sr) ↔
      LoudInTime (Loud root pcm startS endS sr) startS endS := by
  constructor
  · intro h i hi
    obtain ⟨w, hw, -, hend⟩ := h.covered i hi
    have hle := hend.trans (h.inside w hw).2
    unfold frameTime at hle
    push_cast at hle
    linarith
  · intro h
    refine ⟨words_ordered, fun w hw => ?_, fun w hw => ?_, fun i hi => words_covered hi, fun r r' hr hr' => words_grouped hr hr'⟩
    · obtain ⟨g, hg, h0, h1⟩ := mem_words.1 ⟨w, hw, rfl, rfl⟩
      obtain ⟨⟨a, ha, hspan⟩, -⟩ := span_mem hg
      have hapart := group_apart (runs_are_apart _) hg
      have hlt := hapart.lt a ha
      have hle := (hapart.span_le ha).2
      rw [← h0, ← h1, frameTime_lt, hspan]
      omega
    · obtain ⟨g, hg, h0, h1⟩ := mem_words.1 ⟨w, hw, rfl, rfl⟩
      obtain ⟨-, b, hb, hspan⟩ := span_mem hg
      have hrun := (mem_runs_iff b).1 (run_of_group hg hb)
      obtain ⟨k, hk⟩ : ∃ k, b.2 = k + 1 := ⟨b.2 - 1, by have := hrun.lt; omega⟩
      have hloud := h k (on_active.1 (hrun.on k (by have := hrun.lt; omega) (by omega)))
      rw [← h0, ← h1, hspan, hk]
      refine ⟨start_le_frameTime _, ?_⟩
      unfold frameTime
      push_cast
      linarith

end

/-- A quiet frame and a loud one of which the segment has one sample of two. -/
theorem word_late : ¬ Timed (Loud id [0, 0, 1] 0 (3 / 400) 400) 0 (3 / 400) (wordsInSegment id (fun _ => some 'a') [0, 0, 1] 0 (3 / 400) 400) := by
  intro h
  have hends : (wordsInSegment id (fun _ => some 'a') [0, 0, 1] 0 (3 / 400) 400).map (·.t1) = [4 / 400] := by decide +kernel
  obtain ⟨w, hw, hend⟩ := List.mem_map.1 (hends ▸ List.mem_singleton_self (4 / 400 : ℚ))
  have hlate := (h.inside w hw).2
  rw [hend] at hlate
  revert hlate
  decide +kernel

end Umd.Audio
