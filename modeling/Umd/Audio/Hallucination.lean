import Umd.Audio.Serialize
import Umd.Audio.Vad
/-!
# Hallucination filter

`filter_hallucinations` decides each utterance by its backing with speech, the energy
correlation and the confidence of its words. An utterance of which only some words are
filtered is kept as it came, so the kept words are the unfiltered ones if and only if
there is no such utterance (`filtered_iff`). The arithmetic of floats is a parameter.
-/

namespace Umd.Audio

open Umd.Lib Umd.Sandbox

/-- What the filter computes with floats. -/
structure FloatArith where
  lt : PyReal → PyReal → Bool
  add : PyReal → PyReal → PyReal
  sub : PyReal → PyReal → PyReal
  div : PyReal → PyReal → PyReal
  round4 : PyReal → PyReal

/-- `AudioConfig`, as far as the filter reads it. -/
structure AudioConfig where
  confidenceThreshold : PyReal := .ofNumber (.dec 45 2)
  energyCorrelationThreshold : PyReal := .ofNumber (.dec 5 1)

inductive FilterResult where
  | filtered
  | kept
deriving DecidableEq

structure FilterDecision where
  utteranceIndex : Int
  reference : String
  outcome : FilterResult
  triggerSignal : Option String
  signals : Dict
  replacedWith : Option String
  filteredWordIndices : List Nat

structure FilterOutcome where
  decisions : List FilterDecision
  kept : AsrResult
  energyCorrelation : PyReal

def sVad : String := "vad_no_speech"
def sLogprob : String := "logprob_confidence"
def sEnergy : String := "acoustic_energy_correlation"
def sPromotion : String := "promotion_ban"

/-- `1.0` -/
def realOne : PyReal := .ofNumber (.dec 1 0)

/-- `0.5` -/
def realHalf : PyReal := .ofNumber (.dec 5 1)

section

variable (arith : FloatArith)

/-- `max(a, b)` -/
def FloatArith.max (a b : PyReal) : PyReal := if arith.lt a b then b else a

/-- `min(a, b)` -/
def FloatArith.min (a b : PyReal) : PyReal := if arith.lt b a then b else a

/-- `AsrUtterance.duration_s`. -/
def AsrUtterance.durationS (utt : AsrUtterance) : PyReal := arith.max .zero (arith.sub utt.endS utt.startS)

/-- One speech segment, after the time that is covered so far. -/
def coverBy (utt : AsrUtterance) (covered : PyReal) (seg : SpeechSegment PyReal) : PyReal :=
  let lo := arith.max utt.startS seg.startS
  let hi := arith.min utt.endS seg.endS
  if arith.lt lo hi then arith.add covered (arith.sub hi lo) else covered

/-- `_vad_backing`. -/
def vadBacking (utt : AsrUtterance) (vad : Option (VadResult PyReal)) : PyReal :=
  match vad with
  | none => realOne
  | some result =>
    if result.speechSegments = [] then .zero
    else
      let covered := result.speechSegments.foldl (coverBy arith utt) .zero
      if arith.lt .zero (utt.durationS arith) then arith.div covered (utt.durationS arith) else .zero

variable (config : AudioConfig)

/-- The indices of the words below the threshold. -/
def lowWords (utt : AsrUtterance) : List Nat :=
  (utt.words.zipIdx.filter fun w => arith.lt w.1.confidence config.confidenceThreshold).map (·.2)

/-- The words that are not at these indices. -/
def wordsExcept (utt : AsrUtterance) (indices : List Nat) : List AsrWord :=
  (utt.words.zipIdx.filter fun w => w.2 ∉ indices).map (·.1)

def signalsOf (corr energy : PyReal) (utt : AsrUtterance) : Dict :=
  [(sVad, .obj [("overlap_ratio", ofReal (arith.round4 energy)), ("no_speech_backing", .bool (arith.lt energy realHalf))]),
   (sLogprob, .obj [("mean_word_confidence", ofReal (arith.round4 utt.confidence)),
     ("low_confidence_words", ofInt (lowWords arith config utt).length)]),
   (sEnergy, .obj [("correlation", ofReal (arith.round4 corr))]),
   (sPromotion, .obj [("enforced", .bool true), ("can_auto_promote", .bool false)])]

/-- The outcome for one utterance, its trigger, what replaces it, and the indices of the filtered words. -/
def judge (corr energy : PyReal) (utt : AsrUtterance) : FilterResult × Option String × Option String × List Nat :=
  let low := lowWords arith config utt
  let keptWords := wordsExcept utt low
  if arith.lt energy realHalf then (.filtered, some sVad, none, List.range utt.words.length)
  else if arith.lt corr config.energyCorrelationThreshold then (.filtered, some sEnergy, none, List.range utt.words.length)
  else if low ≠ [] ∧ keptWords ≠ [] then (.kept, some sLogprob, some (" ".intercalate (keptWords.map (·.word))), low)
  else if low ≠ [] then (.filtered, some sLogprob, some "", low)
  else (.kept, none, none, [])

/-- The decision on one utterance. -/
def decisionOf (corr : PyReal) (sourceId : Option String) (vad : Option (VadResult PyReal)) (utt : AsrUtterance) : FilterDecision :=
  let energy := vadBacking arith utt vad
  let (outcome, trigger, replacedWith, filteredIndices) := judge arith config corr energy utt
  { utteranceIndex := utt.index
    reference := "source://" ++ (sourceId.filter (· ≠ "")).getD "?" ++ "/audio/segment/" ++ toString utt.index
    outcome := outcome
    triggerSignal := trigger
    signals := signalsOf arith config corr energy utt
    replacedWith := replacedWith
    filteredWordIndices := filteredIndices }

/-- `filter_hallucinations`. -/
def filterHallucinations (asr : AsrResult) (sourceId : Option String) (vad : Option (VadResult PyReal)) : FilterOutcome :=
  let corr := asr.energyCorrelation
  let (decisions, keptUtterances) := asr.utterances.foldl (fun done utt =>
    let decision := decisionOf arith config corr sourceId vad utt
    (done.1 ++ [decision], if decision.outcome = .kept then done.2 ++ [utt] else done.2)) ([], [])
  { decisions := decisions, kept := { asr with utterances := keptUtterances }, energyCorrelation := corr }

end

/-! ## What is to be kept -/

/-- The utterances with their decisions. -/
def decided (asr : AsrResult) (outcome : FilterOutcome) : List (AsrUtterance × FilterDecision) :=
  asr.utterances.zip outcome.decisions

/-- One decision for each utterance, and of the words just those that are not filtered. -/
structure Filtered (asr : AsrResult) (outcome : FilterOutcome) : Prop where
  decisions : outcome.decisions.map (·.utteranceIndex) = asr.utterances.map (·.index)
  words : outcome.kept.utterances.flatMap (·.words) =
    (decided asr outcome).flatMap fun p => wordsExcept p.1 p.2.filteredWordIndices
  text : List.Forall₂ (fun p utt => ∀ i ∈ p.2.filteredWordIndices, ∀ w, p.1.words[i]? = some w → ¬ w.word.toList <:+: utt.text.toList)
    ((decided asr outcome).filter fun p => p.2.outcome = .kept) outcome.kept.utterances

/-- An utterance with speech behind it that has words below the threshold and others. -/
structure PartlyLow (arith : FloatArith) (config : AudioConfig) (asr : AsrResult) (vad : Option (VadResult PyReal))
    (utt : AsrUtterance) : Prop where
  backed : arith.lt (vadBacking arith utt vad) realHalf = false
  correlated : arith.lt asr.energyCorrelation config.energyCorrelationThreshold = false
  low : ∃ w ∈ utt.words, arith.lt w.confidence config.confidenceThreshold = true
  confident : ∃ w ∈ utt.words, arith.lt w.confidence config.confidenceThreshold = false

section Decisions

variable {arith : FloatArith} {config : AudioConfig} {asr : AsrResult} {sourceId : Option String}
  {vad : Option (VadResult PyReal)}

/-- The decisions and the kept utterances, which the loop puts together side by side. -/
theorem filterHallucinations_eq : filterHallucinations arith config asr sourceId vad =
    { decisions := asr.utterances.map (decisionOf arith config asr.energyCorrelation sourceId vad)
      kept := { asr with utterances := asr.utterances.filter fun utt =>
        (decisionOf arith config asr.energyCorrelation sourceId vad utt).outcome = .kept }
      energyCorrelation := asr.energyCorrelation } := by
  have hloop : ∀ (utts : List AsrUtterance) (done : List FilterDecision × List AsrUtterance), utts.foldl (fun done utt =>
      (done.1 ++ [decisionOf arith config asr.energyCorrelation sourceId vad utt],
        if (decisionOf arith config asr.energyCorrelation sourceId vad utt).outcome = .kept then done.2 ++ [utt] else done.2)) done =
      (done.1 ++ utts.map (decisionOf arith config asr.energyCorrelation sourceId vad),
        done.2 ++ utts.filter fun utt => (decisionOf arith config asr.energyCorrelation sourceId vad utt).outcome = .kept) := by
    intro utts
    induction utts with
    | nil => simp
    | cons utt utts ih =>
      intro done
      rw [List.foldl_cons, ih]
      by_cases hkept : (decisionOf arith config asr.energyCorrelation sourceId vad utt).outcome = .kept
      · simp [hkept]
      · simp [hkept]
  unfold filterHallucinations
  dsimp only
  rw [hloop]
  rfl

theorem decided_eq : decided asr (filterHallucinations arith config asr sourceId vad) =
    asr.utterances.map fun utt => (utt, decisionOf arith config asr.energyCorrelation sourceId vad utt) := by
  unfold decided
  rw [filterHallucinations_eq]
  dsimp only
  induction asr.utterances with
  | nil => rfl
  | cons utt utts ih => rw [List.map_cons, List.zip_cons_cons, ih, List.map_cons]

/-! ## The words of one utterance -/

theorem mem_lowWords {utt : AsrUtterance} {i : Nat} : i ∈ lowWords arith config utt ↔
    ∃ w, utt.words[i]? = some w ∧ arith.lt w.confidence config.confidenceThreshold = true := by
  unfold lowWords
  simp [List.mem_zipIdx_iff_getElem?]

theorem mem_wordsExcept {utt : AsrUtterance} {indices : List Nat} {w : AsrWord} : w ∈ wordsExcept utt indices ↔
    ∃ i, i ∉ indices ∧ utt.words[i]? = some w := by
  unfold wordsExcept
  simp [List.mem_zipIdx_iff_getElem?, and_comm]

theorem wordsExcept_nil (utt : AsrUtterance) : wordsExcept utt [] = utt.words := by
  unfold wordsExcept
  simp

theorem wordsExcept_all (utt : AsrUtterance) : wordsExcept utt (List.range utt.words.length) = [] := by
  refine List.eq_nil_iff_forall_not_mem.2 fun w hw => ?_
  obtain ⟨i, hi, hw⟩ := mem_wordsExcept.1 hw
  exact hi (List.mem_range.2 (List.getElem?_eq_some_iff.1 hw).1)

theorem wordsExcept_length_le (utt : AsrUtterance) (indices : List Nat) : (wordsExcept utt indices).length ≤ utt.words.length := by
  unfold wordsExcept
  rw [List.length_map]
  exact (List.length_filter_le ..).trans (by simp)

/-- An index of a word takes one away. -/
theorem wordsExcept_length_lt {utt : AsrUtterance} {indices : List Nat} {i : Nat} (hi : i ∈ indices) (hlt : i < utt.words.length) :
    (wordsExcept utt indices).length < utt.words.length := by
  unfold wordsExcept
  rw [List.length_map]
  have hin : (utt.words[i], i) ∈ utt.words.zipIdx := by simp [List.mem_zipIdx_iff_getElem?, hlt]
  have hless : (utt.words.zipIdx.filter fun w => w.2 ∉ indices).length < utt.words.zipIdx.length :=
    List.length_filter_lt_length_iff_exists.2 ⟨_, hin, by simpa using hi⟩
  simpa using hless

/-- The words that the kept utterances have of one utterance. -/
def keptOf (d : FilterDecision) (utt : AsrUtterance) : List AsrWord := if d.outcome = .kept then utt.words else []

/-- The decision on an utterance that is not partly low: it is kept whole, or filtered whole. -/
theorem decision_whole {utt : AsrUtterance} (h : ¬ PartlyLow arith config asr vad utt) :
    let d := decisionOf arith config asr.energyCorrelation sourceId vad utt
    (d.outcome = .kept → d.filteredWordIndices = []) ∧ keptOf d utt = wordsExcept utt d.filteredWordIndices := by
  dsimp only
  unfold keptOf decisionOf judge
  dsimp only
  split
  · exact ⟨nofun, (wordsExcept_all utt).symm⟩
  · rename_i hbacked
    split
    · exact ⟨nofun, (wordsExcept_all utt).symm⟩
    · rename_i hcorr
      split
      · rename_i hpartly
        refine absurd ⟨by simpa using hbacked, by simpa using hcorr, ?_, ?_⟩ h
        · obtain ⟨i, hi⟩ := List.exists_mem_of_ne_nil _ hpartly.1
          obtain ⟨w, hw, hlow⟩ := mem_lowWords.1 hi
          exact ⟨w, List.mem_of_getElem? hw, hlow⟩
        · obtain ⟨w, hw⟩ := List.exists_mem_of_ne_nil _ hpartly.2
          obtain ⟨i, hi, hw⟩ := mem_wordsExcept.1 hw
          refine ⟨w, List.mem_of_getElem? hw, ?_⟩
          by_contra hlow
          exact hi (mem_lowWords.2 ⟨w, hw, by simpa using hlow⟩)
      · rename_i hnot
        split
        · rename_i hlow
          have hnone : wordsExcept utt (lowWords arith config utt) = [] := by
            by_contra hsome
            exact hnot ⟨hlow, hsome⟩
          exact ⟨nofun, hnone.symm⟩
        · exact ⟨fun _ => rfl, (wordsExcept_nil utt).symm⟩

/-- The fourth branch: it is kept, and the filtered words are listed. -/
theorem judge_partly {utt : AsrUtterance} {corr energy : PyReal} (hbacked : arith.lt energy realHalf = false)
    (hcorr : arith.lt corr config.energyCorrelationThreshold = false) (hlow : lowWords arith config utt ≠ [])
    (hkept : wordsExcept utt (lowWords arith config utt) ≠ []) : judge arith config corr energy utt =
      (.kept, some sLogprob, some (" ".intercalate ((wordsExcept utt (lowWords arith config utt)).map (·.word))),
        lowWords arith config utt) := by
  unfold judge
  dsimp only
  rw [if_neg (by simp [hbacked]), if_neg (by simp [hcorr]), if_pos ⟨hlow, hkept⟩]

/-- An utterance that is partly low is kept with all its words. -/
theorem decision_partly {utt : AsrUtterance} (h : PartlyLow arith config asr vad utt) :
    let d := decisionOf arith config asr.energyCorrelation sourceId vad utt
    (wordsExcept utt d.filteredWordIndices).length < (keptOf d utt).length := by
  obtain ⟨hbacked, hcorr, ⟨w, hw, hlow⟩, w', hw', hconfident⟩ := h
  obtain ⟨i, hi⟩ := List.getElem?_of_mem hw
  obtain ⟨i', hi'⟩ := List.getElem?_of_mem hw'
  have hin : i ∈ lowWords arith config utt := mem_lowWords.2 ⟨w, hi, hlow⟩
  have hout : w' ∈ wordsExcept utt (lowWords arith config utt) := by
    refine mem_wordsExcept.2 ⟨i', fun hmem => ?_, hi'⟩
    obtain ⟨w'', hw'', hlow''⟩ := mem_lowWords.1 hmem
    rw [hi'] at hw''
    cases hw''
    rw [hconfident] at hlow''
    cases hlow''
  dsimp only
  unfold keptOf decisionOf
  simp only [judge_partly hbacked hcorr (List.ne_nil_of_mem hin) (List.ne_nil_of_mem hout), if_true]
  exact wordsExcept_length_lt hin (List.getElem?_eq_some_iff.1 hi).1

/-! ## All utterances -/

theorem kept_flatMap (utts : List AsrUtterance) (d : AsrUtterance → FilterDecision) :
    (utts.filter fun utt => (d utt).outcome = .kept).flatMap (·.words) = utts.flatMap fun utt => keptOf (d utt) utt := by
  induction utts with
  | nil => rfl
  | cons utt utts ih =>
    rw [List.flatMap_cons, ← ih]
    by_cases hkept : (d utt).outcome = .kept
    · simp [keptOf, hkept]
    · simp [keptOf, hkept]

/-- Lists of which none is shorter than another make up as much only if none is longer. -/
theorem length_of_flatMap_eq {α β : Type} {f g : α → List β} {xs : List α} (hle : ∀ x ∈ xs, (g x).length ≤ (f x).length)
    (h : xs.flatMap f = xs.flatMap g) : ∀ x ∈ xs, ¬ (g x).length < (f x).length := by
  have hlen : (xs.map fun x => (f x).length).sum = (xs.map fun x => (g x).length).sum := by
    simpa [List.length_flatMap] using congrArg List.length h
  intro x hx hlt
  exact absurd hlen (List.sum_lt_sum _ _ hle ⟨x, hx, hlt⟩).ne'

/-- **The kept result has just the unfiltered words if and only if no utterance with speech behind it has words below the threshold
and others.** -/
theorem filtered_iff (arith : FloatArith) (config : AudioConfig) (asr : AsrResult) (sourceId : Option String)
    (vad : Option (VadResult PyReal)) : Filtered asr (filterHallucinations arith config asr sourceId vad) ↔
      ∀ utt ∈ asr.utterances, ¬ PartlyLow arith config asr vad utt := by
  have hkept : (filterHallucinations arith config asr sourceId vad).kept.utterances.flatMap (·.words) =
      asr.utterances.flatMap fun utt => keptOf (decisionOf arith config asr.energyCorrelation sourceId vad utt) utt := by
    rw [filterHallucinations_eq]
    exact kept_flatMap _ _
  constructor
  · rintro ⟨-, hwords, -⟩ utt hutt hpartly
    rw [hkept, decided_eq, List.flatMap_map] at hwords
    refine length_of_flatMap_eq (fun u _ => ?_) hwords utt hutt (decision_partly hpartly)
    by_cases hu : PartlyLow arith config asr vad u
    · exact (decision_partly hu).le
    · rw [(decision_whole hu).2]
  · intro hwhole
    refine ⟨?_, ?_, ?_⟩
    · rw [filterHallucinations_eq, List.map_map]
      rfl
    · rw [hkept, decided_eq, List.flatMap_map]
      exact List.flatMap_congr fun utt hutt => (decision_whole (hwhole utt hutt)).2
    · rw [decided_eq, filterHallucinations_eq, List.filter_map, List.forall₂_map_left_iff]
      refine List.forall₂_same.2 fun utt hutt i hi => ?_
      obtain ⟨hin, hout⟩ := List.mem_filter.1 hutt
      rw [(decision_whole (hwhole utt hin)).1 (by simpa using hout)] at hi
      cases hi

end Decisions

/-! ## A word that is filtered and kept -/

/-- Decimals, with what is asked of them where no VAD has run. -/
def decimalArith : FloatArith where
  lt
    | ⟨.dec m e, _⟩, ⟨.dec m' e', _⟩ => m * 10 ^ e' < m' * 10 ^ e
    | _, _ => false
  add
    | ⟨.dec m e, _⟩, ⟨.dec m' e', _⟩ => .ofNumber (.dec (m * 10 ^ e' + m' * 10 ^ e) (e + e'))
    | x, _ => x
  sub
    | ⟨.dec m e, _⟩, ⟨.dec m' e', _⟩ => .ofNumber (.dec (m * 10 ^ e' - m' * 10 ^ e) (e + e'))
    | x, _ => x
  div x _ := x
  round4 x := x

def heardWord : AsrWord := { word := "hi", startS := .zero, endS := realHalf, confidence := .ofNumber (.dec 9 1) }

def doubtfulWord : AsrWord := { word := "um", startS := realHalf, endS := realOne, confidence := .ofNumber (.dec 1 1) }

def doubtfulUtterance : AsrUtterance :=
  { index := 0, text := "hi um", startS := .zero, endS := realOne, words := [heardWord, doubtfulWord], confidence := realHalf }

def doubtfulResult : AsrResult :=
  { provider := "reference", providerVersion := "1", language := none, utterances := [doubtfulUtterance],
    confidence := realHalf, energyCorrelation := .ofNumber (.dec 9 1) }

/-- The second word is listed as filtered, and stays in the kept utterance and in its text. -/
theorem filtered_word_kept : ¬ Filtered doubtfulResult (filterHallucinations decimalArith {} doubtfulResult (some "s1") none) := by
  rintro ⟨-, hwords, -⟩
  have hlen := congrArg List.length hwords
  revert hlen
  decide +kernel

end Umd.Audio
