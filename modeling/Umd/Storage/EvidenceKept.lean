import Umd.Analysis.TextStructural
import Umd.Subtitle.Evidence
import Umd.Video.Evidence
/-!
# Evidence that survives deduplication

What each producer's input has to be like for all of its evidence to be stored, in any
table (`evidence_kept_iff`).
-/

namespace Umd.Repositories

open Umd.Lib Umd.Sandbox Umd.TextStructural Umd.Video Umd.Subtitle

/-- All evidence of a text is kept if and only if no paragraph has candidates and findings under one locator agree; that of a
video, if and only if parts of one index and all observations have one payload; that of subtitles, if and only if tracks of one
id and cues of one index have; each with the rows that are stored already. -/
theorem evidence_kept_iff (t : EvidenceTable) :
    (∀ (isWord : Char → Bool) (setOrder : SetOrder) (a : Analysis) (segments : List ParagraphSegment),
      Kept t [analyzeSegments isWord setOrder a segments] ↔
        ∀ seg ∈ segments, NoCandidates isWord seg.text.toList ∧ FindingAgrees t a segments seg) ∧
    (∀ (p : Video.PlanArgs) (round4 : PyReal → PyReal) (out : VideoOutput) (evs : List Evidence),
      buildVideoEvidencePlan p round4 out = .ok evs → (Kept t [evs] ↔ StoredAgree t evs ∧ VideoDistinct out)) ∧
    ∀ (p : Subtitle.PlanArgs) (out : SubtitleOutput),
      Kept t (subtitleBatches p out) ↔ StoredAgree t (subtitleBatches p out).flatten ∧ SubtitleDistinct out :=
  ⟨fun _ _ => text_kept_iff t, fun _ _ _ _ h => video_kept_iff t h, fun _ => subtitle_kept_iff t⟩

/-- `\w` of a text in ASCII. -/
def asciiWord (c : Char) : Bool := c.isAlphanum || c = '_'

def insertionOrder : SetOrder := ⟨id, perm_id⟩

def rained : List ParagraphSegment := [{ text := "then it rained.", locator := "chapter/1/paragraph/1" }]

def oneScene : VideoOutput where
  scenes := [{ index := 1, startPts := some 0, startS := .zero, endS := .ofNumber (.dec 25 1), threshold := .ofNumber (.dec 4 1) }]

def oneCue : SubtitleOutput where
  tracks := [{ index := some 2, sourceNote := "standalone", events := [{ index := 0, startMs := 0, endMs := 900, text := "Hello" }] }]

theorem evidence_kept_iff_small :
    Kept .empty [analyzeSegments asciiWord insertionOrder { sourceId := "s" } rained] ∧
      (∃ evs, buildVideoEvidencePlan { sourceId := "s" } id oneScene = .ok evs ∧ Kept .empty [evs]) ∧
      Kept .empty (subtitleBatches { sourceId := "s" } oneCue) := by
  have hempty : ∀ evs, StoredAgree .empty evs := fun _ _ _ r hr => absurd hr List.not_mem_nil
  obtain ⟨htext, hvideo, hsubtitle⟩ := evidence_kept_iff .empty
  obtain ⟨evs, hevs⟩ : ∃ evs, buildVideoEvidencePlan { sourceId := "s" } id oneScene = .ok evs := ⟨_, rfl⟩
  refine ⟨(htext ..).2 ?_, ⟨evs, hevs, (hvideo _ _ _ _ hevs).2 ⟨hempty _, ?_⟩⟩, (hsubtitle ..).2 ⟨hempty _, ?_⟩⟩
  · simp only [rained, List.forall_mem_cons, List.not_mem_nil, false_implies, implies_true, and_true]
    refine ⟨?_, fun r hr => absurd hr List.not_mem_nil, fun seg hseg _ => by rw [List.mem_singleton.1 hseg]⟩
    have hruns : seenRuns asciiWord "then it rained.".toList = [] := by decide +kernel
    rw [NoCandidates, hruns]
    exact ⟨by decide, fun r hr => absurd hr List.not_mem_nil⟩
  · constructor
    all_goals simp [oneScene, OneQuality]
  · constructor
    all_goals simp [oneCue, OneQuality, SubtitleOutput.cues]

/-- Two names in a paragraph: the finding takes the identity of the relationship. -/
def metBob : List ParagraphSegment := [{ text := "Alice met Bob.", locator := "chapter/1/paragraph/1" }]

/-- The relationship candidate is lost. -/
theorem relationship_not_kept : ¬ Kept .empty [analyzeSegments asciiWord insertionOrder { sourceId := "s" } metBob] := by
  intro h
  have hfew := ((text_kept_iff _ _ _).1 h _ List.mem_cons_self).1.1
  exact absurd hfew (by decide +kernel)

end Umd.Repositories
