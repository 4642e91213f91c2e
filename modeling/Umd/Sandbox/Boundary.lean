import Umd.Audio.Serialize
import Umd.Subtitle.Serialize
import Umd.Video.Serialize
/-!
# The sandbox boundary

What a worker's result is on the other side of the boundary. A false value of a field
whose default is not false comes back as the default.
-/

namespace Umd.Sandbox

open Umd.Lib Umd.Audio Umd.Subtitle Umd.Video

/-- A subtitle, audio or video result crosses the boundary unchanged if and only if no field whose default is not false
has a false value. -/
theorem results_cross_iff (subtitles : SubtitleOutput) (audio : AudioOutput) (video : VideoOutput) :
    (subtitleOutputFromDict (subtitleOutputToDict subtitles) = .ok subtitles ↔ ∀ t ∈ subtitles.tracks, t.Kept) ∧
    (audioOutputFromDict (audioOutputToDict audio) = .ok audio ↔ audio.Kept) ∧
    (videoOutputFromDict (videoOutputToDict video) = .ok video ↔ video.Kept) :=
  ⟨Subtitle.output_read_iff subtitles, Audio.output_read_iff audio, Video.output_read_iff video⟩

/-- A speaker candidate of no confidence comes back with a confidence of 0.3. -/
theorem no_confidence_raised :
    let out : AudioOutput := { diarization := { speakerCandidates := [⟨0, "speaker_0", .zero, "reference", .zero, .zero⟩] } }
    let read : AudioOutput := { diarization := { speakerCandidates := [⟨0, "speaker_0", .ofNumber (.dec 3 1), "reference", .zero, .zero⟩] } }
    audioOutputFromDict (audioOutputToDict out) = .ok read ∧ read ≠ out := by
  intro out read
  refine ⟨Audio.output_read out, fun h => ?_⟩
  have hconfidence := congrArg (fun o => o.diarization.speakerCandidates.map (·.confidence)) h
  exact absurd hconfidence (by decide)

end Umd.Sandbox
