import Umd.Domain.Locators
/-!
# Registered segments

`RegisteredSegment` and the store a locator looks them up in: a segment is kept
once a source, deterministic key and version tag.
-/

namespace Umd.Segmentation

open Umd.Locators

/-- `RegisteredSegment`. -/
structure RegisteredSegment where
  sourceId : String
  deterministicKey : String
  segmentId : String
  segmentType : String
  structuralPath : String
  modality : String
  version : PipelineVersion
  locator : String
  ordinal : Option ℤ := none
  isNew : Bool := true
deriving DecidableEq

/-- The segments of an `InMemorySegmentStore`, in the order they were put. -/
abbrev SegmentTable := List RegisteredSegment

namespace SegmentTable

/-- `put`: whether the segment is new, and the store with it. -/
def put (t : SegmentTable) (segment : RegisteredSegment) : SegmentTable × Bool :=
  let there := t.any fun s => s.sourceId = segment.sourceId && s.deterministicKey = segment.deterministicKey &&
    s.version.tag = segment.version.tag
  if there then (t, false) else (t ++ [segment], true)

/-- `find_by_locator`. -/
def findByLocator (t : SegmentTable) (sourceId modality segmentId : String) : List RegisteredSegment :=
  t.filter fun s => s.sourceId = sourceId && s.modality = modality && s.segmentId = segmentId

end SegmentTable

end Umd.Segmentation
