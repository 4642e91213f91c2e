import Mathlib
/-!
# Locators

`source://` locators as the constructors accept them: a segment of a source, the
version tag of the pipeline that cut it, and a selector within it.
-/

namespace Umd.Locators

/-- `PipelineVersion`; `version` is the registration ordinal. -/
structure PipelineVersion where
  segmenter : String
  decoder : String
  renderer : String
  version : ℤ := 0
deriving DecidableEq

/-- `PipelineVersion.tag`. -/
def PipelineVersion.tag (v : PipelineVersion) : String := "v" ++ v.segmenter ++ "." ++ v.decoder ++ "." ++ v.renderer

/-- The classes of `Selector`. -/
inductive Selector where
  | iiif (region : String)
  | cfi (text : String)
  | mediaFragment (t track spatial : Option String)
  | structural (path : String)
  | byteOffset (start stop : Nat)
deriving DecidableEq

/-- A parameter of a media fragment that is there and not empty. -/
def parameter (name : String) (value : Option String) : List String :=
  ((value.filter (· ≠ "")).map (name ++ "=" ++ ·)).toList

/-- `to_frag`. -/
def Selector.toFrag : Selector → String
  | .iiif region => region
  | .cfi text => text
  | .mediaFragment t track spatial => "&".intercalate (parameter "t" t ++ parameter "track" track ++ parameter "spatial" spatial)
  | .structural path => path
  | .byteOffset start stop => "bytes=" ++ toString start ++ "-" ++ toString stop

/-- `Locator`; its scheme is always `source`. -/
structure Locator where
  sourceId : String
  modality : String
  segment : String
  version : Option PipelineVersion := none
  frag : Option Selector := none
deriving DecidableEq

namespace Locator

/-- `canonical`. -/
def canonical (l : Locator) : String :=
  "source://" ++ l.sourceId ++ "/" ++ l.modality ++ "/" ++ l.segment ++ (l.version.map ("@" ++ ·.tag)).getD "" ++
    (l.frag.map ("?frag=" ++ ·.toFrag)).getD ""

/-- `without_version`. -/
def withoutVersion (l : Locator) : Locator := { l with version := none }

end Locator

end Umd.Locators
