import Umd.Lib.Json
import Umd.Lib.Ranking
import Umd.Segmentation.Registry
/-!
# Resolving a locator

`LocatorResolver.resolve` over any segment store: the segments of the path, the
one that is selected of them, and the drift that is reported of it. A locator
with a version tag is answered by a segment of that tag where one is registered;
where none is, the newest is selected and found to be no drift
(`explicit_version_iff`).
-/

namespace Umd.Resolution

open Umd.Lib Umd.Locators Umd.Segmentation

/-- `VersionPolicy`. -/
inductive VersionPolicy where
  | bare
  | explicit
deriving DecidableEq

inductive DriftKind where
  | none
  | version
  | unresolved
deriving DecidableEq

structure DriftReport where
  kind : DriftKind := .none
  message : Option String := Option.none
  had : Option PipelineVersion := Option.none
  newest : Option PipelineVersion := Option.none
deriving DecidableEq

structure SourceRecord where
  sourceId : String
  ocflRef : String
  sha512 : String
  sizeBytes : Nat
  mediaKind : String
  workId : Option String := none
  continuityId : Option String := none
  editionId : Option String := none

/-- A quarantine record of `record`. -/
structure QuarantineEntry where
  locator : String
  reason : String
  refs : List String
deriving DecidableEq

/-- `PATH_UNRESOLVED`. -/
def pathUnresolved : String := "PATH_UNRESOLVED"

/-- What `_retrieve` gives: the bytes, their bounds, and what is around them. -/
structure Retrieved where
  data : List UInt8
  rangeStart : Nat
  rangeEnd : Nat
  neighborContext : Dict

/-- `provenance`. -/
structure Provenance where
  ocflRef : String
  contentSha512 : String
  sizeBytes : Nat

structure SourceRange where
  locator : String
  sourceId : String
  modality : String
  segmentId : String
  structuralPath : String
  resolvedVersion : Option PipelineVersion := none
  drift : DriftReport := {}
  retrieved : Option Retrieved := none
  sizeBytes : Option Nat := none
  sha512 : Option String := none
  provenance : Option Provenance := none

/-- `(version, tag)` in order. -/
def olderThan (m m' : RegisteredSegment) : Bool :=
  m.version.version < m'.version.version || (m.version.version = m'.version.version && m.version.tag < m'.version.tag)

/-- `max(matches, key=lambda m: (m.version.version, m.version.tag))`. -/
def newestOf (found : List RegisteredSegment) : Option RegisteredSegment := firstMax olderThan found

/-- `_select`. -/
def select (found : List RegisteredSegment) (l : Locator) (policy : VersionPolicy) : Option RegisteredSegment :=
  match policy, l.version with
  | .explicit, some version =>
    match found.filter (·.version.tag = version.tag) with
    | [] => newestOf found
    | exact => firstMax (fun m m' => m.version.version < m'.version.version) exact
  | _, _ => newestOf found

/-- `_compute_drift`. -/
def computeDrift (selected : RegisteredSegment) (found : List RegisteredSegment) : DriftReport :=
  match newestOf found with
  | some newest =>
    if selected.version ≠ newest.version then
      { kind := .version
        message := some "older pipeline version still addressable (no silent repair)"
        had := some selected.version
        newest := some newest.version }
    else {}
  | none => {}

/-- `_unresolved`, after what is in quarantine already. -/
def unresolved (quarantine : List QuarantineEntry) (l : Locator) (reason : String) :
    List QuarantineEntry × SourceRange :=
  (quarantine ++ [⟨l.canonical, pathUnresolved, [reason]⟩],
    { locator := l.canonical
      sourceId := l.sourceId
      modality := l.modality
      segmentId := l.segment
      structuralPath := ""
      drift := { kind := .unresolved, message := some reason } })

/-- A `LocatorResolver`: its segment store, its source repository and its `_retrieve`, which reads the bytes of the source
and may raise. -/
structure LocatorResolver where
  findByLocator : String → String → String → List RegisteredSegment
  source : String → Option SourceRecord
  retrieve : SourceRecord → Locator → Except PyError Retrieved

namespace LocatorResolver

/-- `_find_matches`. -/
def findMatches (r : LocatorResolver) (l : Locator) (source : SourceRecord) : List RegisteredSegment :=
  r.findByLocator source.sourceId l.modality l.segment

/-- `resolve` of a parsed locator. -/
def resolve (r : LocatorResolver) (quarantine : List QuarantineEntry) (l : Locator) (policy : VersionPolicy) :
    List QuarantineEntry × Except PyError SourceRange :=
  match r.source l.sourceId with
  | none =>
    let (quarantine, range) := unresolved quarantine l ("unknown source id " ++ Lib.reprStr l.sourceId)
    (quarantine, .ok range)
  | some source =>
    let found := r.findMatches l source
    if found.isEmpty then
      let (quarantine, range) := unresolved quarantine l "structural path not registered"
      (quarantine, .ok range)
    else
      match select found l policy with
      | none =>
        let (quarantine, range) := unresolved quarantine l
          "explicit version not registered (old @vN stays addressable only if present)"
        (quarantine, .ok range)
      | some selected =>
        match r.retrieve source l with
        | .error e => (quarantine, .error e)
        | .ok retrieved =>
          (quarantine, .ok {
            locator := l.withoutVersion.canonical ++ "@" ++ selected.version.tag
            sourceId := source.sourceId
            modality := selected.modality
            segmentId := selected.segmentId
            structuralPath := selected.structuralPath
            resolvedVersion := some selected.version
            drift := computeDrift selected found
            retrieved := some retrieved
            sizeBytes := some source.sizeBytes
            sha512 := some source.sha512
            provenance := some ⟨source.ocflRef, source.sha512, source.sizeBytes⟩ })

end LocatorResolver

/-! ## What is selected -/

/-- Under the explicit policy a segment of the tag is selected, or the newest where there is none. -/
theorem select_explicit {found : List RegisteredSegment} {l : Locator} {version : PipelineVersion} (hl : l.version = some version)
    (hne : found ≠ []) : ∃ m, select found l .explicit = some m ∧
      if ∃ m ∈ found, m.version.tag = version.tag then m ∈ found ∧ m.version.tag = version.tag else newestOf found = some m := by
  unfold select
  rw [hl]
  dsimp only
  cases hf : found.filter (·.version.tag = version.tag) with
  | nil =>
    obtain ⟨m, hm⟩ := @firstMax_isSome _ olderThan _ hne
    refine ⟨m, hm, ?_⟩
    rw [if_neg]
    · exact hm
    · rintro ⟨m', hm', htag⟩
      rw [List.filter_eq_nil_iff] at hf
      exact hf m' hm' (by simpa using htag)
  | cons x xs =>
    obtain ⟨m, hm⟩ := @firstMax_isSome _ (fun m m' : RegisteredSegment => decide (m.version.version < m'.version.version)) _
      (List.cons_ne_nil x xs)
    have hmem : m ∈ found.filter (·.version.tag = version.tag) := by
      rw [hf]
      exact firstMax_mem hm
    obtain ⟨hin, htag⟩ := List.mem_filter.1 hmem
    refine ⟨m, hm, ?_⟩
    rw [if_pos ⟨m, hin, by simpa using htag⟩]
    exact ⟨hin, by simpa using htag⟩

theorem computeDrift_newest {found : List RegisteredSegment} {m : RegisteredSegment} (h : newestOf found = some m) :
    computeDrift m found = {} := by
  unfold computeDrift
  rw [h]
  exact if_neg (by simp)

/-- A range that is returned has the requested tag, or the mismatch is reported. -/
def VersionKept (r : LocatorResolver) (quarantine : List QuarantineEntry) (l : Locator) (version : PipelineVersion) : Prop :=
  ∀ quarantine' range, r.resolve quarantine l .explicit = (quarantine', .ok range) →
    range.resolvedVersion.map (·.tag) = some version.tag ∨
    (range.drift.kind = .unresolved ∧ ∃ reason, quarantine' = quarantine ++ [⟨l.canonical, pathUnresolved, [reason]⟩]) ∨
    range.drift.kind = .version

/-- A locator with a version is answered by that version or a report of the mismatch if and only if its source is unknown,
no segment is registered for its path or one with the requested tag is, or the bytes cannot be read. -/
theorem explicit_version_iff {r : LocatorResolver} {quarantine : List QuarantineEntry} {l : Locator} {version : PipelineVersion}
    (hl : l.version = some version) : VersionKept r quarantine l version ↔
      ∀ source, r.source l.sourceId = some source → r.findMatches l source = [] ∨
        (∃ m ∈ r.findMatches l source, m.version.tag = version.tag) ∨ ∃ e, r.retrieve source l = .error e := by
  unfold VersionKept LocatorResolver.resolve
  cases hs : r.source l.sourceId with
  | none =>
    refine iff_of_true ?_ nofun
    rintro _ _ ⟨⟩
    exact .inr (.inl ⟨rfl, _, rfl⟩)
  | some source =>
    simp only [Option.some.injEq, forall_eq']
    by_cases hempty : r.findMatches l source = []
    · rw [if_pos (by rw [hempty]; rfl)]
      refine iff_of_true ?_ (.inl hempty)
      rintro _ _ ⟨⟩
      exact .inr (.inl ⟨rfl, _, rfl⟩)
    · rw [if_neg (by simpa using hempty)]
      obtain ⟨m, hm, hspec⟩ := select_explicit hl hempty
      rw [hm]
      dsimp only
      cases hr : r.retrieve source l with
      | error e => exact iff_of_true (by rintro _ _ ⟨⟩) (.inr (.inr ⟨e, rfl⟩))
      | ok retrieved =>
        dsimp only
        by_cases htag : ∃ m ∈ r.findMatches l source, m.version.tag = version.tag
        · rw [if_pos htag] at hspec
          refine iff_of_true ?_ (.inr (.inl htag))
          rintro _ _ ⟨⟩
          exact .inl (congrArg some hspec.2)
        · -- the newest is selected, and that is no drift
          rw [if_neg htag] at hspec
          refine iff_of_false (fun h => ?_) ?_
          · rcases h _ _ rfl with htag' | ⟨hkind, -⟩ | hkind
            · exact htag ⟨m, firstMax_mem hspec, Option.some.inj htag'⟩
            · rw [computeDrift_newest hspec] at hkind
              cases hkind
            · rw [computeDrift_newest hspec] at hkind
              cases hkind
          · rintro (h | h | ⟨e, h⟩)
            · exact hempty h
            · exact htag h
            · cases h

/-- Segments of one path in two versions. -/
def twoVersions : SegmentTable :=
  ["pandoc1", "pandoc2"].foldl (fun t decoder => (t.put {
    sourceId := "s", deterministicKey := "k", segmentId := "seg", segmentType := "paragraph", structuralPath := "p/1"
    modality := "text", version := { segmenter := "text", decoder := decoder, renderer := "epub3" }, locator := "" }).1) []

/-- A resolver over them that reads no bytes. -/
def twoVersionsResolver : LocatorResolver where
  findByLocator := twoVersions.findByLocator
  source := fun sourceId => if sourceId = "s" then some ⟨"s", "ocfl:1", "sha", 0, "text", none, none, none⟩ else none
  retrieve := fun _ _ => .ok ⟨[], 0, 0, []⟩

/-- A locator of their path with this decoder. -/
def pinned (decoder : String) : Locator where
  sourceId := "s"
  modality := "text"
  segment := "seg"
  version := some { segmenter := "text", decoder := decoder, renderer := "epub3" }

theorem explicit_version_registered :
    VersionKept twoVersionsResolver [] (pinned "pandoc1") { segmenter := "text", decoder := "pandoc1", renderer := "epub3" } :=
  (explicit_version_iff rfl).2 fun source h => by
    cases h
    exact .inr (.inl ⟨_, List.mem_cons_self, by decide⟩)

/-- A version that is not registered is answered with the newest and no drift. -/
theorem explicit_version_substituted : ¬ ∀ (r : LocatorResolver) (quarantine : List QuarantineEntry) (l : Locator)
    (version : PipelineVersion), l.version = some version → VersionKept r quarantine l version := by
  intro h
  have hkept := h twoVersionsResolver [] (pinned "pandoc3") { segmenter := "text", decoder := "pandoc3", renderer := "epub3" } rfl
  rcases hkept [] _ rfl with htag | ⟨hkind, -⟩ | hkind
  · exact absurd htag (by decide)
  · exact absurd hkind (by decide)
  · exact absurd hkind (by decide)

end Umd.Resolution
