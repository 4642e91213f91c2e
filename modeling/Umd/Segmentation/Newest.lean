import Umd.Resolution.LocatorResolver
import Umd.Segmentation.Register
/-!
# The newest version of a path

`resolve_newest_locator` takes the greatest version, by its components, of all that
is registered under a modality and a path; a resolver takes the one of the highest
ordinal of the source's own segment. `names_newest_iff` says when they are one.
-/

namespace Umd.Segmentation

open Umd.Lib Umd.Locators Umd.Resolution

/-- The fields of a version, in the order in which versions are compared. -/
def versionKey (v : PipelineVersion) : String ×ₗ (String ×ₗ (String ×ₗ ℤ)) :=
  toLex (v.segmenter, toLex (v.decoder, toLex (v.renderer, v.version)))

/-- `<` of versions. -/
def versionLt (v w : PipelineVersion) : Bool :=
  v.segmenter < w.segmenter || (v.segmenter = w.segmenter && (v.decoder < w.decoder || (v.decoder = w.decoder &&
    (v.renderer < w.renderer || (v.renderer = w.renderer && v.version < w.version)))))

/-- The segments registered under a modality and a path as they are spelled, of whatever source. -/
def spelled (table : SegmentTable) (modality path : String) : List RegisteredSegment :=
  table.filter fun s => s.modality = modality && s.structuralPath = path

/-- `newest_version`. -/
def SegmentTable.newestVersion (table : SegmentTable) (_identity modality path : String) : Option PipelineVersion :=
  firstMax versionLt ((spelled table modality path).map (·.version))

variable (t : Tables)

/-- `resolve_newest_locator`. -/
def resolveNewestLocator (table : SegmentTable) (sourceId modality path sha512 : String) (workId : Option String) :
    Except PyError (Option Locator) := do
  let identity ← canonicalIdentity sha512 workId
  match table.newestVersion identity modality path with
  | none => .ok none
  | some version => (buildLocator t sourceId modality path identity (some version) none).map some

variable {t}

theorem versionLt_iff (v w : PipelineVersion) : versionLt v w = true ↔ versionKey v < versionKey w := by
  simp only [versionLt, versionKey, Prod.Lex.toLex_lt_toLex, Bool.or_eq_true, Bool.and_eq_true, decide_eq_true_eq]

theorem versionKey_inj {v w : PipelineVersion} (h : versionKey v = versionKey w) : v = w := by
  obtain ⟨a, b, c, d⟩ := v
  obtain ⟨a', b', c', d'⟩ := w
  simpa [versionKey] using h

/-- The ordinal of a segment's version, and its tag. -/
def ordinalKey (m : RegisteredSegment) : ℤ ×ₗ String := toLex (m.version.version, m.version.tag)

theorem olderThan_iff (m m' : RegisteredSegment) : olderThan m m' = true ↔ ordinalKey m < ordinalKey m' := by
  simp only [olderThan, ordinalKey, Prod.Lex.toLex_lt_toLex, Bool.or_eq_true, Bool.and_eq_true, decide_eq_true_eq]

/-- A bare locator is answered by the newest, whatever the policy. -/
theorem select_bare {found : List RegisteredSegment} {l : Locator} (h : l.version = none) (policy : VersionPolicy) :
    select found l policy = newestOf found := by
  unfold select
  rw [h]
  cases policy <;> rfl

theorem newestVersion_iff {table : SegmentTable} {identity modality path : String} {v : PipelineVersion} :
    table.newestVersion identity modality path = some v ↔
      (∃ s ∈ spelled table modality path, s.version = v) ∧ ∀ s ∈ spelled table modality path, versionKey s.version ≤ versionKey v := by
  unfold SegmentTable.newestVersion
  constructor
  · intro h
    refine ⟨List.mem_map.1 (firstMax_mem h), fun s hs => firstMax_le versionLt_iff h _ (List.mem_map_of_mem hs)⟩
  · rintro ⟨⟨s, hs, hv⟩, hle⟩
    have hmem : v ∈ (spelled table modality path).map (·.version) := hv ▸ List.mem_map_of_mem hs
    obtain ⟨w, hw⟩ := @firstMax_isSome _ versionLt _ (List.ne_nil_of_mem hmem)
    have hvw := firstMax_le versionLt_iff hw v hmem
    obtain ⟨s', hs', rfl⟩ := List.mem_map.1 (firstMax_mem hw)
    rw [hw, versionKey_inj (le_antisymm (hle s' hs') hvw)]

theorem newestVersion_eq_none {table : SegmentTable} {identity modality path : String} :
    table.newestVersion identity modality path = none ↔ spelled table modality path = [] := by
  unfold SegmentTable.newestVersion
  rw [firstMax_eq_argmax versionLt_iff, List.argmax_eq_none, List.map_eq_nil_iff]

theorem newestOf_iff {found : List RegisteredSegment} {m : RegisteredSegment} : newestOf found = some m ↔ m ∈ found ∧
    (∀ m' ∈ found, ordinalKey m' ≤ ordinalKey m) ∧ ∀ m' ∈ found, ordinalKey m ≤ ordinalKey m' → found.idxOf m ≤ found.idxOf m' := by
  rw [newestOf, firstMax_eq_argmax olderThan_iff, List.argmax_eq_some_iff]

theorem newestOf_eq_none {found : List RegisteredSegment} : newestOf found = none ↔ found = [] := by
  rw [newestOf, firstMax_eq_argmax olderThan_iff, List.argmax_eq_none]

/-- What a registry names for a path whose bare locator can be built. -/
theorem resolveNewest_eq {table : SegmentTable} {sourceId modality path sha512 identity : String} {workId : Option String} {l : Locator}
    (hid : canonicalIdentity sha512 workId = .ok identity) (hl : buildLocator t sourceId modality path identity none none = .ok l) :
    resolveNewestLocator t table sourceId modality path sha512 workId =
      .ok ((table.newestVersion identity modality path).map fun v => { l with version := some v }) := by
  unfold resolveNewestLocator
  rw [hid]
  dsimp only [bind, Except.bind]
  cases hv : table.newestVersion identity modality path with
  | none => rfl
  | some v =>
    unfold buildLocator at hl ⊢
    cases hseg : deterministicSegmentId t identity modality path with
    | error e => rw [hseg] at hl; cases hl
    | ok segment =>
      rw [hseg] at hl
      have hfrag : l.frag = none := by rw [(Locator.make_ok hl).1]
      have hmake : Locator.make t sourceId modality segment (some v) none = .ok { l with version := some v } := by
        rw [Locator.make_congr hl rfl, ← hfrag]
      dsimp only [bind, Except.bind]
      rw [hmake]
      rfl

/-- The version named for a source and path is the one that is selected for the bare locator `l`, and none of
the source's own segments for it has a higher ordinal. -/
def NamesNewest (table : SegmentTable) (l : Locator) (policy : VersionPolicy) (named : Except PyError (Option Locator)) : Prop :=
  let own := table.findByLocator l.sourceId l.modality l.segment
  ∃ found, named = .ok found ∧ (found.bind (·.version)) = (select own l policy).map (·.version) ∧
    ∀ m, select own l policy = some m → ∀ m' ∈ own, m'.version.version ≤ m.version.version

/-- The first of the source's own segments with the highest ordinal, where no segment that is spelled alike has components
above its own, and one has its version. -/
structure Unrivalled (own alike : List RegisteredSegment) (m : RegisteredSegment) : Prop where
  own : m ∈ own ∧ (∀ m' ∈ own, ordinalKey m' ≤ ordinalKey m) ∧ ∀ m' ∈ own, ordinalKey m ≤ ordinalKey m' → own.idxOf m ≤ own.idxOf m'
  alike : (∃ s ∈ alike, s.version = m.version) ∧ ∀ s ∈ alike, versionKey s.version ≤ versionKey m.version

/-- Registry and resolver name one version if and only if there is none at all, or one of the source's own segments is unrivalled. -/
theorem names_newest_iff {table : SegmentTable} {sourceId modality path sha512 identity : String} {workId : Option String} {l : Locator}
    (hid : canonicalIdentity sha512 workId = .ok identity) (hl : buildLocator t sourceId modality path identity none none = .ok l)
    (policy : VersionPolicy) :
    let own := table.findByLocator l.sourceId l.modality l.segment
    let alike := spelled table modality path
    NamesNewest table l policy (resolveNewestLocator t table sourceId modality path sha512 workId) ↔
      (own = [] ∧ alike = []) ∨ ∃ m, Unrivalled own alike m := by
  intro own alike
  have hbare : l.version = none := by
    unfold buildLocator at hl
    cases hseg : deterministicSegmentId t identity modality path with
    | error e => rw [hseg] at hl; cases hl
    | ok segment =>
      rw [hseg] at hl
      rw [(Locator.make_ok hl).1]
  have hordinal : ∀ m, newestOf own = some m → ∀ m' ∈ own, m'.version.version ≤ m.version.version := by
    intro m hm m' hm'
    have hle := (newestOf_iff.1 hm).2.1 m' hm'
    rw [ordinalKey, ordinalKey, Prod.Lex.toLex_le_toLex] at hle
    rcases hle with hlt | ⟨heq, -⟩
    · exact hlt.le
    · exact heq.le
  have hagree : NamesNewest table l policy (resolveNewestLocator t table sourceId modality path sha512 workId) ↔
      table.newestVersion identity modality path = (newestOf own).map (·.version) := by
    unfold NamesNewest
    rw [resolveNewest_eq hid hl]
    dsimp only
    rw [select_bare hbare]
    constructor
    · rintro ⟨found, hfound, hversion, -⟩
      cases hfound
      rw [← hversion]
      cases table.newestVersion identity modality path <;> rfl
    · intro h
      refine ⟨_, rfl, ?_, hordinal⟩
      rw [← h]
      cases table.newestVersion identity modality path <;> rfl
  rw [hagree]
  constructor
  · intro h
    cases hm : newestOf own with
    | none =>
      rw [hm] at h
      exact .inl ⟨newestOf_eq_none.1 hm, newestVersion_eq_none.1 h⟩
    | some m =>
      rw [hm] at h
      exact .inr ⟨m, newestOf_iff.1 hm, newestVersion_iff.1 h⟩
  · rintro (⟨hown, halike⟩ | ⟨m, hown, halike⟩)
    · rw [newestVersion_eq_none.2 halike, newestOf_eq_none.2 hown]
      rfl
    · rw [newestVersion_iff.2 halike, newestOf_iff.2 hown]
      rfl

/-- The bare locator of the page of `pageInput`. -/
def pageLocator : Locator where
  sourceId := "src1"
  modality := "text"
  segment := "6YGO3KAL7AKON3HGKDKFWZQ3WLTAE4WZ35SRK5ONT3S"

/-- What is registered by one call for the page. -/
def onePage : SegmentTable := (Session.run asciiTables [[pageInput "text"]]).table

theorem pageLocator_made : Locator.make asciiTables "src1" "text" pageSegment none none = .ok pageLocator := by decide +kernel

theorem pageLocator_built (identity : String) : buildLocator asciiTables "src1" "text" "page/1" identity none none = .ok pageLocator := by
  have hl : buildLocator asciiTables "src1" "text" "page/1" "" none none = .ok pageLocator := by decide +kernel
  exact hl

theorem names_newest_page : NamesNewest onePage pageLocator .bare
    (resolveNewestLocator asciiTables onePage "src1" "text" "page/1" (pageInput "text").sourceSha512 none) := by
  obtain ⟨m, hm, hsource, hmodality, hsegment, hpath⟩ : ∃ m, onePage = [m] ∧ m.sourceId = "src1" ∧ m.modality = "text" ∧
      m.segmentId = pageLocator.segment ∧ m.structuralPath = "page/1" := by
    have hbuild := @build_text (pageInput "text") _ rfl rfl rfl rfl rfl pageLocator_made
    exact ⟨_, congrArg Session.table (run_one hbuild), rfl, rfl, rfl, rfl⟩
  have hown : onePage.findByLocator pageLocator.sourceId pageLocator.modality pageLocator.segment = [m] := by
    rw [hm, SegmentTable.findByLocator, List.filter_cons_of_pos, List.filter_nil]
    simp [hsource, hmodality, hsegment, pageLocator]
  have halike : spelled onePage "text" "page/1" = [m] := by
    rw [hm, spelled, List.filter_cons_of_pos, List.filter_nil]
    simp [hmodality, hpath]
  have hid := canonicalIdentity_page "text"
  have hl : buildLocator asciiTables "src1" "text" "page/1" ("source:" ++ (pageInput "text").sourceSha512) none none = .ok pageLocator :=
    pageLocator_built _
  refine (names_newest_iff hid hl .bare).2 (.inr ⟨m, ?_, ?_⟩)
  · rw [hown]
    simp
  · rw [halike]
    simp

/-- The page under a second and a tenth decoder, of the ordinals 1 and 2. -/
def secondInput : SegmentInput :=
  { pageInput "text" with
    version := { segmenter := "text", decoder := "pandoc2", renderer := "epub3", version := 1 }
    made := by simp [PipelineVersion.Made, componentMarks] }

def tenthInput : SegmentInput :=
  { pageInput "text" with
    version := { segmenter := "text", decoder := "pandoc10", renderer := "epub3", version := 2 }
    made := by simp [PipelineVersion.Made, componentMarks] }

def twoDecoders : SegmentTable := (Session.run asciiTables [[secondInput, tenthInput]]).table

/-- The registry names the second decoder, and the tenth is selected. -/
theorem second_named_for_tenth : ¬ ∀ policy, NamesNewest twoDecoders pageLocator policy
    (resolveNewestLocator asciiTables twoDecoders "src1" "text" "page/1" (pageInput "text").sourceSha512 none) := by
  intro hall
  obtain ⟨found, hfound, hversion, -⟩ := hall .bare
  obtain ⟨m, m', htable, hsecond, htenth⟩ : ∃ m m', twoDecoders = [m, m'] ∧
      (m.sourceId = "src1" ∧ m.modality = "text" ∧ m.segmentId = pageSegment ∧ m.structuralPath = "page/1" ∧ m.version = secondInput.version) ∧
      m'.sourceId = "src1" ∧ m'.modality = "text" ∧ m'.segmentId = pageSegment ∧ m'.structuralPath = "page/1" ∧
        m'.version = tenthInput.version := by
    have hbuild := @build_text secondInput _ rfl rfl rfl rfl rfl pageLocator_made
    have hbuild' := @build_text tenthInput _ rfl rfl rfl rfl rfl pageLocator_made
    exact ⟨_, _, run_pair hbuild hbuild' (by decide +kernel), ⟨rfl, rfl, rfl, rfl, rfl⟩, rfl, rfl, rfl, rfl, rfl⟩
  have halike : spelled twoDecoders "text" "page/1" = [m, m'] := by
    simp [htable, spelled, hsecond, htenth]
  have hown : twoDecoders.findByLocator pageLocator.sourceId pageLocator.modality pageLocator.segment = [m, m'] := by
    simp [htable, SegmentTable.findByLocator, hsecond, htenth, pageLocator, pageSegment]
  have hnewest : twoDecoders.newestVersion ("source:" ++ (pageInput "text").sourceSha512) "text" "page/1" = some secondInput.version := by
    unfold SegmentTable.newestVersion
    rw [halike, List.map_cons, List.map_singleton, hsecond.2.2.2.2, htenth.2.2.2.2]
    decide +kernel
  have hnamed : resolveNewestLocator asciiTables twoDecoders "src1" "text" "page/1" (pageInput "text").sourceSha512 none =
      .ok (some { pageLocator with version := some secondInput.version }) := by
    rw [resolveNewest_eq (canonicalIdentity_page "text") (pageLocator_built _), hnewest]
    rfl
  have hselected : (select (twoDecoders.findByLocator pageLocator.sourceId pageLocator.modality pageLocator.segment) pageLocator .bare).map
      (·.version) = some tenthInput.version := by
    have holder : olderThan m m' = true := by
      unfold olderThan
      rw [hsecond.2.2.2.2, htenth.2.2.2.2]
      rfl
    rw [hown, select_bare rfl]
    change Option.map _ (some (if olderThan m m' then m' else m)) = _
    rw [if_pos holder, Option.map_some, htenth.2.2.2.2]
  rw [hnamed] at hfound
  cases hfound
  rw [hselected] at hversion
  revert hversion
  decide +kernel

end Umd.Segmentation
