import Umd.Analysis.Semantic
import Umd.Analysis.TextStructural
import Umd.Lib.Orders
/-!
# Observations of a provider

What a provider answers is parsed into observations, those with the locator of an input
segment are merged and written into one evidence row, and a later stage reads the row
back. The row holds them in one list without a kind, and they come back each in its
bucket (`recorded_hydrates`).
-/

namespace Umd.Semantic

open Umd.Lib Umd.Sandbox Umd.Repositories Umd.TextStructural

variable (t : NumberTexts)

/-! ## Parsing -/

/-- The key of a kind in what a provider answers. -/
def Category.outputKey : Category → String
  | .sceneBoundaries => "scenes"
  | .entityMentions => "entities"
  | .aliases => "aliases"
  | .presence => "presence"
  | .utterances => "utterances"
  | .speakerCandidates => "speakers"
  | .traits => "traits"
  | .relationships => "relationships"
  | .emotions => "emotions"
  | .states => "states"
  | .context => "context"

/-- Why an entry is rejected. -/
inductive Rejection where
  | notObject | noSegment | invalidSegment | invalid

/-- What the parser warns of, each for one rejection but the first. -/
inductive ParseWarning where
  | unknownKeys (keys : List String)
  | notList (c : Category)
  | entry (c : Category) (i : ℕ) (why : Rejection)

/-- The segment of an entry: what it has must have a locator. -/
def entrySegment (default : Option SegmentEvidenceRef) (item : Dict) : Except Rejection SegmentEvidenceRef :=
  match item.get "segment" with
  | .obj raw =>
    if (Dict.get raw "locator").truthy then
      match SegmentEvidenceRef.validate t raw with
      | some segment => .ok segment
      | none => .error .invalidSegment
    else orDefault
  | _ => orDefault
where
  orDefault : Except Rejection SegmentEvidenceRef :=
    match default with
    | some segment => .ok segment
    | none => .error .noSegment

/-- The body of the loop of `_parse_candidates`. -/
def parseEntry (generatedBy : GeneratedBy) (default : Option SegmentEvidenceRef) (c : Category) : Json → Except Rejection Observation
  | .obj item => do
    let segment ← entrySegment t default item
    match c.validateWith t item segment generatedBy with
    | some o => .ok o
    | none => .error .invalid
  | _ => .error .notObject

/-- `_parse_candidates`: what is valid, and a warning for each rejection. -/
def parseCandidates (generatedBy : GeneratedBy) (default : Option SegmentEvidenceRef) (c : Category) :
    Json → List Observation × List ParseWarning
  | .null => ([], [])
  | .arr items =>
    (items.filterMap fun item => (parseEntry t generatedBy default c item).toOption,
      items.zipIdx.filterMap fun p => match parseEntry t generatedBy default c p.1 with
        | .ok _ => none
        | .error why => some (.entry c p.2 why))
  | _ => ([], [.notList c])

/-- The buckets of a result. -/
abbrev Buckets := Category → List Observation

/-- `SemanticProviderParse`. -/
structure SemanticProviderParse where
  buckets : Buckets
  rejected : ℕ
  warnings : List ParseWarning

/-- `parse_semantic_output`. -/
def parseSemanticOutput (generatedBy : GeneratedBy) (default : Option SegmentEvidenceRef) : Json → Except PyError SemanticProviderParse
  | .obj output =>
    let unknown := ((Dict.keys output).filter fun k => !(Category.all.map Category.outputKey).contains k).insertionSort (· ≤ ·)
    let parsed c := parseCandidates t generatedBy default c (Dict.get output c.outputKey)
    let extra := Category.all.flatMap fun c => (parsed c).2
    .ok {
      buckets := fun c => (parsed c).1
      rejected := unknown.length + extra.length
      warnings := (if unknown = [] then [] else [.unknownKeys unknown]) ++ extra }
  | _ => .error .valueError

/-! ## Merging -/

/-- The fields of `StructuredModelResult` that the analyzer reads. -/
structure StructuredModelResult where
  provider : String
  model : String
  modelVersion : Option String := none
  promptVersion : Option String := none
  output : Json := .null
  confidence : Option Confidence := none

/-- A warning of the analyzer. -/
inductive AnalysisWarning where
  | text (s : String)
  | parse (w : ParseWarning)
  | malformed (provider : String)

/-- `SemanticAnalysisResult`. -/
structure SemanticAnalysisResult where
  buckets : Buckets := fun _ => []
  evidence : List Evidence := []
  warnings : List AnalysisWarning := []

/-- What an analyzer is made with, and the digest of the observations it writes. -/
structure Analyzer where
  stage : String := "STRUCTURAL_ANALYSIS"
  providerDigest : String
  payloadHash : List Dict → String

def semanticAnalyzer : Text := ⟨"umd-semantic-analysis@1", by decide⟩

def semanticPromptVersion : String := "semantic-analysis@2"

/-- `a or b` of a text that may be `None`. -/
def textOr (a : Option String) (b : String) : String := (a.filter (· ≠ "")).getD b

/-- The provenance of the call. -/
def Analyzer.generatedBy (a : Analyzer) (m : StructuredModelResult) : GeneratedBy where
  path := .provider
  analyzer := semanticAnalyzer
  provider := some m.provider
  model := some m.model
  modelVersion := m.modelVersion
  promptVersion := some (textOr m.promptVersion semanticPromptVersion)
  configDigest := some a.providerDigest

/-- `_exact_support`, of one candidate. -/
def supported (locators : List String) (o : Observation) : Bool := locators.contains o.candidate.segment.locator.value

/-- `1.0` -/
def one : Confidence := ⟨.ofNumber (.dec 1 0), rfl⟩

/-- `_observations_evidence`. -/
def Analyzer.observationsEvidence (a : Analyzer) (sourceId : String) (m : StructuredModelResult) (observations : List Observation)
    (rejectedParse : ℕ) : Except PyError Evidence :=
  match pyUuid sourceId with
  | none => .error .valueError
  | some u => .ok {
      sourceId := u.dashed
      evidenceKind := .textSpan
      locator := some ("semantic_analysis:" ++ sourceId ++ ":" ++ a.payloadHash (observations.map Observation.dump))
      extractionStage := some a.stage
      toolVersions := [("provider", .str m.provider), ("model", .str m.model)] ++
        ((m.modelVersion.filter (· ≠ "")).map fun v => ("model_version", Json.str v)).toList ++
        [("prompt_version", .str (textOr m.promptVersion semanticPromptVersion))]
      configDigest := some a.providerDigest
      confidence := some (m.confidence.getD one)
      quality := [("kind", .str "semantic_observations"), ("observations", .arr (observations.map fun o => .obj o.dump)),
        ("rejected", ofInt rejectedParse), ("prompt_version", .str semanticPromptVersion), ("can_auto_promote", .bool false),
        ("promotion_ban", .obj [("can_auto_promote", .bool false)])] }

/-- The evidence row of what is kept, if anything is. -/
def Analyzer.recorded (a : Analyzer) (sourceId : String) (m : StructuredModelResult) (kept : List Observation) (rejectedParse : ℕ) :
    Except PyError (List Evidence) :=
  if kept = [] then .ok [] else (a.observationsEvidence sourceId m kept rejectedParse).map ([·])

/-- `_merge_validated`. -/
def Analyzer.mergeValidated (a : Analyzer) (sourceId : String) (locators : List String) (result : SemanticAnalysisResult)
    (parsed : SemanticProviderParse) (m : StructuredModelResult) : Except PyError SemanticAnalysisResult := do
  let accepted c := (parsed.buckets c).filter (supported locators)
  let rejectedSupport := (Category.all.map fun c => (parsed.buckets c).length - (accepted c).length).sum
  let kept := Category.all.flatMap accepted
  let evidence ← a.recorded sourceId m kept parsed.rejected
  return {
    buckets := fun c => result.buckets c ++ accepted c
    evidence := result.evidence ++ evidence
    warnings := result.warnings ++
      (if rejectedSupport = 0 then [] else [.text ("semantic provider: " ++ toString rejectedSupport ++
        " candidate(s) rejected for missing exact segment support (not promoted)")]) ++
      [.text ("semantic provider " ++ m.provider ++ ": merged " ++ toString kept.length ++ " validated observation(s) (rejected: " ++
        toString (parsed.rejected + rejectedSupport) ++ ")")] }

/-- `_provider_path`, from the provider's answer on; the row of the call is given. -/
def Analyzer.providerPath (a : Analyzer) (sourceId : String) (segments : List ParagraphSegment) (result : SemanticAnalysisResult)
    (call : Evidence) (m : StructuredModelResult) : Except PyError SemanticAnalysisResult :=
  match parseSemanticOutput t (a.generatedBy m) none m.output with
  | .error _ => .ok { result with evidence := result.evidence ++ [call], warnings := result.warnings ++ [.malformed m.provider] }
  | .ok parsed => a.mergeValidated sourceId (segments.map (·.locator))
      { result with evidence := result.evidence ++ [call], warnings := result.warnings ++ parsed.warnings.map .parse } parsed m

/-! ## Reading back -/

/-- Why an observation of a row is not taken. -/
inductive HydrateWarning where
  | notList
  | notObject (i : ℕ)
  | unknownCategory (i : ℕ)
  | malformed (c : Category) (i : ℕ)
  | unsupported (c : Category) (i : ℕ) (locator : String)

/-- The body of the inner loop of `_hydrate_provider_observations`. -/
def hydrateOne (locators : List String) (i : ℕ) : Json → Except HydrateWarning Observation
  | .obj payload =>
    match classify payload with
    | none => .error (.unknownCategory i)
    | some c =>
      match c.validate t payload with
      | none => .error (.malformed c i)
      | some o => if supported locators o then .ok o else .error (.unsupported c i o.candidate.segment.locator.value)
  | _ => .error (.notObject i)

/-- What comes of each observation of a row. -/
def hydrateRow (locators : List String) (ev : Evidence) : List (Except HydrateWarning Observation) :=
  if (ev.quality.get "kind").isStr "semantic_observations" then
    match ev.quality.get "observations" with
    | .arr raw => raw.zipIdx.map fun p => hydrateOne t locators p.2 p.1
    | _ => [.error .notList]
  else []

/-- `_hydrate_provider_observations`: the buckets, and the warnings. -/
def hydrateProviderObservations (rows : List Evidence) (locators : List String) : Buckets × List HydrateWarning :=
  let outcomes := rows.flatMap (hydrateRow t locators)
  (fun c => outcomes.filterMap fun x => x.toOption.filter (·.category = c),
    outcomes.filterMap fun x => match x with
      | .ok _ => none
      | .error w => some w)

/-! ## What is recorded comes back -/

variable {t}

theorem validateOwn_ok {c : Category} {base : SemanticCandidate} {d : Dict} {o : Observation} (h : c.validateOwn base d = some o) :
    o.category = c ∧ o.candidate = base := by
  cases c <;> simp only [Category.validateOwn, Option.bind_eq_bind, Option.bind_eq_some_iff, pure, Option.some.injEq] at h <;>
    grind [Observation.category, Observation.candidate]

/-- What is valid of a kind is of that kind, with the provenance of the call. -/
theorem validateWith_ok {c : Category} {d : Dict} {segment : SegmentEvidenceRef} {generatedBy : GeneratedBy} {o : Observation}
    (h : c.validateWith t d segment generatedBy = some o) : o.category = c ∧ o.candidate.generatedBy = generatedBy := by
  obtain ⟨base, hbase, hown⟩ := Option.bind_eq_some_iff.1 h
  obtain ⟨hcategory, rfl⟩ := validateOwn_ok hown
  refine ⟨hcategory, ?_⟩
  obtain ⟨confidence, -, hbase⟩ := Option.bind_eq_some_iff.1 hbase
  obtain ⟨state, -, hbase⟩ := Option.bind_eq_some_iff.1 hbase
  rw [← Option.some.inj hbase]

theorem parseEntry_ok {generatedBy : GeneratedBy} {default : Option SegmentEvidenceRef} {c : Category} {item : Json} {o : Observation}
    (h : parseEntry t generatedBy default c item = .ok o) : o.category = c ∧ o.candidate.generatedBy = generatedBy := by
  cases item with
  | obj d =>
    obtain ⟨segment, -, h⟩ := bind_ok h
    split at h
    · rename_i o' ho
      obtain rfl := Except.ok.inj h
      exact validateWith_ok ho
    · cases h
  | _ => cases h

theorem parsed_ok {generatedBy : GeneratedBy} {default : Option SegmentEvidenceRef} {output : Json} {parsed : SemanticProviderParse}
    (h : parseSemanticOutput t generatedBy default output = .ok parsed) {c : Category} {o : Observation} (ho : o ∈ parsed.buckets c) :
    o.category = c ∧ o.candidate.generatedBy = generatedBy := by
  cases output with
  | obj d =>
    obtain rfl := Except.ok.inj h
    have hcandidates : o ∈ (parseCandidates t generatedBy default c (Dict.get d c.outputKey)).1 := ho
    unfold parseCandidates at hcandidates
    split at hcandidates
    · cases hcandidates
    · obtain ⟨item, -, hitem⟩ := List.mem_filterMap.1 hcandidates
      cases hentry : parseEntry t generatedBy default c item with
      | error why =>
        rw [hentry] at hitem
        cases hitem
      | ok o' =>
        rw [hentry] at hitem
        obtain rfl := Option.some.inj hitem
        exact parseEntry_ok hentry
    · cases hcandidates
  | _ => cases h

/-- An observation that is supported is read back from what it is written as. -/
theorem hydrateOne_dump {locators : List String} {o : Observation} (h : supported locators o = true) (i : ℕ) :
    hydrateOne t locators i (.obj o.dump) = .ok o := by
  unfold hydrateOne
  dsimp only
  rw [classify_dump]
  dsimp only
  rw [validate_dump]
  exact if_pos h

/-- The row of supported observations gives each of them. -/
theorem hydrateRow_recorded {a : Analyzer} {sourceId : String} {m : StructuredModelResult} {kept : List Observation} {rejected : ℕ}
    {ev : Evidence} {locators : List String} (hev : a.observationsEvidence sourceId m kept rejected = .ok ev)
    (hkept : ∀ o ∈ kept, supported locators o = true) : hydrateRow t locators ev = kept.map .ok := by
  unfold Analyzer.observationsEvidence at hev
  split at hev
  · cases hev
  · obtain rfl := Except.ok.inj hev
    change (kept.map fun o => Json.obj o.dump).zipIdx.map (fun p => hydrateOne t locators p.2 p.1) = kept.map .ok
    rw [List.zipIdx_map, List.map_map]
    have heach : ∀ p ∈ kept.zipIdx, ((fun p : Json × ℕ => hydrateOne t locators p.2 p.1) ∘ Prod.map (fun o => Json.obj o.dump) id) p =
        .ok p.1 := fun p hp => hydrateOne_dump (hkept p.1 (List.fst_mem_of_mem_zipIdx hp)) p.2
    rw [List.map_congr_left heach]
    conv_rhs => rw [← List.zipIdx_map_fst 0 kept, List.map_map]
    rfl

/-- The buckets of accepted observations, one after the other, are told apart by their kinds. -/
theorem buckets_flatten {accepted : Buckets} (h : ∀ c, ∀ o ∈ accepted c, o.category = c) (c : Category) :
    (Category.all.flatMap accepted).filter (fun o => decide (o.category = c)) = accepted c := by
  have hbucket : ∀ c', (accepted c').filter (fun o => decide (o.category = c)) = if c' = c then accepted c' else [] := by
    intro c'
    split
    · rename_i hc
      exact List.filter_eq_self.2 fun o ho => decide_eq_true ((h c' o ho).trans hc)
    · rename_i hc
      exact List.filter_eq_nil_iff.2 fun o ho heq => hc ((h c' o ho).symm.trans (of_decide_eq_true heq))
  rw [List.filter_flatMap]
  simp only [hbucket]
  cases c <;> simp [Category.all]

/-- The row that is recorded of accepted observations gives them back, each in its bucket and in order. -/
theorem hydrate_recorded {a : Analyzer} {sourceId : String} {m : StructuredModelResult} {accepted : Buckets} {rejected : ℕ}
    {rows : List Evidence} {locators : List String} (hrows : a.recorded sourceId m (Category.all.flatMap accepted) rejected = .ok rows)
    (hcategory : ∀ c, ∀ o ∈ accepted c, o.category = c) (hsupport : ∀ c, ∀ o ∈ accepted c, supported locators o = true) :
    hydrateProviderObservations t rows locators = (accepted, []) := by
  have houtcomes : rows.flatMap (hydrateRow t locators) = (Category.all.flatMap accepted).map .ok := by
    unfold Analyzer.recorded at hrows
    split at hrows
    · rename_i hnil
      obtain rfl := Except.ok.inj hrows
      rw [hnil]
      rfl
    · obtain ⟨ev, hev, rfl⟩ := map_eq_ok.1 hrows
      rw [List.flatMap_singleton, hydrateRow_recorded hev]
      intro o ho
      obtain ⟨c, -, hc⟩ := List.mem_flatMap.1 ho
      exact hsupport c o hc
  unfold hydrateProviderObservations
  rw [houtcomes]
  refine Prod.ext (funext fun c => ?_) ?_
  · dsimp only
    rw [List.filterMap_map]
    refine Eq.trans ?_ (buckets_flatten hcategory c)
    rw [← List.filterMap_eq_filter]
    congr 1
  · dsimp only
    rw [List.filterMap_map, List.filterMap_eq_nil_iff]
    intro o _
    rfl

/-- What the analyzer records of a provider's answer comes back as the observations it merged: each in its bucket, in order, and
without a warning. Each has the locator of an input segment, a confidence between 0 and 1, and the provenance of the call. -/
theorem recorded_hydrates (a : Analyzer) (sourceId : String) (segments : List ParagraphSegment) (base result : SemanticAnalysisResult)
    (call : Evidence) (m : StructuredModelResult) (h : a.providerPath t sourceId segments base call m = .ok result) :
    ∃ (accepted : Buckets) (recorded : List Evidence),
      (∀ c, result.buckets c = base.buckets c ++ accepted c) ∧ result.evidence = base.evidence ++ [call] ++ recorded ∧
      hydrateProviderObservations t recorded (segments.map (·.locator)) = (accepted, []) ∧
      ∀ c, ∀ o ∈ accepted c, o.category = c ∧ o.candidate.segment.locator.value ∈ segments.map (·.locator) ∧
        inUnit o.candidate.confidence.value.number = true ∧ o.candidate.generatedBy = a.generatedBy m := by
  unfold Analyzer.providerPath at h
  split at h
  · obtain rfl := Except.ok.inj h
    exact ⟨fun _ => [], [], fun c => (List.append_nil _).symm, (List.append_nil _).symm, rfl, fun c o ho => absurd ho List.not_mem_nil⟩
  · rename_i parsed hparsed
    obtain ⟨rows, hrows, h⟩ := bind_ok h
    obtain rfl := Except.ok.inj h
    have haccepted : ∀ c, ∀ o ∈ (parsed.buckets c).filter (supported (segments.map (·.locator))),
        (o.category = c ∧ o.candidate.generatedBy = a.generatedBy m) ∧ supported (segments.map (·.locator)) o = true := by
      intro c o ho
      rw [List.mem_filter] at ho
      exact ⟨parsed_ok hparsed ho.1, ho.2⟩
    refine ⟨_, rows, fun c => rfl, rfl, hydrate_recorded hrows (fun c o ho => (haccepted c o ho).1.1) fun c o ho => (haccepted c o ho).2,
      fun c o ho => ?_⟩
    obtain ⟨⟨hcategory, hgenerated⟩, hsupport⟩ := haccepted c o ho
    exact ⟨hcategory, List.contains_iff_mem.1 hsupport, o.candidate.confidence.unit, hgenerated⟩

def plainTexts : NumberTexts where
  float _ := none
  int _ := none

def textAnalyzer : Analyzer where
  providerDigest := "semantic@1"
  payloadHash _ := "0f1e2d3c4b5a6978"

/-- An answer with a mention, which has a key of no field, and an alias of another segment. -/
def twoObservations : StructuredModelResult where
  provider := "ollama"
  model := "small"
  output := .obj [
    ("entities", .arr [.obj [("mention", .str "Anna"), ("confidence", .num (.dec 9 1)), ("segment", .obj [("locator", .str "p:1")]),
      ("note", .str "of the house")]]),
    ("aliases", .arr [.obj [("canonical_name", .str "Anna"), ("alias", .str "Annie"), ("confidence", .num (.dec 5 1)),
      ("segment", .obj [("locator", .str "p:2")])]])]

def firstParagraph : ParagraphSegment where
  text := "Anna came in."
  locator := "p:1"

/-- The row of the call. -/
def callRow : Evidence := { sourceId := "00000000-0000-0000-0000-000000000000", evidenceKind := .metadata }

theorem recorded_hydrates_mention : ∃ result,
    textAnalyzer.providerPath plainTexts "00000000000000000000000000000000" [firstParagraph] {} callRow twoObservations = .ok result ∧
    ∃ (accepted : Buckets) (recorded : List Evidence),
      (∀ c, result.buckets c = [] ++ accepted c) ∧ result.evidence = [] ++ [callRow] ++ recorded ∧
      hydrateProviderObservations plainTexts recorded ["p:1"] = (accepted, []) ∧
      ∀ c, ∀ o ∈ accepted c, o.category = c ∧ o.candidate.segment.locator.value ∈ ["p:1"] ∧
        inUnit o.candidate.confidence.value.number = true ∧ o.candidate.generatedBy = textAnalyzer.generatedBy twoObservations := by
  cases h : textAnalyzer.providerPath plainTexts "00000000000000000000000000000000" [firstParagraph] {} callRow twoObservations with
  | error e => exact absurd h nofun
  | ok result => exact ⟨result, rfl, recorded_hydrates textAnalyzer _ _ _ result callRow twoObservations h⟩

end Umd.Semantic
