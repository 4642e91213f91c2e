import Umd.Lib.Json
import Umd.Lib.Patterns
import Umd.Domain.Locators
import Umd.Projections.Search
/-!
# Locators as texts

`parse_locator`, the constructors it goes through, and `canonical` read back by it:
a locator whose source id has none of the marks that the parser splits at, and whose
version and selector are read back, is (`parse_canonical`).
-/

namespace Umd.Locators

open Umd.Lib Umd.Lib.Pattern Umd.Projections

/-- What the standard library says of a text: `str.lower`, the value of a `\d` of `re`,
and `sha512_b32url` of its bytes. -/
structure Tables where
  lower : String → String
  decimal : Char → Option Nat
  sha512B32url : String → String

/-- `_ALPHABET`. -/
def urlSafeChar (c : Char) : Bool := c.isAlphanum || c = '_' || c = '-'

def isUrlSafe (s : String) : Bool := s ≠ "" && s.toList.all urlSafeChar

/-- `[a-z0-9_-]+` -/
def modalityPattern (s : String) : Bool := s ≠ "" && s.toList.all fun c => c.isLower || c.isDigit || c = '_' || c = '-'

/-- The characters that end a component of a version. -/
def componentMarks : List Char := ['/', '?', '#', '@']

/-- `PipelineVersion(...)`. -/
def PipelineVersion.make (segmenter decoder renderer : String) (version : ℤ) : Except PyError PipelineVersion :=
  if [segmenter, decoder, renderer].any fun field => field = "" || field.toList.any (· ∈ componentMarks) then .error .valueError
  else .ok { segmenter, decoder, renderer, version }

/-- `[^.\s?@#]+`, where no dot is left. -/
def tagComponent (cs : List Char) : Bool := cs ≠ [] && cs.all fun c => !isSpace c && c ≠ '?' && c ≠ '@' && c ≠ '#'

/-- `from_tag`. -/
def PipelineVersion.fromTag : List Char → Except PyError PipelineVersion
  | 'v' :: tag =>
    match tag.splitOn '.' with
    | [segmenter, decoder, renderer] =>
      if tagComponent segmenter && tagComponent decoder && tagComponent renderer then
        PipelineVersion.make (String.ofList segmenter) (String.ofList decoder) (String.ofList renderer) 0
      else .error .valueError
    | _ => .error .valueError
  | _ => .error .valueError

section Parse

variable (t : Tables)

def isDecimal (c : Char) : Bool := (t.decimal c).isSome

/-- `\d+` -/
def digits : Pattern Char := plus (isDecimal t)

/-- One character, written out. -/
def lit (c : Char) : Pattern Char := one (· = c)

/-- `^…$`, which leaves out one newline at the end. -/
def matched (p : Pattern Char) (s : List Char) : Bool := (p s).any fun rest => rest = [] || rest = ['\n']

/-- `_IIIF_XYWH`. -/
def iiifXywh : List Char → Bool :=
  matched <| andThen (digits t) <| andThen (lit ',') <| andThen (digits t) <| andThen (lit ',') <| andThen (digits t) <|
    andThen (lit ',') (digits t)

/-- `\d+([.,]\d+)?` -/
def percentage : Pattern Char := andThen (digits t) (opt (andThen (one fun c => c = '.' || c = ',') (digits t)))

/-- `_IIIF_PCT`. -/
def iiifPct (s : List Char) : Bool :=
  "pct:".toList.isPrefixOf s && matched (andThen (percentage t) <| andThen (lit ',') <| andThen (percentage t) <|
    andThen (lit ',') <| andThen (percentage t) <| andThen (lit ',') (percentage t)) (s.drop 4)

/-- `_MF_T`. -/
def mediaTime : List Char → Bool :=
  let fraction := opt (andThen (lit '.') (digits t))
  matched (andThen (digits t) (andThen (opt (andThen fraction (lit ','))) (andThen (star (isDecimal t)) fraction)))

/-- `_STRUCTURAL`. -/
def structuralPattern : List Char → Bool :=
  matched (plus fun c => c.isLower || c.isDigit || c = '/' || c = '_' || c = '.' || c = '-')

/-- `strip("/")` -/
def stripSlashes (cs : List Char) : List Char :=
  ((cs.dropWhile (· = '/')).reverse.dropWhile (· = '/')).reverse

/-- The `field_validator`s and `model_validator`s of the selectors. -/
def Selector.check : Selector → Except PyError Selector
  | .iiif region =>
    if region.length ≤ 128 && (iiifXywh t region.toList || iiifPct t region.toList) then .ok (.iiif region) else .error .valueError
  | .cfi text =>
    if text.length ≤ 512 && "epubcfi(".toList.isPrefixOf text.toList && text.toList.getLast? = some ')' then .ok (.cfi text)
    else .error .valueError
  | .mediaFragment time track spatial =>
    if (time.all fun v => v.length ≤ 64 && mediaTime t v.toList) && (track.all fun v => v.length ≤ 128) &&
      (spatial.all fun v => v.length ≤ 128) && [time, track, spatial].any fun v => v.any (· ≠ "")
    then .ok (.mediaFragment time track spatial) else .error .valueError
  | .structural path =>
    let p := stripSlashes path.toList
    if path.length ≤ 512 && p ≠ [] && structuralPattern p then .ok (.structural (String.ofList p)) else .error .valueError
  | .byteOffset start stop => if stop < start then .error .valueError else .ok (.byteOffset start stop)

/-- `int` of digits. -/
def digitsValue (cs : List Char) : Nat := cs.foldl (fun n c => n * 10 + (t.decimal c).getD 0) 0

/-- One parameter of a media fragment. -/
def fragmentPart (frag : Option String × Option String × Option String) (part : List Char) :
    Except PyError (Option String × Option String × Option String) :=
  if "t=".toList.isPrefixOf part then .ok (some (String.ofList (part.drop 2)), frag.2)
  else if "track=".toList.isPrefixOf part then .ok (frag.1, some (String.ofList (part.drop 6)), frag.2.2)
  else if "spatial=".toList.isPrefixOf part then .ok (frag.1, frag.2.1, some (String.ofList (part.drop 8)))
  else .error .valueError

/-- `parse_selector`. -/
def parseSelector (raw : List Char) : Except PyError Selector :=
  if raw = [] then .error .valueError
  else if "epubcfi(".toList.isPrefixOf raw then Selector.check t (.cfi (String.ofList raw))
  else if "bytes=".toList.isPrefixOf raw then
    match splitFirst ['-'] (raw.drop 6) with
    | some (start, stop) =>
      if full (digits t) start && full (digits t) stop then Selector.check t (.byteOffset (digitsValue t start) (digitsValue t stop))
      else .error .valueError
    | none => .error .valueError
  else if raw.contains '&' || "t=".toList.isPrefixOf raw || "track=".toList.isPrefixOf raw || "spatial=".toList.isPrefixOf raw then
    match (raw.splitOn '&').foldlM fragmentPart (none, none, none) with
    | .ok (time, track, spatial) => Selector.check t (.mediaFragment time track spatial)
    | .error e => .error e
  else if iiifXywh t raw || iiifPct t raw then Selector.check t (.iiif (String.ofList raw))
  else if structuralPattern (stripSlashes raw) && stripSlashes raw ≠ [] then Selector.check t (.structural (String.ofList raw))
  else .error .valueError

def Selector.isByteOffset : Selector → Bool
  | .byteOffset .. => true
  | _ => false

/-- `strip().lower()` of a modality. -/
def normModality (modality : String) : String := t.lower (strip modality)

/-- `Locator(...)`. -/
def Locator.make (sourceId modality segment : String) (version : Option PipelineVersion) (frag : Option Selector) :
    Except PyError Locator :=
  if sourceId.length ≤ 256 && modality.length ≤ 32 && modalityPattern (normModality t modality) && segment.length ≤ 512 &&
    isUrlSafe segment && !frag.any Selector.isByteOffset
  then .ok { sourceId, modality := normModality t modality, segment, version, frag }
  else .error .valueError

/-- The selector that is read after `?frag=`, where there is one. -/
def parseFrag : Option (List Char) → Except PyError (Option Selector)
  | some raw => (parseSelector t raw).map some
  | none => .ok none

/-- The text before `?frag=`, and the one after it. -/
def splitFrag (rest : List Char) : List Char × Option (List Char) :=
  match splitFirst "?frag=".toList rest with
  | some (rest, frag) => (rest, some frag)
  | none => (rest, none)

/-- The text before the version tag, and the tag. -/
def splitTag (rest : List Char) : List Char × Option (List Char) :=
  if (splitFirst "@v".toList rest).isSome then
    match splitFirst ['@'] rest with
    | some (rest, tag) => (rest, some tag)
    | none => (rest, none)
  else (rest, none)

/-- `parse_locator`. -/
def parseLocator (locator : String) : Except PyError Locator :=
  match splitFirst "source://".toList locator.toList with
  | some ([], rest) => do
    let (rest, frag) := splitFrag rest
    let (rest, tag) := splitTag rest
    let version ← tag.mapM PipelineVersion.fromTag
    match rest.splitOn '/' with
    | sourceId :: modality :: part :: parts =>
      let segment := ['/'].intercalate (part :: parts)
      if sourceId = [] || modality = [] || segment = [] then .error .valueError
      else
        let selector ← parseFrag t frag
        Locator.make t (String.ofList sourceId) (String.ofList modality) (String.ofList segment) version selector
    | _ => .error .valueError
  | _ => .error .valueError

end Parse

/-! ## A locator read back -/

variable {t : Tables}

/-- A source id with none of the marks that the parser splits at. -/
def PlainSource (sourceId : String) : Prop :=
  sourceId ≠ "" ∧ '/' ∉ sourceId.toList ∧ '@' ∉ sourceId.toList ∧ ¬ "?frag=".toList <:+: sourceId.toList

/-- A version whose tag is read back: no component has a dot or a space. -/
def PlainVersion (v : PipelineVersion) : Prop :=
  ∀ field ∈ [v.segmenter, v.decoder, v.renderer], '.' ∉ field.toList ∧ ∀ c ∈ field.toList, isSpace c = false

/-- A version as its constructor accepts it. -/
def PipelineVersion.Made (v : PipelineVersion) : Prop :=
  ∀ field ∈ [v.segmenter, v.decoder, v.renderer], field ≠ "" ∧ ∀ c ∈ field.toList, c ∉ componentMarks

theorem Locator.make_ok {sourceId modality segment : String} {version : Option PipelineVersion} {frag : Option Selector} {l : Locator}
    (h : Locator.make t sourceId modality segment version frag = .ok l) :
    l = { sourceId, modality := normModality t modality, segment, version, frag } ∧
      modalityPattern (normModality t modality) = true ∧ isUrlSafe segment = true := by
  unfold Locator.make at h
  split at h
  · rename_i hok
    cases h
    simp only [Bool.and_eq_true] at hok
    exact ⟨rfl, hok.1.1.1.2, hok.1.2⟩
  · cases h

theorem tag_toList (v : PipelineVersion) : v.tag.toList =
    'v' :: (v.segmenter.toList ++ '.' :: (v.decoder.toList ++ '.' :: v.renderer.toList)) := by
  unfold PipelineVersion.tag
  simp [String.toList_append]

theorem canonical_toList (l : Locator) (v : PipelineVersion) (h : l.version = some v) : l.canonical.toList =
    "source://".toList ++ ((l.sourceId.toList ++ '/' :: (l.modality.toList ++ '/' :: (l.segment.toList ++ '@' :: v.tag.toList))) ++
      (l.frag.map fun f => "?frag=".toList ++ f.toFrag.toList).getD []) := by
  unfold Locator.canonical
  rw [h]
  cases l.frag <;> simp [String.toList_append]

theorem fromTag_cons (tag : List Char) : PipelineVersion.fromTag ('v' :: tag) =
    match tag.splitOn '.' with
    | [segmenter, decoder, renderer] =>
      if tagComponent segmenter && tagComponent decoder && tagComponent renderer then
        PipelineVersion.make (String.ofList segmenter) (String.ofList decoder) (String.ofList renderer) 0
      else .error .valueError
    | _ => .error .valueError := rfl

/-- The tag of a plain version is read back, but for the ordinal. -/
theorem fromTag_tag {v : PipelineVersion} (hmade : v.Made) (hplain : PlainVersion v) :
    PipelineVersion.fromTag v.tag.toList = .ok { v with version := 0 } := by
  have hsplit : (v.segmenter.toList ++ '.' :: (v.decoder.toList ++ '.' :: v.renderer.toList)).splitOn '.' =
      [v.segmenter.toList, v.decoder.toList, v.renderer.toList] := by
    have hdots : ∀ field ∈ [v.segmenter.toList, v.decoder.toList, v.renderer.toList], '.' ∉ field := by
      intro field hf
      obtain ⟨s, hs, rfl⟩ := List.mem_map.1 (show field ∈ [v.segmenter, v.decoder, v.renderer].map String.toList from hf)
      exact (hplain s hs).1
    have := List.splitOn_intercalate '.' hdots (List.cons_ne_nil _ _)
    simpa [List.intercalate_cons_cons] using this
  have hcomponent : ∀ field ∈ [v.segmenter, v.decoder, v.renderer], tagComponent field.toList = true := by
    intro field hf
    obtain ⟨hne, hmarks⟩ := hmade field hf
    unfold tagComponent
    rw [Bool.and_eq_true, List.all_eq_true]
    refine ⟨by simpa using hne, fun c hc => ?_⟩
    have hc' := hmarks c hc
    simp only [componentMarks, List.mem_cons, List.not_mem_nil, or_false, not_or] at hc'
    simp [(hplain field hf).2 c hc, hc'.2.1, hc'.2.2.2, hc'.2.2.1]
  have hmake : PipelineVersion.make v.segmenter v.decoder v.renderer 0 = .ok { v with version := 0 } := by
    unfold PipelineVersion.make
    rw [if_neg]
    rw [List.any_eq_true]
    rintro ⟨field, hf, hbad⟩
    obtain ⟨hne, hmarks⟩ := hmade field hf
    rw [Bool.or_eq_true, decide_eq_true_iff, List.any_eq_true] at hbad
    rcases hbad with hbad | ⟨c, hc, hbad⟩
    · exact hne hbad
    · exact hmarks c hc (by simpa using hbad)
  rw [tag_toList, fromTag_cons, hsplit]
  simp only [hcomponent _ (List.mem_cons_self ..), hcomponent v.decoder (by simp), hcomponent v.renderer (by simp),
    Bool.and_self, if_true, String.ofList_toList, hmake]

/-- What `modalityPattern` and `isUrlSafe` let through has no mark of the parser. -/
theorem pattern_plain {s : String} (h : modalityPattern s = true ∨ isUrlSafe s = true) :
    s.toList ≠ [] ∧ ∀ c ∈ ['/', '?', '@', '#'], c ∉ s.toList := by
  have hchars : s ≠ "" ∧ s.toList.all urlSafeChar = true := by
    rcases h with h | h
    · simp only [modalityPattern, Bool.and_eq_true, decide_eq_true_eq, List.all_eq_true] at h
      refine ⟨h.1, List.all_eq_true.2 fun c hc => ?_⟩
      have hc' := h.2 c hc
      unfold urlSafeChar Char.isAlphanum Char.isAlpha
      simp only [Bool.or_eq_true, decide_eq_true_eq] at hc' ⊢
      tauto
    · simpa only [isUrlSafe, Bool.and_eq_true, decide_eq_true_eq] using h
  refine ⟨by simpa using hchars.1, fun c hc hmem => ?_⟩
  have hsafe := List.all_eq_true.1 hchars.2 c hmem
  simp only [List.mem_cons, List.not_mem_nil, or_false] at hc
  rcases hc with rfl | rfl | rfl | rfl <;> revert hsafe <;> decide

/-- The marks are found where `canonical` writes them: the fragment, the tag, and the three parts before it. -/
theorem splits_canonical {source modality segment : String} {tag : List Char} (hsource : PlainSource source)
    (hm : ∀ c ∈ ['/', '?', '@', '#'], c ∉ modality.toList) (hs : ∀ c ∈ ['/', '?', '@', '#'], c ∉ segment.toList)
    (htag : '?' ∉ tag) :
    let parts := source.toList ++ '/' :: (modality.toList ++ '/' :: segment.toList)
    (∀ frag : Option (List Char), splitFrag (parts ++ '@' :: 'v' :: tag ++ (frag.map fun f => "?frag=".toList ++ f).getD []) =
      (parts ++ '@' :: 'v' :: tag, frag)) ∧
    splitTag (parts ++ '@' :: 'v' :: tag) = (parts, some ('v' :: tag)) ∧
    parts.splitOn '/' = [source.toList, modality.toList, segment.toList] := by
  intro parts
  obtain ⟨-, hslash, hat, hfrag⟩ := hsource
  have hparts : ¬ "?frag=".toList <:+: parts ++ '@' :: 'v' :: tag := by
    have hright : '?' ∉ modality.toList ++ '/' :: (segment.toList ++ '@' :: 'v' :: tag) := by
      simp [hm, hs, htag]
    intro hi
    have hi' : "?frag=".toList <:+: source.toList ++ '/' :: (modality.toList ++ '/' :: (segment.toList ++ '@' :: 'v' :: tag)) := by
      simpa [parts] using hi
    rcases infix_append_cons (by decide) hi' with hi' | hi'
    · exact hfrag hi'
    · exact hright (hi'.subset (by decide))
  have hnoat : '@' ∉ parts := by simp [parts, hat, hm, hs]
  refine ⟨fun frag => ?_, ?_, ?_⟩
  · unfold splitFrag
    cases frag with
    | none => rw [Option.map_none, Option.getD_none, List.append_nil, splitFirst_none hparts]
    | some f =>
      have hsplit : splitFirst "?frag=".toList (parts ++ '@' :: 'v' :: tag ++ "?frag=".toList ++ f) =
          some (parts ++ '@' :: 'v' :: tag, f) := splitFirst_append (by decide) hparts
      rw [Option.map_some, Option.getD_some, ← List.append_assoc, hsplit]
  · have htagged : splitFirst "@v".toList (parts ++ '@' :: 'v' :: tag) = some (parts, tag) := by
      have := @splitFirst_append _ _ '@' ['v'] _ tag (by decide) fun hi => hnoat (hi.subset (List.mem_cons_self ..))
      simpa using this
    have hsplit : splitFirst ['@'] (parts ++ '@' :: 'v' :: tag) = some (parts, 'v' :: tag) := by
      have := @splitFirst_append _ _ '@' [] _ ('v' :: tag) List.not_mem_nil fun hi => hnoat (hi.subset (List.mem_cons_self ..))
      simpa using this
    unfold splitTag
    rw [htagged, hsplit]
    rfl
  · have hall : ∀ part ∈ [source.toList, modality.toList, segment.toList], '/' ∉ part := by
      simp [hslash, hm, hs]
    have := List.splitOn_intercalate '/' hall (List.cons_ne_nil _ _)
    simpa [parts, List.intercalate_cons_cons] using this

/-- A text that is put together as `canonical` does is read part by part. -/
theorem parse_parts {locator source modality segment : String} {tag : List Char} {frag : Option (List Char)}
    {version : PipelineVersion} {selector : Option Selector} (hsource : PlainSource source)
    (hm : modality.toList ≠ [] ∧ ∀ c ∈ ['/', '?', '@', '#'], c ∉ modality.toList)
    (hs : segment.toList ≠ [] ∧ ∀ c ∈ ['/', '?', '@', '#'], c ∉ segment.toList) (htag : '?' ∉ tag)
    (hlocator : locator.toList = "source://".toList ++ (source.toList ++ '/' :: (modality.toList ++ '/' :: segment.toList) ++
      '@' :: 'v' :: tag ++ (frag.map fun f => "?frag=".toList ++ f).getD []))
    (hversion : PipelineVersion.fromTag ('v' :: tag) = .ok version) (hselector : parseFrag t frag = .ok selector) :
    parseLocator t locator = Locator.make t source modality segment (some version) selector := by
  obtain ⟨hfragment, htagged, hparts⟩ := splits_canonical hsource hm.2 hs.2 htag
  have hscheme : ∀ rest, splitFirst "source://".toList ("source://".toList ++ rest) = some ([], rest) :=
    fun rest => @splitFirst_append _ _ 's' "ource://".toList [] rest (by decide) (by decide)
  have hne : source.toList ≠ [] := by simpa using hsource.1
  unfold parseLocator
  rw [hlocator, hscheme]
  dsimp only
  rw [hfragment, htagged]
  dsimp only
  rw [Option.mapM_some, hversion, hparts]
  change (if _ then _ else _) = _
  rw [List.intercalate_singleton, hselector, if_neg (by simp [hne, hm.1, hs.1]), String.ofList_toList, String.ofList_toList,
    String.ofList_toList]
  rfl

/-- What a version and a selector may be changed to. -/
theorem Locator.make_congr {sourceId modality segment : String} {version version' : Option PipelineVersion}
    {frag frag' : Option Selector} {l : Locator} (h : Locator.make t sourceId modality segment version frag = .ok l)
    (hbytes : frag'.any Selector.isByteOffset = false) :
    Locator.make t sourceId modality segment version' frag' = .ok { l with version := version', frag := frag' } := by
  unfold Locator.make at h ⊢
  split at h
  · rename_i hok
    cases h
    rw [if_pos]
    simp only [Bool.and_eq_true] at hok ⊢
    exact ⟨hok.1, by rw [hbytes]; rfl⟩
  · cases h

/-- A locator with a plain source id and version is read back, if its selector is. -/
theorem parse_canonical {l : Locator} {v : PipelineVersion} {modality : String} {frag : Option Selector}
    (hmake : Locator.make t l.sourceId modality l.segment (some v) l.frag = .ok l) (hmodality : normModality t modality = modality)
    (hsource : PlainSource l.sourceId) (hmade : v.Made) (hplain : PlainVersion v)
    (hfrag : parseFrag t (l.frag.map fun f => f.toFrag.toList) = .ok frag) (hbytes : frag.any Selector.isByteOffset = false) :
    parseLocator t l.canonical = .ok { l with version := some { v with version := 0 }, frag := frag } := by
  obtain ⟨hl, hpattern, hsafe⟩ := Locator.make_ok hmake
  have hlmod : l.modality = modality := by rw [hl]; exact hmodality
  have hversion : l.version = some v := by rw [hl]
  rw [hmodality] at hpattern
  have htag : '?' ∉ v.segmenter.toList ++ '.' :: (v.decoder.toList ++ '.' :: v.renderer.toList) := by
    have hfield : ∀ field ∈ [v.segmenter, v.decoder, v.renderer], '?' ∉ field.toList :=
      fun field hf hc => (hmade field hf).2 _ hc (by decide)
    simp [hfield _ (List.mem_cons_self ..), hfield v.decoder (by simp), hfield v.renderer (by simp)]
  have hrest := canonical_toList l v hversion
  rw [hlmod, tag_toList] at hrest
  have hfromTag := fromTag_tag hmade hplain
  rw [tag_toList] at hfromTag
  rw [parse_parts hsource (pattern_plain (.inl hpattern)) (pattern_plain (.inr hsafe)) htag (by
    rw [hrest, Option.map_map]
    simp [Function.comp_def]) hfromTag hfrag]
  exact Locator.make_congr hmake hbytes

end Umd.Locators
