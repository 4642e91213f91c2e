import Umd.Lib.Outline
import Umd.Segmentation.Chapters
import Umd.Segmentation.Paths
/-!
# Segment inputs

`segment_txt`, `segment_markdown` and `segment_epub` as lists of inputs with structural
paths. Plain texts are outlines and never use a path twice (`nodup_txt`); an EPUB does not
if its indices are distinct (`nodup_segmentEpub`).
-/

namespace Umd.Segmentation

open Umd.Lib Umd.Lib.Outline Umd.Locators

/-- What `_register` is called with for one part. -/
structure Part where
  path : Steps
  segmentType : PartKind
  ordinal : ℤ
  parent : Option Steps := none
  framed : Bool := false

/-- What all inputs of a document share. -/
structure Origin where
  sourceId : String
  sourceSha512 : String
  workId : Option String
  version : PipelineVersion
  made : version.Made

/-- A `SegmentInput` with its parent path. -/
structure DocInput extends SegmentInput where
  parentPath : Option String

/-- `_register`. -/
def registerPart (origin : Origin) (part : Part) : DocInput where
  sourceId := origin.sourceId
  sourceSha512 := origin.sourceSha512
  workId := origin.workId
  modality := "text"
  structuralPath := pathText part.path
  segmentType := part.segmentType.name
  version := origin.version
  frag := if part.framed then some (.structural (pathText part.path)) else none
  ordinal := some part.ordinal
  made := origin.made
  parentPath := part.parent.map pathText

def docPath : Steps := [(.document, 1)]

def documentPart : Part := { path := docPath, segmentType := .document, ordinal := 1 }

/-! ## Plain texts -/

/-- `[A-Za-z0-9']` -/
def isTokenChar (c : Char) : Bool := c.isAlphanum || c = '\x27'

/-- `tokenize`. -/
def tokenize (sentence : Text) : List Text := (sentence.splitOnP fun c => !isTokenChar c).filter (· ≠ [])

def tokenPart (sentPath : Steps) (ti : Nat) (_ : Text) : List Part :=
  [{ path := sentPath ++ [(PartKind.token, (ti : ℤ))], segmentType := .token, ordinal := ti, parent := some sentPath }]

def sentencePart (paraPath : Steps) (si : Nat) (sent : Text) : List Part :=
  { path := paraPath ++ [(PartKind.sentence, (si : ℤ))], segmentType := .sentence, ordinal := si, parent := some paraPath, framed := true } ::
    numbered (tokenPart (paraPath ++ [(PartKind.sentence, (si : ℤ))])) (tokenize sent)

def paragraphPart (secPath : Steps) (pi : Nat) (para : Text) : List Part :=
  { path := secPath ++ [(PartKind.paragraph, (pi : ℤ))], segmentType := .paragraph, ordinal := pi, parent := some secPath, framed := true } ::
    numbered (sentencePart (secPath ++ [(PartKind.paragraph, (pi : ℤ))])) (splitSentences para)

def chapterPart (ci : Nat) (chapter : Text × Text) : List Part :=
  { path := [(.chapter, ci)], segmentType := .chapter, ordinal := ci, parent := some docPath } ::
    { path := [(.chapter, ci), (.sect, 1)], segmentType := .sect, ordinal := 1, parent := some [(.chapter, ci)] } ::
      numbered (paragraphPart [(.chapter, ci), (.sect, 1)]) (paragraphs chapter.2)

/-- `segment_txt`. -/
def segmentTxt (word : Char → Bool) (text : Text) : List Part :=
  documentPart :: numbered chapterPart (chapterBoundaries (isHeader word) text)

/-! ## Markdown -/

/-- `MarkdownBlock`, as far as it is read here. -/
structure MarkdownBlock where
  kind : String
  text : String := ""
  level : Option ℤ := none

def MarkdownBlock.isChapter (block : MarkdownBlock) : Bool := block.kind = "heading" && block.level = some 1

def MarkdownBlock.isSection (block : MarkdownBlock) : Bool := block.kind = "heading" && block.level = some 2

def MarkdownBlock.isParagraph (block : MarkdownBlock) : Bool :=
  (block.kind = "paragraph" || block.kind = "blockquote" || block.kind = "list") && block.text ≠ ""

/-- The counters of the loop over the blocks. -/
structure MarkdownState where
  chapterIdx : Nat := 0
  sectionIdx : Nat := 0
  paraIdx : Nat := 0
  currentChapParent : Steps := docPath

/-- One block: what it counts, and what it is registered as. -/
def markdownStep (s : MarkdownState) (block : MarkdownBlock) : MarkdownState × Option Part :=
  if block.isChapter then
    let chapPath : Steps := [(.chapter, s.chapterIdx + 1)]
    ({ s with chapterIdx := s.chapterIdx + 1, sectionIdx := 0, currentChapParent := chapPath },
      some { path := chapPath, segmentType := .chapter, ordinal := s.chapterIdx + 1, parent := some docPath })
  else if block.isSection then
    ({ s with sectionIdx := s.sectionIdx + 1 },
      some { path := [(.chapter, max s.chapterIdx 1), (.sect, s.sectionIdx + 1)], segmentType := .sect, ordinal := s.sectionIdx + 1,
             parent := some s.currentChapParent })
  else if block.isParagraph then
    ({ s with paraIdx := s.paraIdx + 1 },
      some { path := [(.chapter, max s.chapterIdx 1), (.paragraph, s.paraIdx + 1)], segmentType := .paragraph,
             ordinal := s.paraIdx + 1, parent := some s.currentChapParent, framed := true })
  else (s, none)

/-- The loop over the blocks. -/
def markdownParts (s : MarkdownState) : List MarkdownBlock → List Part
  | [] => []
  | block :: blocks => (markdownStep s block).2.toList ++ markdownParts (markdownStep s block).1 blocks

/-- `segment_markdown`. -/
def segmentMarkdown (blocks : List MarkdownBlock) : List Part := documentPart :: markdownParts {} blocks

/-! ## EPUB -/

/-- `EpubParagraph`, as far as it is read here. -/
structure EpubParagraph where
  text : String
  index : ℤ

/-- `EpubSpineItem`, as far as it is read here. -/
structure EpubSpineItem where
  index : ℤ
  paragraphs : List EpubParagraph

def spineParts (item : EpubSpineItem) : List Part :=
  let chapPath : Steps := [(.chapter, item.index + 1)]
  { path := chapPath, segmentType := .chapter, ordinal := item.index + 1, parent := some docPath } ::
    item.paragraphs.map fun p =>
      { path := chapPath ++ [(PartKind.paragraph, p.index)], segmentType := .paragraph, ordinal := p.index, parent := some chapPath, framed := true }

/-- `segment_epub`. -/
def segmentEpub (spine : List EpubSpineItem) : List Part := documentPart :: spine.flatMap spineParts

/-! ## Documents -/

inductive Document where
  | txt (text : Text)
  | markdown (blocks : List MarkdownBlock)
  | epub (spine : List EpubSpineItem)

/-- The inputs that are registered for a document. -/
def Document.inputs (word : Char → Bool) (origin : Origin) : Document → List DocInput
  | txt text => (segmentTxt word text).map (registerPart origin)
  | markdown blocks => (segmentMarkdown blocks).map (registerPart origin)
  | epub spine => (segmentEpub spine).map (registerPart origin)

/-- Each part has its own path and its own key, and stands after its parent. -/
structure OwnPaths (t : Tables) (inputs : List DocInput) : Prop where
  paths : (inputs.map (·.structuralPath)).Nodup
  keys : ∀ identity, (inputs.map fun inp => deterministicKey t identity inp.modality inp.structuralPath).Nodup
  parents : ∀ pre inp post, inputs = pre ++ inp :: post → ∀ p ∈ inp.parentPath, p ∈ pre.map (·.structuralPath)

/-- The blocks before the first chapter, and those of the first chapter. -/
def beforeChapter (blocks : List MarkdownBlock) : List MarkdownBlock := blocks.takeWhile fun block => !block.isChapter

def firstChapter (blocks : List MarkdownBlock) : List MarkdownBlock :=
  beforeChapter ((blocks.dropWhile fun block => !block.isChapter).drop 1)

/-- The indices of a document are its own: there are no sections both before the first chapter and in it, and the indices of
an EPUB are distinct. -/
def Document.Indexed : Document → Prop
  | txt _ => True
  | markdown blocks => ¬ ((∃ block ∈ beforeChapter blocks, block.isSection = true) ∧ ∃ block ∈ firstChapter blocks, block.isSection = true)
  | epub spine => (spine.map (·.index)).Nodup ∧ ∀ item ∈ spine, (item.paragraphs.map (·.index)).Nodup

variable {t : Tables}

/-! ## Parts and inputs -/

/-- Inputs have paths and keys of their own if their parts have, and parents before them. -/
theorem ownPaths_iff (hlower : LowersOnlyCapitals t) (origin : Origin) {parts : List Part} (hne : ∀ part ∈ parts, part.path ≠ [])
    (hrooted : Rooted Part.path Part.parent [] parts) :
    OwnPaths t (parts.map (registerPart origin)) ↔ (parts.map (·.path)).Nodup := by
  have hpaths : (parts.map (registerPart origin)).map (·.structuralPath) = (parts.map (·.path)).map pathText := by
    rw [List.map_map, List.map_map]
    rfl
  have hsteps : ∀ steps ∈ parts.map (·.path), steps ≠ [] := by
    intro steps hs
    obtain ⟨part, hpart, rfl⟩ := List.mem_map.1 hs
    exact hne part hpart
  constructor
  · intro h
    have hnodup := h.paths
    rw [hpaths] at hnodup
    exact hnodup.of_map
  · intro hnodup
    refine ⟨?_, fun identity => ?_, fun pre inp post heq p hp => ?_⟩
    · rw [hpaths]
      exact hnodup.map_on fun steps hs steps' hs' => pathText_inj (hsteps _ hs) (hsteps _ hs')
    · have hkeys : ((parts.map (registerPart origin)).map fun inp => deterministicKey t identity inp.modality inp.structuralPath) =
          (parts.map (·.path)).map fun steps => deterministicKey t identity "text" (pathText steps) := by
        rw [List.map_map, List.map_map]
        rfl
      rw [hkeys]
      refine hnodup.map_on fun steps hs steps' hs' h => pathText_inj (hsteps _ hs) (hsteps _ hs') ?_
      obtain ⟨-, hnorm⟩ := key_inj (by decide) (by decide) h
      rwa [norm_pathText hlower (hsteps _ hs), norm_pathText hlower (hsteps _ hs')] at hnorm
    · obtain ⟨pre', rest, rfl, rfl, hrest⟩ := List.map_eq_append_iff.1 heq
      obtain ⟨part, post', rfl, rfl, -⟩ := List.map_eq_cons_iff.1 hrest
      obtain ⟨steps, hparent, rfl⟩ := Option.map_eq_some_iff.1 (Option.mem_def.1 hp)
      rcases hrooted.before steps hparent with hmem | hmem
      · cases hmem
      · obtain ⟨part', hpart', rfl⟩ := List.mem_map.1 hmem
        exact List.mem_map.2 ⟨registerPart origin part', List.mem_map_of_mem hpart', rfl⟩

/-! ## Plain texts -/

theorem natStep_inj (kind : PartKind) : Function.Injective fun i : Nat => (kind, (i : ℤ)) := by
  intro i j h
  exact Int.ofNat_inj.1 (Prod.mk.inj h).2

theorem under_tokens (sentPath : Steps) (tokens : List Text) : Under Part.path sentPath (numbered (tokenPart sentPath) tokens) := by
  refine Under.numbered (fun i => (PartKind.token, (i : ℤ))) fun i x e he => ?_
  rw [List.mem_singleton.1 he]

theorem under_sentences (paraPath : Steps) (sentences : List Text) :
    Under Part.path paraPath (numbered (sentencePart paraPath) sentences) :=
  Under.numbered (fun i => (PartKind.sentence, (i : ℤ))) fun _ _ => prefix_node rfl (under_tokens _ _)

theorem under_paragraphs (secPath : Steps) (paras : List Text) : Under Part.path secPath (numbered (paragraphPart secPath) paras) :=
  Under.numbered (fun i => (PartKind.paragraph, (i : ℤ))) fun _ _ => prefix_node rfl (under_sentences _ _)

theorem nodup_sentences (paraPath : Steps) (sentences : List Text) :
    ((numbered (sentencePart paraPath) sentences).map Part.path).Nodup := by
  refine nodup_numbered (natStep_inj .sentence) (fun _ _ => prefix_node rfl (under_tokens _ _)) fun i x => nodup_node (under_tokens _ _) ?_
  refine nodup_numbered (p := paraPath ++ [(PartKind.sentence, (i : ℤ))]) (natStep_inj .token) (fun j y e he => ?_) fun j y =>
    List.nodup_singleton _
  rw [List.mem_singleton.1 he]

theorem nodup_paragraphs (secPath : Steps) (paras : List Text) : ((numbered (paragraphPart secPath) paras).map Part.path).Nodup :=
  nodup_numbered (natStep_inj .paragraph) (fun _ _ => prefix_node rfl (under_sentences _ _)) fun _ _ =>
    nodup_node (under_sentences _ _) (nodup_sentences _ _)

/-- The section of a chapter, and what is under it. -/
theorem under_section (ci : Nat) (chapter : Text × Text) : Under Part.path [(PartKind.chapter, (ci : ℤ))] (chapterPart ci chapter).tail := by
  have hprefix : ∀ e ∈ (chapterPart ci chapter).tail, [(PartKind.chapter, (ci : ℤ)), (.sect, 1)] <+: e.path :=
    prefix_node rfl (under_paragraphs _ _)
  exact fun e he => ⟨(.sect, 1), hprefix e he⟩

theorem under_chapter (ci : Nat) (chapter : Text × Text) : ∀ e ∈ chapterPart ci chapter, [] ++ [(PartKind.chapter, (ci : ℤ))] <+: e.path :=
  prefix_node rfl (under_section ci chapter)

theorem nodup_chapter (ci : Nat) (chapter : Text × Text) : ((chapterPart ci chapter).map Part.path).Nodup :=
  nodup_node (under_section ci chapter) (nodup_node (under_paragraphs _ _) (nodup_paragraphs _ _))

theorem nodup_txt (word : Char → Bool) (text : Text) : ((segmentTxt word text).map Part.path).Nodup := by
  unfold segmentTxt
  rw [List.map_cons, List.nodup_cons]
  refine ⟨fun hmem => ?_, nodup_numbered (p := []) (natStep_inj .chapter) under_chapter nodup_chapter⟩
  obtain ⟨e, he, heq⟩ := List.mem_map.1 hmem
  obtain ⟨x, -, he⟩ := List.mem_flatMap.1 he
  have hprefix := under_chapter _ _ e he
  rw [heq] at hprefix
  obtain ⟨rest, hrest⟩ := hprefix
  cases hrest

theorem rooted_sentences {known : List Steps} {paraPath : Steps} (h : paraPath ∈ known) (sentences : List Text) :
    Rooted Part.path Part.parent known (numbered (sentencePart paraPath) sentences) := by
  refine Rooted.numbered fun i x => Rooted.node (fun p hp => by cases hp; exact h) fun known' h' => Rooted.numbered fun j y => ?_
  exact ⟨fun p hp => by cases hp; exact h', trivial⟩

theorem rooted_paragraphs {known : List Steps} {secPath : Steps} (h : secPath ∈ known) (paras : List Text) :
    Rooted Part.path Part.parent known (numbered (paragraphPart secPath) paras) :=
  Rooted.numbered fun _ _ => Rooted.node (fun p hp => by cases hp; exact h) fun _ h' => rooted_sentences h' _

theorem rooted_txt (word : Char → Bool) (text : Text) : Rooted Part.path Part.parent [] (segmentTxt word text) := by
  refine Rooted.node nofun fun known h => Rooted.numbered fun ci chapter => ?_
  refine Rooted.node (fun p hp => by cases hp; exact h) fun known' h' => ?_
  exact Rooted.node (fun p hp => by cases hp; exact h') fun _ h'' => rooted_paragraphs h'' _

/-! ## EPUB -/

theorem under_spine (item : EpubSpineItem) : ∀ e ∈ spineParts item, [(PartKind.chapter, item.index + 1)] <+: e.path := by
  intro e he
  rcases List.mem_cons.1 he with rfl | he
  · exact List.prefix_rfl
  · obtain ⟨p, -, rfl⟩ := List.mem_map.1 he
    exact List.prefix_append ..

theorem nodup_spineParts (item : EpubSpineItem) :
    ((spineParts item).map Part.path).Nodup ↔ (item.paragraphs.map (·.index)).Nodup := by
  have hpaths : (spineParts item).map Part.path = [(PartKind.chapter, item.index + 1)] ::
      (item.paragraphs.map (·.index)).map fun n => [(PartKind.chapter, item.index + 1), (.paragraph, n)] := by
    unfold spineParts
    rw [List.map_cons, List.map_map, List.map_map]
    rfl
  have hinj : Function.Injective fun n : ℤ => [(PartKind.chapter, item.index + 1), (PartKind.paragraph, n)] := by
    intro m n h
    simpa using h
  rw [hpaths, List.nodup_cons, List.nodup_map_iff hinj]
  refine and_iff_right fun hmem => ?_
  obtain ⟨n, -, hn⟩ := List.mem_map.1 hmem
  cases hn

/-- An EPUB's paths are its own if and only if its indices are distinct. -/
theorem nodup_segmentEpub (spine : List EpubSpineItem) :
    ((segmentEpub spine).map Part.path).Nodup ↔ Document.Indexed (.epub spine) := by
  have hdoc : docPath ∉ (spine.flatMap spineParts).map Part.path := by
    intro hmem
    obtain ⟨e, he, heq⟩ := List.mem_map.1 hmem
    obtain ⟨item, -, he⟩ := List.mem_flatMap.1 he
    obtain ⟨rest, hrest⟩ := under_spine item e he
    rw [heq] at hrest
    cases hrest
  have hcons : ((segmentEpub spine).map Part.path).Nodup ↔ ((spine.flatMap spineParts).map Part.path).Nodup :=
    List.nodup_cons.trans (and_iff_right hdoc)
  rw [hcons, List.map_flatMap, List.nodup_flatMap]
  unfold Document.Indexed
  rw [and_comm]
  refine and_congr ?_ (forall₂_congr fun item _ => nodup_spineParts item)
  unfold List.Nodup
  rw [List.pairwise_map]
  refine List.Pairwise.iff fun item item' => ?_
  constructor
  · intro hdisjoint heq
    refine hdisjoint (a := [(PartKind.chapter, item.index + 1)]) (List.mem_cons_self ..) ?_
    rw [heq]
    exact List.mem_cons_self ..
  · intro hne p hp hp'
    obtain ⟨e, he, rfl⟩ := List.mem_map.1 hp
    obtain ⟨e', he', heq⟩ := List.mem_map.1 hp'
    have h1 := under_spine item e he
    have h2 := under_spine item' e' he'
    rw [heq] at h2
    have hsame := (List.prefix_of_prefix_length_le h1 h2 (Nat.le_refl _)).eq_of_length rfl
    simp at hsame
    exact hne hsame

theorem rooted_epub (spine : List EpubSpineItem) : Rooted Part.path Part.parent [] (segmentEpub spine) := by
  refine Rooted.node nofun fun known h => ?_
  induction spine with
  | nil => trivial
  | cons item spine ih =>
    refine Rooted.append (Rooted.node (fun p hp => by cases hp; exact h) fun known' h' => ?_) ih
    induction item.paragraphs generalizing known' with
    | nil => trivial
    | cons p ps ihp => exact ⟨fun q hq => by cases hq; exact h', ihp _ (List.mem_cons_of_mem _ h')⟩

end Umd.Segmentation
