import Umd.Extractors.EpubSpine
import Umd.Segmentation.Batches
import Umd.Segmentation.Documents
/-!
# Paragraphs and their segments

`_emit_low_level_text_evidence` and `_paragraph_segments` sort what was registered by its
structural paths, and zip it with the texts of the paragraphs. However the segments are split
and ordered, each text gets a segment of its own path if and only if the numbers of the
document never go back in reading order (`pairsParagraphs_iff`); those of a plain text, of
Markdown and of an extracted EPUB never do.
-/

namespace Umd.Segmentation

open Umd.Lib Umd.Lib.Outline Umd.Locators

/-! ## Keys -/

/-- What paths are compared by, component by component: a name stands before a number. -/
abbrev PartKey := String ⊕ₗ ℕ

def componentKey (part : List Char) : PartKey :=
  if part ≠ [] ∧ part.all isDigit then toLex (.inr (digitsVal part)) else toLex (.inl (String.ofList part))

/-- `_structural_path_key` -/
def structuralPathKey (path : String) : List PartKey := (path.toList.splitOn '/').map componentKey

/-- The digits after a name: `(?:^|/)name/(\d+)(?:/|$)` -/
def numberAfter (name : List Char) : List (List Char) → Option ℕ
  | part :: number :: rest =>
    if part = name ∧ number ≠ [] ∧ number.all isDigit then some (digitsVal number) else numberAfter name (number :: rest)
  | _ => none

/-- `_chapter_number` -/
def chapterNumber (path : String) : ℕ := (numberAfter "chapter".toList (path.toList.splitOn '/')).getD 1

/-- `_paragraph_number` -/
def paragraphNumber (path : String) : ℕ := (numberAfter "paragraph".toList (path.toList.splitOn '/')).getD 0

/-! ## Pairs -/

/-- `para_segs` -/
def paraSegs (created existing : List RegisteredSegment) : List RegisteredSegment :=
  ((created ++ existing).filter fun s => s.segmentType = "paragraph").insertionSort fun s s' =>
    structuralPathKey s.structuralPath ≤ structuralPathKey s'.structuralPath

/-- `zip(para_segs, seg_result.paragraphs)` -/
def pairs (created existing : List RegisteredSegment) (paragraphs : List String) : List (RegisteredSegment × String) :=
  (paraSegs created existing).zip paragraphs

/-- `ParagraphSegment`; the locator is the structural path, and there is no segment id. -/
structure ParagraphSegment where
  text : String
  paragraphIndex : ℕ
  chapter : ℕ
  locator : String
  structuralPath : String
  segmentId : Option String := none

/-- `_paragraph_segments`: a strict zip, which raises if one side is longer. -/
def paragraphSegments (created existing : List RegisteredSegment) (paragraphs : List String) : Except PyError (List ParagraphSegment) :=
  if (paraSegs created existing).length ≠ paragraphs.length then .error .valueError
  else
    .ok ((pairs created existing paragraphs).map fun (seg, para) =>
      { text := para, paragraphIndex := paragraphNumber seg.structuralPath, chapter := chapterNumber seg.structuralPath,
        locator := seg.structuralPath, structuralPath := seg.structuralPath })

/-- A `text_span` evidence, as far as it tells what it is of. -/
structure TextSpan where
  segmentId : String
  locator : String
  confidence : ℚ
  text : String

/-- The span of the whole text, if the document is registered and has a row. -/
def documentSpan (ids : List (String × String)) (allSegs : List RegisteredSegment) (text : String) : Option TextSpan := do
  let docSeg ← allSegs.find? fun s => s.structuralPath = "document/1"
  let docId ← lastValue ids "document/1"
  some { segmentId := docId, locator := docSeg.locator, confidence := 1, text := text }

/-- The spans of the paragraphs; one whose segment has no row is passed over. -/
def paragraphSpans (ids : List (String × String)) (pairs : List (RegisteredSegment × String)) : List TextSpan :=
  pairs.filterMap fun (seg, para) =>
    (lastValue ids seg.structuralPath).map fun segId => { segmentId := segId, locator := seg.locator, confidence := 9 / 10, text := para }

/-- `_emit_low_level_text_evidence`: what is recorded. `ids` are the row ids by path. -/
def emitLowLevelTextEvidence (ids : List (String × String)) (created existing : List RegisteredSegment) (text : String)
    (paragraphs : List String) : List TextSpan :=
  if ids = [] then []
  else (documentSpan ids (created ++ existing) text).toList ++ paragraphSpans ids (pairs created existing paragraphs)

/-! ## The paragraphs of a document -/

def paragraphTexts (secPath : Steps) (paras : List Text) : List (Steps × String) :=
  numbered (fun pi para => [(secPath ++ [(PartKind.paragraph, (pi : ℤ))], String.ofList para)]) paras

def isParagraph (part : Part) : Bool := part.segmentType = .paragraph

/-- The text that is appended where a block is registered as a paragraph. -/
def markdownTexts (s : MarkdownState) : List MarkdownBlock → List (Steps × String)
  | [] => []
  | block :: blocks =>
    ((markdownStep s block).2.filter isParagraph).toList.map (fun part => (part.path, block.text)) ++
      markdownTexts (markdownStep s block).1 blocks

def spineTexts (item : EpubSpineItem) : List (Steps × String) :=
  item.paragraphs.map fun p => ([(.chapter, item.index + 1), (.paragraph, p.index)], p.text)

/-- The parts of a document. -/
def Document.parts (word : Char → Bool) : Document → List Part
  | txt text => segmentTxt word text
  | markdown blocks => segmentMarkdown blocks
  | epub spine => segmentEpub spine

/-- What is appended to `paragraphs`, in reading order, each with the path it is registered under. -/
def Document.paragraphs (word : Char → Bool) : Document → List (Steps × String)
  | txt text => numbered (fun ci chapter => paragraphTexts [(.chapter, (ci : ℤ)), (.sect, 1)] (Segmentation.paragraphs chapter.2))
      (chapterBoundaries (isHeader word) text)
  | markdown blocks => markdownTexts {} blocks
  | epub spine => spine.flatMap spineTexts

/-- `SegmentationResult.paragraphs` -/
def Document.texts (word : Char → Bool) (doc : Document) : List String := (doc.paragraphs word).map (·.2)

/-- The key of a number of a path. -/
def numberKey (n : ℤ) : PartKey := if n < 0 then toLex (.inl (toString n)) else toLex (.inr n.toNat)

/-- One chapter and paragraph number does not stand before another. -/
def NumbersLe (a b : ℤ × ℤ) : Prop := numberKey a.1 < numberKey b.1 ∨ numberKey a.1 = numberKey b.1 ∧ numberKey a.2 ≤ numberKey b.2

/-- The chapter and paragraph numbers never go back in reading order. -/
def Document.InOrder : Document → Prop
  | txt _ => True
  | markdown _ => True
  | epub spine => (spine.flatMap fun item => item.paragraphs.map fun p => (item.index + 1, p.index)).Pairwise NumbersLe

/-- Every paragraph is paired with a segment of the path it was registered under, in what is analysed and in the evidence. -/
structure PairsParagraphs (word : Char → Bool) (doc : Document) (created existing : List RegisteredSegment) : Prop where
  pairs : (pairs created existing (doc.texts word)).map (fun p => (p.1.structuralPath, p.2)) =
    (doc.paragraphs word).map fun p => (pathText p.1, p.2)
  analysed : ∃ segs, paragraphSegments created existing (doc.texts word) = .ok segs ∧
    segs.map (fun s => (s.structuralPath, s.text)) = (doc.paragraphs word).map fun p => (pathText p.1, p.2)
  evidence : ∀ ids, (paragraphSpans ids (Segmentation.pairs created existing (doc.texts word))).map (fun span => (span.segmentId, span.text)) =
    (doc.paragraphs word).filterMap fun p => (lastValue ids (pathText p.1)).map fun segId => (segId, p.2)

/-! ## The keys of paths -/

/-- The key of a path, read off its steps. -/
def stepsKey (steps : Steps) : List PartKey := steps.flatMap fun step => [toLex (.inl step.1.name), numberKey step.2]

theorem componentKey_name (kind : PartKind) : componentKey kind.name.toList = toLex (.inl kind.name) := by
  cases kind <;> decide +kernel

theorem componentKey_number (n : ℤ) : componentKey (toString n).toList = numberKey n := by
  unfold componentKey numberKey
  rw [int_text]
  by_cases hn : n < 0
  · rw [if_pos hn, if_pos hn, if_neg (fun h => by simp [isDigit] at h), ← if_pos hn (t := ['-']) (e := []), ← int_text,
      String.ofList_toList]
  · rw [if_neg hn, if_neg hn, List.nil_append, if_pos ⟨Nat.toDigits_ne_nil, List.all_eq_true.2 (toDigits_digits _)⟩, digitsVal_eq,
      Nat.ofDigitChars_ten_toDigits]
    congr 2
    omega

/-- A path's components are those of its steps. -/
theorem splitOn_pathText {steps : Steps} (hne : steps ≠ []) : (pathText steps).toList.splitOn '/' = comps steps := by
  have hslash : ∀ comp ∈ comps steps, '/' ∉ comp := fun comp hcomp hmem => ((comps_plain hcomp).2 _ hmem).ne_slash rfl
  obtain ⟨step, rest, rfl⟩ := List.exists_cons_of_ne_nil hne
  rw [pathText_toList, List.splitOn_intercalate _ hslash (List.cons_ne_nil _ _)]

theorem structuralPathKey_pathText {steps : Steps} (hne : steps ≠ []) : structuralPathKey (pathText steps) = stepsKey steps := by
  rw [structuralPathKey, splitOn_pathText hne, comps, stepsKey, List.map_flatMap]
  refine List.flatMap_congr fun step _ => ?_
  rw [List.map_cons, List.map_cons, List.map_nil, componentKey_name, componentKey_number]

theorem numberKey_inj {m n : ℤ} (h : numberKey m = numberKey n) : m = n := by
  unfold numberKey at h
  split at h <;> split at h
  · exact int_text_inj (Sum.inl.inj (toLex.injective h))
  · cases toLex.injective h
  · cases toLex.injective h
  · have := Sum.inr.inj (toLex.injective h)
    omega

theorem stepsKey_inj {steps steps' : Steps} (h : stepsKey steps = stepsKey steps') : steps = steps' := by
  induction steps generalizing steps' with
  | nil =>
    cases steps' with
    | nil => rfl
    | cons step' steps' => cases h
  | cons step steps ih =>
    cases steps' with
    | nil => cases h
    | cons step' steps' =>
      obtain ⟨hkind, htail⟩ := List.cons.inj h
      obtain ⟨hn, hrest⟩ := List.cons.inj htail
      have hk : step.1 = step'.1 := PartKind.name_inj (Sum.inl.inj (toLex.injective hkind))
      rw [Prod.ext hk (numberKey_inj hn), ih hrest]

/-- Numbered blocks are in order, if each is and every one stands before those after it. -/
theorem pairwise_numbered {α ε : Type} {R : ε → ε → Prop} {block : Nat → α → List ε} {xs : List α} (h : ∀ i x, (block i x).Pairwise R)
    (hlt : ∀ i j x y, i < j → ∀ a ∈ block i x, ∀ b ∈ block j y, R a b) : (numbered block xs).Pairwise R := by
  unfold numbered
  rw [List.pairwise_flatMap]
  refine ⟨fun x _ => h x.2 x.1, ?_⟩
  have hindices : (xs.zipIdx 1).Pairwise fun x y => x.2 < y.2 := by
    rw [← List.pairwise_map (f := Prod.snd) (R := (· < ·)), List.zipIdx_map_snd]
    exact List.pairwise_lt_range' ..
  exact hindices.imp fun {x y} hxy => hlt x.2 y.2 x.1 y.1 hxy

/-! ## Order -/

theorem numberKey_natCast (n : ℕ) : numberKey n = toLex (.inr n) := by
  rw [numberKey, if_neg (by omega), Int.toNat_natCast]

theorem numberKey_lt {m n : ℕ} : numberKey m < numberKey n ↔ m < n := by
  rw [numberKey_natCast, numberKey_natCast, Sum.Lex.inr_lt_inr_iff]

theorem numberKey_le {m n : ℕ} : numberKey m ≤ numberKey n ↔ m ≤ n := by
  rw [numberKey_natCast, numberKey_natCast, Sum.Lex.inr_le_inr_iff]

/-- Keys are compared as Python compares tuples: by the first component in which they differ. -/
theorem cons_le_cons {a b : PartKey} {l l' : List PartKey} : a :: l ≤ b :: l' ↔ a < b ∨ a = b ∧ l ≤ l' := by
  have hlt : b :: l' < a :: l ↔ b < a ∨ b = a ∧ l' < l := List.cons_lex_cons_iff
  rw [← not_lt, hlt]
  rcases lt_trichotomy a b with h | rfl | h
  · simp [h, h.not_gt, h.ne']
  · simp
  · simp [h, h.not_gt, h.ne']

theorem stepsKey_cons_le (kind : PartKind) (m n : ℤ) (rest rest' : Steps) :
    stepsKey ((kind, m) :: rest) ≤ stepsKey ((kind, n) :: rest') ↔
      numberKey m < numberKey n ∨ numberKey m = numberKey n ∧ stepsKey rest ≤ stepsKey rest' := by
  change _ :: _ :: stepsKey rest ≤ _ :: _ :: stepsKey rest' ↔ _
  rw [cons_le_cons, cons_le_cons, or_iff_right (lt_irrefl _), and_iff_right rfl]

theorem stepsKey_le (a b : ℤ × ℤ) :
    stepsKey [(.chapter, a.1), (.paragraph, a.2)] ≤ stepsKey [(.chapter, b.1), (.paragraph, b.2)] ↔ NumbersLe a b := by
  rw [stepsKey_cons_le, stepsKey_cons_le, NumbersLe]
  simp only [le_refl, and_true, le_iff_lt_or_eq]

/-- Paths under one path are compared by what comes after it. -/
theorem stepsKey_append_le (steps rest rest' : Steps) : stepsKey (steps ++ rest) ≤ stepsKey (steps ++ rest') ↔ stepsKey rest ≤ stepsKey rest' := by
  induction steps with
  | nil => rfl
  | cons step steps ih =>
    rw [List.cons_append, List.cons_append, stepsKey_cons_le, ih, or_iff_right (lt_irrefl _), and_iff_right rfl]

theorem chapters_le {i j : ℕ} (h : i < j) (rest rest' : Steps) :
    stepsKey ((PartKind.chapter, (i : ℤ)) :: rest) ≤ stepsKey ((PartKind.chapter, (j : ℤ)) :: rest') :=
  (stepsKey_cons_le ..).2 (.inl (numberKey_lt.2 h))

/-- Two paragraphs stand in the order of their keys. -/
def KeysLe (p q : Steps × String) : Prop := stepsKey p.1 ≤ stepsKey q.1

theorem keysLe_paragraphTexts (secPath : Steps) (paras : List Text) : (paragraphTexts secPath paras).Pairwise KeysLe := by
  refine pairwise_numbered (fun _ _ => List.pairwise_singleton ..) fun i j x y hij a ha b hb => ?_
  rw [List.mem_singleton.1 ha, List.mem_singleton.1 hb]
  exact (stepsKey_append_le ..).2 ((stepsKey_cons_le ..).2 (.inl (numberKey_lt.2 hij)))

theorem keysLe_txt (word : Char → Bool) (text : Text) : ((Document.txt text).paragraphs word).Pairwise KeysLe := by
  unfold Document.paragraphs
  refine pairwise_numbered (fun _ _ => keysLe_paragraphTexts ..) fun i j x y hij a ha b hb => ?_
  obtain ⟨z, -, ha⟩ := List.mem_flatMap.1 ha
  obtain ⟨z', -, hb⟩ := List.mem_flatMap.1 hb
  rw [List.mem_singleton.1 ha, List.mem_singleton.1 hb]
  exact chapters_le hij ..

/-- What can be appended after a state: it is of its chapter or a later one, with a later number. -/
theorem mem_markdownTexts {s : MarkdownState} {blocks : List MarkdownBlock} {p : Steps × String} (h : p ∈ markdownTexts s blocks) :
    ∃ k n : ℕ, s.chapterIdx ≤ k ∧ s.paraIdx < n ∧ p.1 = [(.chapter, ((max k 1 : ℕ) : ℤ)), (.paragraph, (n : ℤ))] := by
  induction blocks generalizing s with
  | nil => cases h
  | cons block blocks ih =>
    rw [markdownTexts] at h
    have hstep := markdownStep_cases s block
    generalize markdownStep s block = next at h hstep
    cases hstep with
    | chapter hchapter =>
      obtain ⟨k, n, hk, hn, hp⟩ := @ih { s with chapterIdx := s.chapterIdx + 1, sectionIdx := 0, currentChapParent := _ } h
      exact ⟨k, n, by dsimp only at hk; omega, hn, hp⟩
    | sect hchapter hsection => exact @ih { s with sectionIdx := s.sectionIdx + 1 } h
    | paragraph hchapter hsection =>
      rcases List.mem_cons.1 h with rfl | h
      · -- this block
        exact ⟨s.chapterIdx, s.paraIdx + 1, le_rfl, Nat.lt_succ_self _, by push_cast; rfl⟩
      · obtain ⟨k, n, hk, hn, hp⟩ := ih h
        exact ⟨k, n, hk, by dsimp only at hn; omega, hp⟩
    | skip hchapter hsection => exact ih h

theorem keysLe_markdown (s : MarkdownState) (blocks : List MarkdownBlock) : (markdownTexts s blocks).Pairwise KeysLe := by
  induction blocks generalizing s with
  | nil => exact .nil
  | cons block blocks ih =>
    rw [markdownTexts]
    have hlater := fun p => @mem_markdownTexts (markdownStep s block).1 blocks p
    have hrest := ih (markdownStep s block).1
    have hstep := markdownStep_cases s block
    generalize markdownStep s block = next at hlater hrest hstep
    cases hstep with
    | paragraph hchapter hsection =>
      refine List.pairwise_cons.2 ⟨fun q hq => ?_, hrest⟩
      obtain ⟨k, n, hk, hn, hp⟩ := hlater q hq
      dsimp only at hk hn
      have hhere : [(PartKind.chapter, max (s.chapterIdx : ℤ) 1), (.paragraph, (s.paraIdx : ℤ) + 1)] =
          [(.chapter, ((max s.chapterIdx 1 : ℕ) : ℤ)), (.paragraph, ((s.paraIdx + 1 : ℕ) : ℤ))] := by push_cast; rfl
      unfold KeysLe
      rw [hp]
      dsimp only
      rw [hhere]
      refine (stepsKey_le (_, _) (_, _)).2 ?_
      unfold NumbersLe
      dsimp only
      rw [numberKey_lt, numberKey_le]
      by_cases hlt : max s.chapterIdx 1 < max k 1
      · exact .inl hlt
      · exact .inr ⟨by congr 2; omega, hn.le⟩
    | chapter hchapter => exact hrest
    | sect hchapter hsection => exact hrest
    | skip hchapter hsection => exact hrest

/-- The keys of a document are in order just where its numbers are. -/
theorem keysLe_iff (word : Char → Bool) (doc : Document) : (doc.paragraphs word).Pairwise KeysLe ↔ doc.InOrder := by
  cases doc with
  | txt text => exact iff_of_true (keysLe_txt word text) trivial
  | markdown blocks => exact iff_of_true (keysLe_markdown {} blocks) trivial
  | epub spine =>
    have hpaths : ((Document.epub spine).paragraphs word).map (·.1) =
        (spine.flatMap fun item => item.paragraphs.map fun p => (item.index + 1, p.index)).map fun n =>
          [(.chapter, n.1), (.paragraph, n.2)] := by
      unfold Document.paragraphs spineTexts
      simp only [List.map_flatMap, List.map_map, Function.comp_def]
    have hkeys : ((Document.epub spine).paragraphs word).Pairwise KeysLe ↔
        (((Document.epub spine).paragraphs word).map (·.1)).Pairwise fun p q => stepsKey p ≤ stepsKey q := by
      rw [List.pairwise_map]
      rfl
    rw [hkeys, hpaths, List.pairwise_map]
    exact List.Pairwise.iff fun a b => stepsKey_le a b

/-! ## What is registered of paragraphs -/

theorem filter_numbered {α ε : Type} (p : ε → Bool) (block : Nat → α → List ε) (xs : List α) :
    (numbered block xs).filter p = numbered (fun i x => (block i x).filter p) xs := List.filter_flatMap ..

theorem map_numbered {α ε δ : Type} (f : ε → δ) (block : Nat → α → List ε) (xs : List α) :
    (numbered block xs).map f = numbered (fun i x => (block i x).map f) xs := List.map_flatMap ..

/-- There are no paragraphs under a paragraph. -/
theorem filter_sentences (paraPath : Steps) (sentences : List Text) :
    (numbered (sentencePart paraPath) sentences).filter isParagraph = [] := by
  refine List.filter_eq_nil_iff.2 fun e he => ?_
  obtain ⟨x, -, he⟩ := List.mem_flatMap.1 he
  rcases List.mem_cons.1 he with rfl | he
  · exact Bool.false_ne_true
  · obtain ⟨y, -, he⟩ := List.mem_flatMap.1 he
    rw [List.mem_singleton.1 he]
    exact Bool.false_ne_true

theorem filter_paragraphPart (secPath : Steps) (paras : List Text) :
    ((numbered (paragraphPart secPath) paras).filter isParagraph).map (·.path) = (paragraphTexts secPath paras).map (·.1) := by
  rw [filter_numbered, map_numbered, paragraphTexts, map_numbered]
  congr 1
  funext pi para
  rw [paragraphPart, List.filter_cons_of_pos rfl, filter_sentences]
  rfl

theorem filter_chapterPart (ci : Nat) (chapter : Text × Text) : ((chapterPart ci chapter).filter isParagraph).map (·.path) =
    (paragraphTexts [(.chapter, (ci : ℤ)), (.sect, 1)] (paragraphs chapter.2)).map (·.1) := by
  rw [chapterPart, List.filter_cons_of_neg Bool.false_ne_true, List.filter_cons_of_neg Bool.false_ne_true, filter_paragraphPart]

theorem filter_markdown (s : MarkdownState) (blocks : List MarkdownBlock) :
    ((markdownParts s blocks).filter isParagraph).map (·.path) = (markdownTexts s blocks).map (·.1) := by
  induction blocks generalizing s with
  | nil => rfl
  | cons block blocks ih =>
    rw [markdownParts_cons, markdownTexts, List.filter_append, List.map_append, List.map_append, ih, List.map_map]
    congr 1
    rcases (markdownStep s block).2 with _ | part
    · rfl
    · cases hpart : isParagraph part with
      | true =>
        rw [Option.filter_some_pos hpart, Option.toList_some, List.filter_cons_of_pos hpart]
        rfl
      | false =>
        rw [Option.filter_some_neg (by simp [hpart]), Option.toList_some, List.filter_cons_of_neg (by simp [hpart])]
        rfl

theorem filter_spineParts (item : EpubSpineItem) : ((spineParts item).filter isParagraph).map (·.path) = (spineTexts item).map (·.1) := by
  rw [spineParts, List.filter_cons_of_neg Bool.false_ne_true, spineTexts, List.map_map, List.filter_eq_self.2, List.map_map]
  · rfl
  · intro e he
    obtain ⟨p, -, rfl⟩ := List.mem_map.1 he
    rfl

/-- The paths of the paragraphs, in the order of their texts. -/
theorem filter_parts (word : Char → Bool) (doc : Document) :
    ((doc.parts word).filter isParagraph).map (·.path) = (doc.paragraphs word).map (·.1) := by
  cases doc with
  | txt text =>
    unfold Document.parts segmentTxt Document.paragraphs
    rw [List.filter_cons_of_neg Bool.false_ne_true, filter_numbered, map_numbered, map_numbered]
    congr 1
    funext ci chapter
    exact filter_chapterPart ci chapter
  | markdown blocks =>
    unfold Document.parts segmentMarkdown
    rw [List.filter_cons_of_neg Bool.false_ne_true]
    exact filter_markdown {} blocks
  | epub spine =>
    unfold Document.parts segmentEpub Document.paragraphs
    rw [List.filter_cons_of_neg Bool.false_ne_true, List.filter_flatMap, List.map_flatMap, List.map_flatMap]
    exact List.flatMap_congr fun item _ => filter_spineParts item

theorem inputs_eq (word : Char → Bool) (origin : Origin) (doc : Document) :
    doc.inputs word origin = (doc.parts word).map (registerPart origin) := by
  cases doc <;> rfl

variable {t : Tables} {word : Char → Bool} {origin : Origin} {doc : Document} {reported created existing : List RegisteredSegment}

/-- A segment is reported with the type and the path of its part. -/
theorem reported_parts {parts : List Part} (h : List.Forall₂ (ReportOf t) ((parts.map (registerPart origin)).map (·.toSegmentInput)) reported) :
    reported.map (fun s => (s.segmentType, s.structuralPath)) = parts.map fun part => (part.segmentType.name, pathText part.path) := by
  induction parts generalizing reported with
  | nil =>
    cases h
    rfl
  | cons part parts ih =>
    obtain ⟨r, rest, ⟨s, hs, hr⟩, hrest, rfl⟩ := List.forall₂_cons_left_iff.1 h
    obtain ⟨_, _, _, -, -, -, rfl⟩ := build_ok hs
    rw [List.map_cons, List.map_cons, ih hrest, hr]
    rfl

/-- The reported paragraphs have the paths of the texts, in their order. -/
theorem reported_paragraphs (h : List.Forall₂ (ReportOf t) ((doc.inputs word origin).map (·.toSegmentInput)) reported) :
    (reported.filter fun s => s.segmentType = "paragraph").map (·.structuralPath) = (doc.paragraphs word).map fun p => pathText p.1 := by
  rw [inputs_eq] at h
  have hpairs := congrArg (List.filter fun p : String × String => p.1 = "paragraph") (reported_parts h)
  rw [List.filter_map, List.filter_map] at hpairs
  have hpaths := congrArg (List.map Prod.snd) hpairs
  rw [List.map_map, List.map_map] at hpaths
  have hname : ∀ kind : PartKind, decide (kind.name = "paragraph") = decide (kind = .paragraph) := by
    intro kind
    cases kind <;> decide
  have hkind : ((fun p : String × String => decide (p.1 = "paragraph")) ∘ fun part : Part => (part.segmentType.name, pathText part.path)) =
      isParagraph := by
    funext part
    exact hname part.segmentType
  rw [hkind] at hpaths
  have htexts := congrArg (List.map pathText) (filter_parts word doc)
  rw [List.map_map, List.map_map] at htexts
  exact hpaths.trans htexts

/-! ## The sort -/

/-- The sort puts the paths in the order of the texts, if their keys are in order. -/
theorem paraSegs_paths (hpaths : (reported.filter fun s => s.segmentType = "paragraph").map (·.structuralPath) =
      (doc.paragraphs word).map fun p => pathText p.1)
    (hne : ∀ p ∈ doc.paragraphs word, p.1 ≠ []) (hsplit : (created ++ existing).Perm reported)
    (horder : (doc.paragraphs word).Pairwise KeysLe) :
    (paraSegs created existing).map (·.structuralPath) = (doc.paragraphs word).map fun p => pathText p.1 := by
  have hperm : ((paraSegs created existing).map (·.structuralPath)).Perm ((doc.paragraphs word).map fun p => pathText p.1) := by
    rw [← hpaths]
    exact ((List.perm_insertionSort _ _).trans (hsplit.filter _)).map _
  have hsorted : ((paraSegs created existing).map (·.structuralPath)).Pairwise fun p q => structuralPathKey p ≤ structuralPathKey q := by
    rw [List.pairwise_map]
    exact List.pairwise_insertionSort ..
  have hdoc : ((doc.paragraphs word).map fun p => pathText p.1).Pairwise fun p q => structuralPathKey p ≤ structuralPathKey q := by
    rw [List.pairwise_map]
    refine horder.imp_of_mem fun {p q} hp hq hle => ?_
    rw [structuralPathKey_pathText (hne p hp), structuralPathKey_pathText (hne q hq)]
    exact hle
  refine List.Perm.eq_of_pairwise (fun p q hp hq hpq hqp => ?_) hsorted hdoc hperm
  obtain ⟨a, ha, rfl⟩ := List.mem_map.1 (hperm.mem_iff.1 hp)
  obtain ⟨b, hb, rfl⟩ := List.mem_map.1 hq
  have hkey := le_antisymm hpq hqp
  rw [structuralPathKey_pathText (hne a ha), structuralPathKey_pathText (hne b hb)] at hkey
  rw [stepsKey_inj hkey]

/-- Keys that the sort has put in the order of the texts are in order. -/
theorem keysLe_of_paths (hne : ∀ p ∈ doc.paragraphs word, p.1 ≠ [])
    (h : (paraSegs created existing).map (·.structuralPath) = (doc.paragraphs word).map fun p => pathText p.1) :
    (doc.paragraphs word).Pairwise KeysLe := by
  have hsorted : ((paraSegs created existing).map (·.structuralPath)).Pairwise fun p q => structuralPathKey p ≤ structuralPathKey q := by
    rw [List.pairwise_map]
    exact List.pairwise_insertionSort ..
  rw [h, List.pairwise_map] at hsorted
  refine hsorted.imp_of_mem fun {p q} hp hq hle => ?_
  rw [structuralPathKey_pathText (hne p hp), structuralPathKey_pathText (hne q hq)] at hle
  exact hle

/-- No paragraph is registered under an empty path. -/
theorem paragraphs_ne (word : Char → Bool) (doc : Document) : ∀ p ∈ doc.paragraphs word, p.1 ≠ [] := by
  cases doc with
  | txt text =>
    intro p hp
    obtain ⟨x, -, hp⟩ := List.mem_flatMap.1 hp
    obtain ⟨y, -, hp⟩ := List.mem_flatMap.1 hp
    rw [List.mem_singleton.1 hp]
    exact List.cons_ne_nil _ _
  | markdown blocks =>
    intro p hp
    obtain ⟨k, n, -, -, hpath⟩ := mem_markdownTexts hp
    rw [hpath]
    exact List.cons_ne_nil _ _
  | epub spine =>
    intro p hp
    obtain ⟨item, -, hp⟩ := List.mem_flatMap.1 hp
    obtain ⟨q, -, rfl⟩ := List.mem_map.1 hp
    exact List.cons_ne_nil _ _

/-- Segments whose paths are those of the texts are paired with them. -/
theorem pairsParagraphs_of_paths (h : (paraSegs created existing).map (·.structuralPath) = (doc.paragraphs word).map fun p => pathText p.1) :
    PairsParagraphs word doc created existing := by
  have hlength : (paraSegs created existing).length = (doc.texts word).length := by
    have := congrArg List.length h
    rw [List.length_map, List.length_map] at this
    rw [this, Document.texts, List.length_map]
  have hpairs : (pairs created existing (doc.texts word)).map (fun p => (p.1.structuralPath, p.2)) =
      (doc.paragraphs word).map fun p => (pathText p.1, p.2) := by
    have hzip := @List.zip_map' _ _ _ (fun p : Steps × String => pathText p.1) (·.2) (doc.paragraphs word)
    rw [← hzip, ← h, ← Document.texts, List.zip_map_left]
    rfl
  refine ⟨hpairs, ⟨_, if_neg (not_not.2 hlength), ?_⟩, fun ids => ?_⟩
  · rw [List.map_map]
    exact hpairs
  · rw [paragraphSpans, List.map_filterMap]
    have hmap := congrArg (List.filterMap fun p : String × String => (lastValue ids p.1).map fun segId => (segId, p.2)) hpairs
    rw [List.filterMap_map, List.filterMap_map] at hmap
    refine Eq.trans (List.filterMap_congr fun p _ => ?_) hmap
    rw [Option.map_map]
    rfl

/-- What one call of `register` reports is such a split. -/
theorem registered_split {table table' : SegmentTable} {inputs : List SegmentInput} {batch : SegmentBatch}
    (h : Registered t table inputs table' batch) :
    ∃ reported, List.Forall₂ (ReportOf t) inputs reported ∧ (batch.created ++ batch.existing).Perm reported := by
  obtain ⟨reported, hreported, hcreated, hexisting⟩ := h.each
  refine ⟨reported, hreported, ?_⟩
  rw [hcreated, hexisting]
  exact List.filter_append_perm ..

/-! ## Numbers -/

theorem numberAfter_skip {name part : List Char} (h : part ≠ name) (rest : List (List Char)) :
    numberAfter name (part :: rest) = numberAfter name rest := by
  cases rest with
  | nil => rfl
  | cons number rest => rw [numberAfter, if_neg fun hand => h hand.1]

/-- The text of a number is no name. -/
theorem number_ne_name (n : ℤ) (kind : PartKind) : (toString n).toList ≠ kind.name.toList := by
  intro h
  have hall : kind.name.toList.all (fun c => isDigit c || c = '-') = true := by
    rw [← h, int_text, List.all_append, Bool.and_eq_true]
    refine ⟨by split <;> rfl, List.all_eq_true.2 fun c hc => ?_⟩
    rw [toDigits_digits _ c hc, Bool.true_or]
  revert hall
  cases kind <;> decide

/-- The number after a name is that of the first step of its kind with a number from zero on. -/
theorem numberAfter_comps (kind : PartKind) (steps : Steps) :
    numberAfter kind.name.toList (comps steps) = (steps.find? fun step => step.1 = kind && decide (0 ≤ step.2)).map (·.2.toNat) := by
  induction steps with
  | nil => rfl
  | cons step steps ih =>
    obtain ⟨kind', n⟩ := step
    have hskip := numberAfter_skip (number_ne_name n kind) (comps steps)
    change numberAfter _ (kind'.name.toList :: (toString n).toList :: comps steps) = _
    have hkey := componentKey_number n
    unfold componentKey numberKey at hkey
    by_cases hkind : kind' = kind
    · rw [numberAfter]
      split at hkey <;> split at hkey
      · cases toLex.injective hkey
      · next hdigits hn =>
        rw [if_pos ⟨by rw [hkind], hdigits⟩, List.find?_cons_of_pos (by simp [hkind, not_lt.1 hn])]
        exact congrArg some (Sum.inr.inj (toLex.injective hkey))
      · next hdigits hn =>
        rw [if_neg fun hand => hdigits hand.2, hskip, ih, List.find?_cons_of_neg (by simp [hn])]
      · cases toLex.injective hkey
    · have hname : kind'.name.toList ≠ kind.name.toList := fun h => hkind (PartKind.name_inj (String.toList_inj.1 h))
      rw [numberAfter_skip hname, hskip, ih, List.find?_cons_of_neg (by simp [hkind])]

/-- A paragraph's chapter and number are read off its path. -/
theorem numbers_pathText (c n : ℕ) : chapterNumber (pathText [(.chapter, (c : ℤ)), (.paragraph, (n : ℤ))]) = c ∧
    paragraphNumber (pathText [(.chapter, (c : ℤ)), (.paragraph, (n : ℤ))]) = n := by
  unfold chapterNumber paragraphNumber
  rw [splitOn_pathText (List.cons_ne_nil _ _)]
  constructor
  · have hchapter := numberAfter_comps .chapter [(.chapter, (c : ℤ)), (.paragraph, (n : ℤ))]
    rw [List.find?_cons_of_pos (by simp)] at hchapter
    exact congrArg (Option.getD · 1) hchapter
  · have hparagraph := numberAfter_comps .paragraph [(.chapter, (c : ℤ)), (.paragraph, (n : ℤ))]
    rw [List.find?_cons_of_neg (by simp), List.find?_cons_of_pos (by simp)] at hparagraph
    exact congrArg (Option.getD · 0) hparagraph

/-! ## Extracted documents -/

/-- The document that is segmented for an extracted EPUB. -/
def extractedDocument (doc : Epub.EpubDocument) : Document :=
  .epub (doc.spine.map fun item => { index := item.index, paragraphs := item.paragraphs.map fun p => { text := String.ofList p.text, index := p.index } })

/-- The loop over the item references numbers its items from zero on, and leaves them empty. -/
theorem spineOf_numbers {manifest : List (String × String)} {refs : List Markup.Element} {spine : List Epub.EpubSpineItem}
    (hindex : spine.map (·.index) = List.range spine.length) (hempty : ∀ item ∈ spine, item.paragraphs = []) :
    (Epub.spineOf manifest spine refs).map (·.index) = List.range (Epub.spineOf manifest spine refs).length ∧
      ∀ item ∈ Epub.spineOf manifest spine refs, item.paragraphs = [] := by
  induction refs generalizing spine with
  | nil => exact ⟨hindex, hempty⟩
  | cons ref refs ih =>
    rw [Epub.spineOf]
    split
    · refine ih ?_ fun item hitem => ?_
      · rw [List.map_append, hindex, List.length_append, List.length_singleton, List.range_succ]
        rfl
      · rcases List.mem_append.1 hitem with hitem | hitem
        · exact hempty item hitem
        · rw [List.mem_singleton.1 hitem]
    · exact ih hindex hempty

theorem collect_index (es : List Markup.Element) (item : Epub.EpubSpineItem) (paraIdx : Nat) : (Epub.collect item paraIdx es).index = item.index := by
  induction es generalizing item paraIdx with
  | nil => rfl
  | cons el rest ih =>
    rw [Epub.collect]
    split
    · exact ih ..
    · dsimp only
      split <;> exact ih ..

/-- An item that is filled keeps its number, and its paragraphs are numbered from one on. -/
theorem filled_numbers {fromstring : Epub.Bytes → Except Epub.XmlError Markup.Element} {order : Jobs.SetOrder String} {zip : Epub.Zip}
    {baseDir : String} {item result : Epub.EpubSpineItem} (h : Epub.Filled fromstring order zip baseDir item result)
    (hempty : item.paragraphs = []) :
    result.index = item.index ∧ result.paragraphs.map (·.index) = List.range' 1 result.paragraphs.length := by
  cases h with
  | unread => exact ⟨rfl, by rw [hempty]; rfl⟩
  | @read _ _ _ root hrel hmember hraw hroot =>
    refine ⟨collect_index .., ?_⟩
    obtain ⟨appended, hparagraphs, -, hindex⟩ := Epub.collect_appends root.iter { item with title := Epub.firstHeading root } 0
    rw [Epub.collectParagraphs, hparagraphs, hempty, List.nil_append]
    exact hindex

/-- The items of a package are numbered from zero on, and empty. -/
theorem package_numbers {fromstring : Epub.Bytes → Except Epub.XmlError Markup.Element} {zip : Epub.Zip} {baseDir : String}
    {package : Epub.EpubDocument} (h : Epub.openPackage fromstring zip = .ok (baseDir, package)) :
    package.spine.map (·.index) = List.range package.spine.length ∧ ∀ item ∈ package.spine, item.paragraphs = [] := by
  obtain ⟨_, -, h⟩ := bind_ok h
  obtain ⟨_, -, h⟩ := bind_ok h
  obtain ⟨opfPath, -, h⟩ := bind_ok h
  obtain ⟨raw, -, h⟩ := bind_ok h
  obtain ⟨doc, hparse, h⟩ := bind_ok h
  obtain ⟨root, -, hdoc⟩ := bind_ok hparse
  cases h
  cases hdoc
  exact spineOf_numbers rfl fun item hitem => by cases hitem

/-- Filled items are numbered as they were, and their paragraphs from one on. -/
theorem filled_all {fromstring : Epub.Bytes → Except Epub.XmlError Markup.Element} {order : Jobs.SetOrder String} {zip : Epub.Zip}
    {baseDir : String} {items results : List Epub.EpubSpineItem} (h : List.Forall₂ (Epub.Filled fromstring order zip baseDir) items results)
    (hempty : ∀ item ∈ items, item.paragraphs = []) :
    results.map (·.index) = items.map (·.index) ∧ ∀ r ∈ results, r.paragraphs.map (·.index) = List.range' 1 r.paragraphs.length := by
  induction h with
  | nil => exact ⟨rfl, fun r hr => by cases hr⟩
  | @cons item r items results hfilled _ ih =>
    obtain ⟨hindex, hparagraphs⟩ := filled_numbers hfilled (hempty item List.mem_cons_self)
    obtain ⟨hindices, hall⟩ := ih fun item' hitem => hempty item' (List.mem_cons_of_mem _ hitem)
    refine ⟨by rw [List.map_cons, List.map_cons, hindex, hindices], fun r' hr => ?_⟩
    rcases List.mem_cons.1 hr with rfl | hr
    · exact hparagraphs
    · exact hall r' hr

/-- Extracted documents are in order. -/
theorem extracted_inOrder {fromstring : Epub.Bytes → Except Epub.XmlError Markup.Element} {order : Jobs.SetOrder String} {zip : Epub.Zip}
    {doc : Epub.EpubDocument} (h : Epub.extractEpub fromstring order zip = .ok doc) : (extractedDocument doc).InOrder := by
  obtain ⟨baseDir, package, hopen, hfilled⟩ := Epub.extractEpub_filled h
  obtain ⟨hindex, hempty⟩ := package_numbers hopen
  obtain ⟨hindices, hparagraphs⟩ := filled_all hfilled hempty
  have hitems : doc.spine.Pairwise fun item item' => item.index < item'.index := by
    rw [← List.pairwise_map (f := fun item : Epub.EpubSpineItem => item.index) (R := (· < ·)), hindices, hindex]
    exact List.pairwise_lt_range
  change ((doc.spine.map _).flatMap _).Pairwise NumbersLe
  rw [List.flatMap_map, List.pairwise_flatMap]
  refine ⟨fun item hitem => ?_, hitems.imp fun {item item'} hlt a ha b hb => ?_⟩
  · have hnumbers : item.paragraphs.Pairwise fun p q => p.index < q.index := by
      rw [← List.pairwise_map (f := fun p : Epub.EpubParagraph => p.index) (R := (· < ·)), hparagraphs item hitem]
      exact List.pairwise_lt_range'
    rw [List.pairwise_map, List.pairwise_map]
    exact hnumbers.imp fun hlt => .inr ⟨rfl, numberKey_le.2 hlt.le⟩
  · obtain ⟨p, -, rfl⟩ := List.mem_map.1 ha
    obtain ⟨q, -, rfl⟩ := List.mem_map.1 hb
    have hchapters : numberKey ((item.index + 1 : ℕ) : ℤ) < numberKey ((item'.index + 1 : ℕ) : ℤ) := numberKey_lt.2 (by omega)
    rw [Nat.cast_add, Nat.cast_add] at hchapters
    exact .inl hchapters

/-! ## All documents -/

/-- Every part of a document is accepted like the page: the digest of the tables is the same for all. -/
theorem part_accepted (part : Part) : Accepted asciiTables (registerPart textOrigin part).toSegmentInput := by
  refine ⟨pageInput_accepted.digest, pageInput_accepted.source, pageInput_accepted.modality, fun identity segmentId _ hseg => ?_, ?_⟩
  · have hsame : deterministicSegmentId asciiTables identity (registerPart textOrigin part).modality (registerPart textOrigin part).structuralPath =
        deterministicSegmentId asciiTables ("source:" ++ (pageInput "text").sourceSha512) "text" "page/1" := rfl
    exact pageInput_accepted.segment _ segmentId (canonicalIdentity_page "text") (hsame ▸ hseg)
  · unfold registerPart
    dsimp only
    split <;> rfl

/-- What is reported of accepted inputs. -/
theorem exists_reports {inputs : List SegmentInput} (h : ∀ inp ∈ inputs, Accepted t inp) : ∃ reported, List.Forall₂ (ReportOf t) inputs reported := by
  induction inputs with
  | nil => exact ⟨[], .nil⟩
  | cons inp inputs ih =>
    obtain ⟨s, hs⟩ := (build_iff inp).2 (h inp List.mem_cons_self)
    obtain ⟨reported, hreported⟩ := ih fun inp' hinp => h inp' (List.mem_cons_of_mem _ hinp)
    exact ⟨s :: reported, .cons ⟨s, hs, rfl⟩ hreported⟩

theorem document_accepted (doc : Document) : ∃ reported, List.Forall₂ (ReportOf asciiTables)
    ((doc.inputs asciiWord textOrigin).map (·.toSegmentInput)) reported := by
  refine exists_reports fun inp hinp => ?_
  rw [inputs_eq, List.map_map] at hinp
  obtain ⟨part, -, rfl⟩ := List.mem_map.1 hinp
  exact part_accepted part

/-- Where all reported segments are paired, the numbers are in order. -/
theorem inOrder_of_pairs (h : List.Forall₂ (ReportOf t) ((doc.inputs word origin).map (·.toSegmentInput)) reported)
    (hpairs : PairsParagraphs word doc reported []) : doc.InOrder := by
  have hperm : (paraSegs reported []).Perm (reported.filter fun s => s.segmentType = "paragraph") := by
    rw [paraSegs, List.append_nil]
    exact List.perm_insertionSort ..
  have hlength : (paraSegs reported []).length = (doc.texts word).length := by
    have := congrArg List.length (reported_paragraphs h)
    rw [List.length_map, List.length_map] at this
    rw [hperm.length_eq, this, Document.texts, List.length_map]
  have hpaths := congrArg (List.map Prod.fst) hpairs.pairs
  rw [List.map_map, List.map_map] at hpaths
  rw [← keysLe_iff word]
  refine @keysLe_of_paths _ _ reported [] (paragraphs_ne word doc) (Eq.trans ?_ hpaths)
  rw [← List.map_fst_zip hlength.le, List.map_map]
  rfl

/-- **However the segments of a document are split and ordered, each paragraph is paired with its segment if and only if the
numbers of the document never go back in reading order.** -/
theorem pairsParagraphs_iff (h : List.Forall₂ (ReportOf t) ((doc.inputs word origin).map (·.toSegmentInput)) reported) :
    (∀ created existing, (created ++ existing).Perm reported → PairsParagraphs word doc created existing) ↔ doc.InOrder := by
  constructor
  · exact fun hall => inOrder_of_pairs h (hall reported [] (by rw [List.append_nil]))
  · intro horder created existing hsplit
    have hkeys := (keysLe_iff word doc).2 horder
    exact pairsParagraphs_of_paths (paraSegs_paths (reported_paragraphs h) (paragraphs_ne word doc) hsplit hkeys)

theorem pairsParagraphs_iff_txt : ∃ reported, List.Forall₂ (ReportOf asciiTables)
      (((Document.txt "Loomings".toList).inputs asciiWord textOrigin).map (·.toSegmentInput)) reported ∧
    ∀ created existing, (created ++ existing).Perm reported → PairsParagraphs asciiWord (.txt "Loomings".toList) created existing := by
  obtain ⟨reported, hreported⟩ := document_accepted (.txt "Loomings".toList)
  exact ⟨reported, hreported, (pairsParagraphs_iff hreported).2 trivial⟩

/-- A document whose second item is numbered first. -/
def turnedSpine : Document := .epub [⟨1, [⟨"The Carpet-Bag", 1⟩]⟩, ⟨0, [⟨"Loomings", 1⟩]⟩]

/-- The text of the item that is numbered second gets the segment of the first. -/
theorem turnedSpine_not_paired : ∃ reported, List.Forall₂ (ReportOf asciiTables)
      ((turnedSpine.inputs asciiWord textOrigin).map (·.toSegmentInput)) reported ∧ ¬ PairsParagraphs asciiWord turnedSpine reported [] := by
  obtain ⟨reported, hreported⟩ := document_accepted turnedSpine
  refine ⟨reported, hreported, fun h => ?_⟩
  have hle : NumbersLe (2, 1) (1, 1) := (List.pairwise_cons.1 (inOrder_of_pairs hreported h)).1 _ List.mem_cons_self
  rcases hle with hlt | ⟨heq, -⟩
  · exact absurd (@numberKey_lt 2 1 |>.1 hlt) (by decide)
  · exact absurd (numberKey_inj heq) (by decide)

/-! ## From the container to the analysis -/

/-- A call that returns has registered its inputs. -/
theorem registered_of_ok {table table' : SegmentTable} {inputs : List SegmentInput} {batch : SegmentBatch}
    (h : register t table inputs = (table', .ok batch)) : Registered t table inputs table' batch := by
  rcases built_or_refused (t := t) inputs with ⟨segs, hsegs⟩ | ⟨pre, bad, post, segs, e, rfl, hsegs, hbad⟩
  · rw [register_ok hsegs] at h
    cases h
    exact registered_of_built hsegs table
  · rw [register_error hsegs hbad] at h
    cases h

/-- The numbers that are read off the path of a paragraph of an EPUB are those it was extracted with. -/
theorem epub_numbers {doc : Epub.EpubDocument} {segs : List ParagraphSegment}
    (hnumbers : ∀ s ∈ segs, s.chapter = chapterNumber s.structuralPath ∧ s.paragraphIndex = paragraphNumber s.structuralPath)
    (hpaths : segs.map (fun s => (s.structuralPath, s.text)) =
      ((extractedDocument doc).paragraphs word).map fun p => (pathText p.1, p.2)) :
    segs.map (fun s => (s.chapter, s.paragraphIndex, s.text)) =
      doc.spine.flatMap fun item => item.paragraphs.map fun p => (item.index + 1, p.index, String.ofList p.text) := by
  have hread := congrArg (List.map fun p : String × String => (chapterNumber p.1, paragraphNumber p.1, p.2)) hpaths
  rw [List.map_map, List.map_map] at hread
  calc segs.map (fun s => (s.chapter, s.paragraphIndex, s.text))
      = segs.map ((fun p : String × String => (chapterNumber p.1, paragraphNumber p.1, p.2)) ∘ fun s => (s.structuralPath, s.text)) := by
        refine List.map_congr_left fun s hs => ?_
        obtain ⟨hchapter, hparagraph⟩ := hnumbers s hs
        rw [hchapter, hparagraph]
        rfl
    _ = _ := hread
    _ = _ := by
        unfold extractedDocument Document.paragraphs spineTexts
        simp only [List.flatMap_map, List.map_flatMap, List.map_map]
        refine List.flatMap_congr fun item _ => List.map_congr_left fun p _ => ?_
        obtain ⟨hchapter, hparagraph⟩ := numbers_pathText (item.index + 1) p.index
        push_cast at hchapter hparagraph
        simp only [Function.comp, hchapter, hparagraph]

/-- What is analysed has the numbers of its paths. -/
theorem paragraphSegments_numbers {paragraphs : List String} {segs : List ParagraphSegment}
    (h : paragraphSegments created existing paragraphs = .ok segs) :
    ∀ s ∈ segs, s.chapter = chapterNumber s.structuralPath ∧ s.paragraphIndex = paragraphNumber s.structuralPath := by
  unfold paragraphSegments at h
  split at h
  · cases h
  · cases h
    intro s hs
    obtain ⟨p, -, rfl⟩ := List.mem_map.1 hs
    exact ⟨rfl, rfl⟩

/-- **Whenever an extracted EPUB is registered, what is analysed is its paragraphs, in their order and with their own numbers, and
each is paired with its segment.** -/
theorem extracted_paired {fromstring : Epub.Bytes → Except Epub.XmlError Markup.Element} {order : Jobs.SetOrder String} {zip : Epub.Zip}
    {doc : Epub.EpubDocument} (hextract : Epub.extractEpub fromstring order zip = .ok doc) {table table' : SegmentTable}
    {batch : SegmentBatch}
    (hregister : register t table (((extractedDocument doc).inputs word origin).map (·.toSegmentInput)) = (table', .ok batch)) :
    PairsParagraphs word (extractedDocument doc) batch.created batch.existing ∧
    ∃ segs, paragraphSegments batch.created batch.existing ((extractedDocument doc).texts word) = .ok segs ∧
      segs.map (fun s => (s.chapter, s.paragraphIndex, s.text)) =
        doc.spine.flatMap fun item => item.paragraphs.map fun p => (item.index + 1, p.index, String.ofList p.text) := by
  obtain ⟨reported, hreported, hsplit⟩ := registered_split (registered_of_ok hregister)
  have hkeys := (keysLe_iff word (extractedDocument doc)).2 (extracted_inOrder hextract)
  have hpairs : PairsParagraphs word (extractedDocument doc) batch.created batch.existing :=
    pairsParagraphs_of_paths (paraSegs_paths (reported_paragraphs hreported) (paragraphs_ne word _) hsplit hkeys)
  refine ⟨hpairs, ?_⟩
  obtain ⟨segs, hsegs, hpaths⟩ := hpairs.analysed
  exact ⟨segs, hsegs, epub_numbers (paragraphSegments_numbers hsegs) hpaths⟩

/-- Registering an accepted document returns. -/
theorem register_returns (doc : Document) (table : SegmentTable) :
    ∃ table' batch, register asciiTables table ((doc.inputs asciiWord textOrigin).map (·.toSegmentInput)) = (table', .ok batch) := by
  have hall : ∀ inp ∈ (doc.inputs asciiWord textOrigin).map (·.toSegmentInput), Accepted asciiTables inp := by
    intro inp hinp
    rw [inputs_eq, List.map_map] at hinp
    obtain ⟨part, -, rfl⟩ := List.mem_map.1 hinp
    exact part_accepted part
  rcases built_or_refused (t := asciiTables) ((doc.inputs asciiWord textOrigin).map (·.toSegmentInput)) with
    ⟨segs, hsegs⟩ | ⟨pre, bad, post, segs, e, heq, hsegs, hbad⟩
  · exact ⟨_, _, register_ok hsegs table⟩
  · rw [heq] at hall
    exact absurd (hall bad (by simp)) (not_accepted hbad)

theorem extracted_paired_one : ∃ table batch segs,
    register asciiTables [] (((extractedDocument { spine := [Epub.collectParagraphs (Epub.page "One.") ⟨"c", "c.xhtml", 0, [], none⟩] }).inputs
      asciiWord textOrigin).map (·.toSegmentInput)) = (table, .ok batch) ∧
    paragraphSegments batch.created batch.existing ["One."] = .ok segs ∧
    segs.map (fun s => (s.chapter, s.paragraphIndex, s.text)) = [(1, 1, "One.")] := by
  obtain ⟨table, batch, hregister⟩ := register_returns
    (extractedDocument { spine := [Epub.collectParagraphs (Epub.page "One.") ⟨"c", "c.xhtml", 0, [], none⟩] }) []
  obtain ⟨segs, hsegs, hnumbers⟩ := (extracted_paired (@Epub.twoZip_extracted "a/c.xhtml"
    (Epub.collectParagraphs (Epub.page "One.") ⟨"c", "c.xhtml", 0, [], none⟩)
    (by decide +kernel) (by decide +kernel) (by decide +kernel)) hregister).2
  exact ⟨table, batch, segs, hregister, hsegs, hnumbers⟩

end Umd.Segmentation
