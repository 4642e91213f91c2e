import Umd.Lib.Markup
import Umd.Projections.Search
/-!
# The paragraphs of EPUB documents

`extractors/epub.py`: the walk over all elements of a spine document takes the whole text of
each block element for a paragraph. The paragraphs are numbered from one, and hold what is in
block elements exactly once if and only if no block element with a text lies in another
(`paragraphs_iff`).
-/

namespace Umd.Epub

open Umd.Lib.Splits Umd.Lib.Markup Umd.Projections

/-- `EpubParagraph` -/
structure EpubParagraph where
  text : List Char
  index : Nat
  tag : String := "p"
  cfi : Option String := none
  deriving DecidableEq, Repr

/-- `EpubSpineItem` -/
structure EpubSpineItem where
  idref : String
  href : String
  index : Nat
  paragraphs : List EpubParagraph := []
  title : Option (List Char) := none
  deriving DecidableEq, Repr

/-- `_XHTML`: the namespace in braces. -/
def xhtml : String := "\x7bhttp://www.w3.org/1999/xhtml\x7d"

/-- `_BLOCK_TAGS` -/
def blockTags : List String := ["p", "h1", "h2", "h3", "h4", "h5", "h6", "li", "blockquote", "td"]

/-- `el.tag[len(_XHTML):] if el.tag.startswith(_XHTML) else None` -/
def xhtmlName (tag : String) : Option String :=
  if xhtml.toList.isPrefixOf tag.toList then some (String.ofList (tag.toList.drop xhtml.length)) else none

/-- The name of a block element. -/
def blockName (tag : String) : Option String := (xhtmlName tag).filter fun name => name ∈ blockTags

/-- Block elements have a block name. -/
def isBlock (tag : String) : Bool := (blockName tag).isSome

/-- `build_cfi` -/
def buildCfi (spineIndex : Nat) (idref : String) (paragraphIndex : Nat) : String :=
  let base := "/6/" ++ toString (spineIndex + 2) ++ "[" ++ idref ++ "]"
  if paragraphIndex = 0 then "epubcfi(" ++ base ++ "!/4/)"
  else "epubcfi(" ++ base ++ "!/4/2/" ++ toString paragraphIndex ++ ")"

/-- `" ".join(text.split())` -/
def normalized (text : List Char) : List Char := [' '].intercalate (words isSpace text)

/-- The loop of `_collect_paragraphs` over the elements; `paraIdx` is the number of the last paragraph. -/
def collect (item : EpubSpineItem) (paraIdx : Nat) : List Element → EpubSpineItem
  | [] => item
  | el :: rest =>
    match blockName el.tag with
    | none => collect item paraIdx rest
    | some tag =>
      let text := normalized el.itertext
      if text = [] then collect item paraIdx rest
      else
        let paragraph := { text, index := paraIdx + 1, tag, cfi := some (buildCfi item.index item.idref (paraIdx + 1)) }
        collect { item with paragraphs := item.paragraphs ++ [paragraph] } (paraIdx + 1) rest

/-- `_collect_paragraphs` -/
def collectParagraphs (root : Element) (item : EpubSpineItem) : EpubSpineItem := collect item 0 root.iter

/-- The paragraphs that are appended hold what is in block elements, once and in order, and are numbered from one. -/
def HoldsBlocks (root : Element) (item : EpubSpineItem) : Prop :=
  ∃ appended, (collectParagraphs root item).paragraphs = item.paragraphs ++ appended ∧
    solid isSpace (appended.flatMap (·.text)) = solid isSpace (root.textIn isBlock) ∧
    appended.map (·.index) = List.range' 1 appended.length

theorem isSpace_blank : isSpace ' ' = true := by decide

theorem texts_cons (e : Element) (es : List Element) :
    texts isBlock (e :: es) = (if isBlock e.tag then e.itertext else []) ++ texts isBlock es := by
  cases hblock : isBlock e.tag with
  | true => rw [texts_cons_pos hblock, if_pos rfl]
  | false => rw [texts_cons_neg hblock, if_neg Bool.false_ne_true, List.nil_append]

/-- What the loop appends: the texts of the block elements among the rest, numbered on. -/
theorem collect_appends (es : List Element) (item : EpubSpineItem) (paraIdx : Nat) :
    ∃ appended, (collect item paraIdx es).paragraphs = item.paragraphs ++ appended ∧
      solid isSpace (appended.flatMap (·.text)) = solid isSpace (texts isBlock es) ∧
      appended.map (·.index) = List.range' (paraIdx + 1) appended.length := by
  induction es generalizing item paraIdx with
  | nil => exact ⟨[], (List.append_nil _).symm, rfl, rfl⟩
  | cons el rest ih =>
    rw [collect, texts_cons, isBlock]
    cases hblock : blockName el.tag with
    | none => exact ih item paraIdx
    | some tag =>
      dsimp only
      rw [Option.isSome_some, if_pos rfl, solid_append]
      split
      · next hempty =>
        have hnone : solid isSpace el.itertext = [] := solid_eq_nil.2 ((join_words_eq_nil isSpace_blank _).1 hempty)
        rw [hnone]
        exact ih item paraIdx
      · obtain ⟨appended, hparagraphs, htext, hindex⟩ := ih _ (paraIdx + 1)
        refine ⟨_ :: appended, by rw [hparagraphs, List.append_assoc]; rfl, ?_, ?_⟩
        · rw [List.flatMap_cons, solid_append, htext]
          exact congrArg (· ++ _) (solid_join_words isSpace_blank _)
        · rw [List.map_cons, hindex, List.length_cons, List.range'_succ]

/-- **The paragraphs hold what is in block elements exactly once and in order if and only if no block element with more than
spaces lies in another.** -/
theorem paragraphs_iff (root : Element) (item : EpubSpineItem) :
    HoldsBlocks root item ↔ Flat isBlock isSpace root.iter := by
  obtain ⟨appended, hparagraphs, htext, hindex⟩ := collect_appends root.iter item 0
  rw [← solid_texts_iff]
  constructor
  · rintro ⟨appended', hparagraphs', htext', -⟩
    rw [collectParagraphs, hparagraphs] at hparagraphs'
    rw [← htext, List.append_cancel_left hparagraphs', htext']
  · exact fun h => ⟨appended, hparagraphs, htext.trans h, hindex⟩

/-- A quotation with one paragraph in it. -/
def quotation : Element where
  tag := xhtml ++ "blockquote"
  attrib := []
  text := []
  children := .more (xhtml ++ "p") [] "Elementary.".toList .none [] .none

/-- The paragraph of the quotation is there twice. -/
theorem quoted_twice : ¬ HoldsBlocks quotation ⟨"c1", "c1.xhtml", 0, [], none⟩ ∧
    (collectParagraphs quotation ⟨"c1", "c1.xhtml", 0, [], none⟩).paragraphs.map (·.text) =
      ["Elementary.".toList, "Elementary.".toList] := by
  refine ⟨?_, by decide +kernel⟩
  rintro ⟨appended, hparagraphs, htext, -⟩
  rw [List.nil_append] at hparagraphs
  rw [← hparagraphs] at htext
  revert htext
  decide +kernel

end Umd.Epub
