import Umd.Lib.Splits
import Umd.Projections.Search
/-!
# Chapters, paragraphs and sentences of a plain text

`_chapter_boundaries` splits a text at its chapter headers, `_paragraphs` and
`split_sentences` split what it finds. The splits lose nothing but spaces; the chapters
lose a line just where the text ends with a header that opened a chapter
(`chapters_iff`).
-/

namespace Umd.Segmentation

open Umd.Lib.Splits Umd.Projections

/-- A text, as its characters. -/
abbrev Text := List Char

/-- `[0-9ivxlcdm]`, in either case; the dotless and the dotted `i` are among them. -/
def isNumeral (c : Char) : Bool := c.isDigit || c.toLower ∈ "ivxlcdm".toList || c = '\u0130' || c = '\u0131'

/-- `_CHAPTER_RE.match`; `word` says which characters are `\w`. -/
def isHeader (word : Char → Bool) (line : Text) : Bool :=
  let rest := line.dropWhile isSpace
  let number := (rest.drop 7).dropWhile isSpace
  (rest.take 7).map Char.toLower = "chapter".toList && (rest.drop 7).head?.any isSpace && number.head?.any isNumeral &&
    (number.dropWhile isNumeral).head?.all fun c => !word c

/-- What the loop over the lines has: the chapters, and the title and the lines of the one that is open. -/
structure ChapterState where
  chapters : List (Text × Text) := []
  title : Text := "Chapter 1".toList
  current : List Text := []

/-- `any(c.strip() for c in current_lines)` -/
def ChapterState.opened (s : ChapterState) : Bool := s.current.any fun line => !blank isSpace line

/-- The chapters, with the one that is open. -/
def ChapterState.close (s : ChapterState) : List (Text × Text) := s.chapters ++ [(s.title, trim isSpace (['\n'].intercalate s.current))]

/-- One line. -/
def chapterStep (header : Text → Bool) (s : ChapterState) (line : Text) : ChapterState :=
  if header line && s.opened then { chapters := s.close, title := trim isSpace line, current := [] }
  else { s with current := s.current ++ [line] }

/-- `_chapter_boundaries`. -/
def chapterBoundaries (header : Text → Bool) (text : Text) : List (Text × Text) :=
  let s := (text.splitOn '\n').foldl (chapterStep header) {}
  let chapters := if s.opened then s.close else s.chapters
  if chapters = [] then [("Chapter 1".toList, trim isSpace text)] else chapters

/-- `\n\s*\n`: from a newline to the last one in the spaces after it. -/
def paragraphBreak (_ : Option Char) : Text → Option Nat
  | '\n' :: cs =>
    let run := cs.takeWhile isSpace
    if '\n' ∈ run then some (1 + (run.reverse.dropWhile (· ≠ '\n')).length) else none
  | _ => none

/-- `(?<=[.!?])\s+|\n` -/
def sentenceBreak (prev : Option Char) : Text → Option Nat
  | [] => none
  | c :: cs =>
    if (prev.any fun d => d = '.' || d = '!' || d = '?') && isSpace c then some (1 + (cs.takeWhile isSpace).length)
    else if c = '\n' then some 1 else none

/-- `_paragraphs`. -/
def paragraphs (text : Text) : List Text := ((splitAll paragraphBreak text).map (trim isSpace)).filter (· ≠ [])

/-- `split_sentences`. -/
def splitSentences (paragraph : Text) : List Text :=
  let out := ((splitAll sentenceBreak paragraph).map (trim isSpace)).filter (· ≠ [])
  if out = [] then [paragraph] else out

/-! ## What is kept -/

/-- The lines of a text that are not blank. -/
def textLines (text : Text) : List Text := lines isSpace '\n' text

/-- The lines that chapters are made of: the first one's title is no line, the others' are. -/
def linesOf : List (Text × Text) → List Text
  | [] => []
  | (_, body) :: chapters => textLines body ++ chapters.flatMap fun chapter => chapter.1 :: textLines chapter.2

/-- Each line that is not blank is a title or in a body, and what is no space in a body is in its paragraphs and sentences. -/
structure Segmented (header : Text → Bool) (text : Text) : Prop where
  lines : linesOf (chapterBoundaries header text) = textLines text
  inParagraphs : ∀ chapter ∈ chapterBoundaries header text, solid isSpace (paragraphs chapter.2).flatten = solid isSpace chapter.2
  inSentences : ∀ chapter ∈ chapterBoundaries header text,
    solid isSpace ((paragraphs chapter.2).flatMap splitSentences).flatten = solid isSpace chapter.2

/-- Which lines are headers. -/
def headers (header : Text → Bool) (text : Text) : List Bool :=
  ((text.splitOn '\n').filter fun line => !blank isSpace line).map header

/-- How many headers end the text. -/
def lastHeaders (flags : List Bool) : Nat := (flags.reverse.takeWhile id).length

/-- The text does not end with a header that opens a chapter: after another line their number is even, and it is odd where
all lines are headers. -/
def EndsInBody (flags : List Bool) : Prop := flags = [] ∨ lastHeaders flags % 2 = if false ∈ flags then 0 else 1

/-! ## The splits -/

theorem takeWhile_spaces (cs : Text) : ∀ c ∈ cs.takeWhile isSpace, isSpace c = true := fun _ => List.mem_takeWhile_imp

theorem paragraphBreak_space : MatchesSpace isSpace paragraphBreak := by
  intro prev cs n h
  unfold paragraphBreak at h
  split at h
  · rename_i cs
    dsimp only at h
    split at h
    · cases h
      intro c hc
      rw [Nat.add_comm, List.take_succ_cons, List.mem_cons] at hc
      rcases hc with rfl | hc
      · rfl
      · have hlen : ((cs.takeWhile isSpace).reverse.dropWhile (· ≠ '\n')).length ≤ (cs.takeWhile isSpace).length := by
          simpa using (List.dropWhile_suffix (l := (cs.takeWhile isSpace).reverse) (· ≠ '\n')).length_le
        refine takeWhile_spaces cs c ?_
        have hprefix : cs.take ((cs.takeWhile isSpace).reverse.dropWhile (· ≠ '\n')).length <+: cs.takeWhile isSpace :=
          List.prefix_of_prefix_length_le (List.take_prefix ..) (List.takeWhile_prefix _) (by
            rw [List.length_take]
            omega)
        exact hprefix.subset hc
    · cases h
  · cases h

theorem sentenceBreak_space : MatchesSpace isSpace sentenceBreak := by
  intro prev cs n h
  unfold sentenceBreak at h
  split at h
  · cases h
  · rename_i c cs
    split at h
    · rename_i hspace
      cases h
      intro d hd
      rw [Nat.add_comm, List.take_succ_cons, List.mem_cons] at hd
      rcases hd with rfl | hd
      · exact (Bool.and_eq_true_iff.1 hspace).2
      · have htake : cs.take (cs.takeWhile isSpace).length = cs.takeWhile isSpace :=
          List.prefix_iff_eq_take.1 (List.takeWhile_prefix _) |>.symm
        rw [htake] at hd
        exact takeWhile_spaces cs d hd
    · split at h
      · rename_i hc
        cases h
        intro d hd
        rw [List.take_succ_cons, List.take_zero, List.mem_singleton] at hd
        rw [hd, hc]
        rfl
      · cases h

theorem solid_paragraphs (text : Text) : solid isSpace (paragraphs text).flatten = solid isSpace text := by
  unfold paragraphs
  rw [solid_parts, solid_splitAll paragraphBreak_space]

theorem solid_splitSentences (paragraph : Text) : solid isSpace (splitSentences paragraph).flatten = solid isSpace paragraph := by
  unfold splitSentences
  dsimp only
  split
  · simp
  · rw [solid_parts, solid_splitAll sentenceBreak_space]

theorem solid_append (ds es : Text) : solid isSpace (ds ++ es) = solid isSpace ds ++ solid isSpace es := List.filter_append ..

theorem solid_sentences (text : Text) : solid isSpace ((paragraphs text).flatMap splitSentences).flatten = solid isSpace text := by
  rw [← solid_paragraphs text]
  induction paragraphs text with
  | nil => rfl
  | cons p ps ih => rw [List.flatMap_cons, List.flatten_append, solid_append, ih, solid_splitSentences, List.flatten_cons, solid_append]

/-! ## The loop over the lines -/

theorem isHeader_blank {word : Char → Bool} {line : Text} (h : isHeader word line = true) : blank isSpace line = false := by
  by_contra hblank
  rw [Bool.not_eq_false] at hblank
  have hnil : line.dropWhile isSpace = [] := List.dropWhile_eq_nil_iff.2 (List.all_eq_true.1 hblank)
  unfold isHeader at h
  rw [hnil] at h
  cases h

/-- The lines that the chapters have, with the one that is open. -/
def emitted (s : ChapterState) : List Text :=
  linesOf s.chapters ++ (if s.chapters = [] then [] else [s.title]) ++
    (s.current.filter fun line => !blank isSpace line).map (trim isSpace)

theorem linesOf_snoc (chapters : List (Text × Text)) (title body : Text) : linesOf (chapters ++ [(title, body)]) =
    linesOf chapters ++ (if chapters = [] then [] else [title]) ++ textLines body := by
  cases chapters with
  | nil => simp [linesOf]
  | cons chapter chapters => simp [linesOf]

/-- A chapter that is closed has the lines it was opened with. -/
theorem linesOf_close {s : ChapterState} (hplain : ∀ line ∈ s.current, '\n' ∉ line) : linesOf s.close = emitted s := by
  unfold ChapterState.close emitted
  rw [linesOf_snoc]
  unfold textLines
  rw [lines_trim, lines_intercalate hplain]

section

variable {header : Text → Bool} (hheader : ∀ line, header line = true → blank isSpace line = false)

include hheader

/-- What one line adds. -/
theorem chapterStep_spec {s : ChapterState} (hplain : ∀ line ∈ s.current, '\n' ∉ line) {line : Text} (hline : '\n' ∉ line) :
    (∀ l ∈ (chapterStep header s line).current, '\n' ∉ l) ∧
    emitted (chapterStep header s line) = emitted s ++ (if blank isSpace line then [] else [trim isSpace line]) ∧
    (chapterStep header s line).opened = if blank isSpace line then s.opened else !(header line && s.opened) := by
  unfold chapterStep
  by_cases hopens : (header line && s.opened) = true
  · have hblank := hheader line (Bool.and_eq_true_iff.1 hopens).1
    rw [if_pos hopens, hblank, hopens]
    refine ⟨by simp, ?_, rfl⟩
    have hclose : s.close ≠ [] := by simp [ChapterState.close]
    rw [← linesOf_close hplain]
    simp [emitted, hclose]
  · rw [if_neg hopens]
    refine ⟨fun l hl => ?_, ?_, ?_⟩
    · rcases List.mem_append.1 hl with hl | hl
      · exact hplain l hl
      · rw [List.mem_singleton.1 hl]
        exact hline
    · unfold emitted
      cases hblank : blank isSpace line <;> simp [hblank]
    · rw [Bool.not_eq_true] at hopens
      unfold ChapterState.opened at hopens ⊢
      cases hblank : blank isSpace line <;> simp [hblank, hopens]

/-- Whether a chapter with lines is open after these flags. -/
def openedAfter (flags : List Bool) : Bool := flags.foldl (fun opened flag => !(flag && opened)) false

/-- What the loop has after some lines. -/
theorem chapterLoop_spec (ls : List Text) (hls : ∀ line ∈ ls, '\n' ∉ line) :
    let s := ls.foldl (chapterStep header) {}
    (∀ l ∈ s.current, '\n' ∉ l) ∧ emitted s = (ls.filter fun line => !blank isSpace line).map (trim isSpace) ∧
      s.opened = openedAfter ((ls.filter fun line => !blank isSpace line).map header) := by
  induction ls using List.reverseRecOn with
  | nil => exact ⟨nofun, rfl, rfl⟩
  | append_singleton ls line ih =>
    obtain ⟨hplain, hemitted, hopened⟩ := ih fun l hl => hls l (List.mem_append_left _ hl)
    obtain ⟨hplain', hemitted', hopened'⟩ := chapterStep_spec hheader hplain (hls line (by simp))
    dsimp only
    rw [List.foldl_append, List.foldl_cons, List.foldl_nil]
    refine ⟨hplain', ?_, ?_⟩
    · rw [hemitted', hemitted, List.filter_append, List.map_append]
      cases hblank : blank isSpace line <;> simp [hblank]
    · rw [hopened', hopened, List.filter_append, List.map_append]
      cases hblank : blank isSpace line <;> simp [hblank, openedAfter]

end

/-- A header that follows another line, or a header that has been taken for one, opens a chapter; so their number counts. -/
theorem openedAfter_iff (flags : List Bool) :
    openedAfter flags = true ↔ lastHeaders flags % 2 = if false ∈ flags then 0 else 1 := by
  induction flags using List.reverseRecOn with
  | nil => simp [openedAfter, lastHeaders]
  | append_singleton flags flag ih =>
    have hstep : openedAfter (flags ++ [flag]) = !(flag && openedAfter flags) := by simp [openedAfter]
    cases flag with
    | false => simp [hstep, lastHeaders]
    | true =>
      have hlast : lastHeaders (flags ++ [true]) = lastHeaders flags + 1 := by simp [lastHeaders]
      rw [hstep, hlast, Bool.true_and, Bool.not_eq_true', ← Bool.not_eq_true, ih]
      simp only [List.mem_append, List.mem_singleton, Bool.false_eq_true, or_false]
      split <;> omega

/-- The chapters have the lines of the text, unless it ends with a header that opens one. -/
theorem linesOf_boundaries {header : Text → Bool} (hheader : ∀ line, header line = true → blank isSpace line = false) (text : Text) :
    linesOf (chapterBoundaries header text) = textLines text ↔ headers header text = [] ∨ openedAfter (headers header text) = true := by
  obtain ⟨hplain, hemitted, hopened⟩ := chapterLoop_spec hheader (text.splitOn '\n') fun _ hline => not_mem_splitOn hline
  have hempty : headers header text = [] ↔ textLines text = [] := by
    unfold headers textLines lines
    rw [List.map_eq_nil_iff, List.map_eq_nil_iff]
  change emitted _ = textLines text at hemitted
  change _ = openedAfter (headers header text) at hopened
  unfold chapterBoundaries
  dsimp only
  generalize (text.splitOn '\n').foldl (chapterStep header) {} = s at hplain hemitted hopened
  rw [hempty, ← hopened]
  cases hs : s.opened with
  | true =>
    have hclose : s.close ≠ [] := by simp [ChapterState.close]
    rw [if_pos rfl, if_neg hclose, linesOf_close hplain]
    exact iff_of_true hemitted (.inr rfl)
  | false =>
    have hcurrent : (s.current.filter fun line => !blank isSpace line) = [] := by
      rw [List.filter_eq_nil_iff]
      intro line hline hsolid
      unfold ChapterState.opened at hs
      exact List.any_eq_false.1 hs line hline hsolid
    unfold emitted at hemitted
    rw [hcurrent, List.map_nil, List.append_nil] at hemitted
    rw [if_neg Bool.false_ne_true]
    by_cases hchapters : s.chapters = []
    · rw [hchapters, if_pos rfl] at hemitted
      rw [if_pos hchapters]
      refine iff_of_true ?_ (.inl hemitted.symm)
      exact (List.append_nil _).trans (lines_trim text)
    · rw [if_neg hchapters] at hemitted
      rw [if_neg hchapters, ← hemitted]
      simp

/-- **A plain text is segmented without loss if and only if it does not end with a header that opens a chapter.** -/
theorem chapters_iff (word : Char → Bool) (text : Text) :
    Segmented (isHeader word) text ↔ EndsInBody (headers (isHeader word) text) := by
  unfold EndsInBody
  rw [← openedAfter_iff, ← linesOf_boundaries (fun _ => isHeader_blank)]
  exact ⟨fun h => h.lines, fun h => ⟨h, fun _ _ => solid_paragraphs _, fun _ _ => solid_sentences _⟩⟩

/-- The last line is a header, and is in no chapter. -/
theorem last_header_lost : ¬ Segmented (isHeader fun c => c.isAlphanum || c = '_') "Call me Ishmael.\nChapter 2".toList := by
  rintro ⟨hlines, -, -⟩
  revert hlines
  decide +kernel

end Umd.Segmentation
