import Umd.Lib.Splits
import Umd.Projections.Search
/-!
# Markdown blocks

`extractors/markdown.py`: the loop over the lines of a text makes headings, quotes, images,
list items, code blocks and paragraphs of them. A scanner that reads each line once says what
a text has to keep: all but fenced code, image syntax and the markers of lists. The blocks
have every letter and digit of it if and only if no list item begins with a digit after its
marker and no letter or digit follows an image (`keeps_iff`).
-/

namespace Umd.Markdown

open Umd.Lib.Splits Umd.Projections

abbrev Text := List Char

inductive BlockKind
  | heading
  | paragraph
  | image
  | blockquote
  | code
  | list
  deriving DecidableEq, Repr

/-- `MarkdownBlock` -/
structure MarkdownBlock where
  kind : BlockKind
  text : Text := []
  level : Option Nat := none
  imageSrc : Option Text := none
  imageAlt : Option Text := none
  ordinal : Nat := 0
  deriving DecidableEq, Repr

/-- `MarkdownDocument` -/
structure MarkdownDocument where
  blocks : List MarkdownBlock := []
  title : Option Text := none
  deriving DecidableEq, Repr

/-- `rstrip()` -/
def rstrip (line : Text) : Text := (line.reverse.dropWhile isSpace).reverse

/-- `lstrip()` -/
def lstrip (line : Text) : Text := line.dropWhile isSpace

/-! ## Images -/

/-- The texts before and after the last `](`. -/
def splitLast : Text → Option (Text × Text)
  | [] => none
  | c :: cs =>
    match splitLast cs with
    | some (before, after) => some (c :: before, after)
    | none => if c = ']' ∧ cs.head? = some '(' then some ([], cs.drop 1) else none

/-- `src.split(' "')[0]` -/
def beforeTitle : Text → Text
  | [] => []
  | c :: cs => if c = ' ' ∧ cs.head? = some '\x22' then [] else c :: beforeTitle cs

/-- `x or None` -/
def orNone (text : Text) : Option Text := if text = [] then none else some text

/-- `_parse_inline_image`: the source and the alternative text. -/
def parseInlineImage (text : Text) : Option Text × Option Text :=
  if ['!', '['].isPrefixOf text then
    if ')' ∈ text then
      match splitLast ((text.takeWhile (· ≠ ')')).drop 2) with
      | none => (none, none)
      | some (alt, src) => (orNone (if '\x22' ∈ src then beforeTitle (beforeTitle src) else src), orNone alt)
    else (none, none)
  else (none, none)

/-! ## Lines -/

/-- A line that is a heading. -/
def isHeading (line : Text) : Bool :=
  line.head? = some '#' && (line.length = 1 || (line.drop 1).head? = some '#' || (line.drop 1).head? = some ' ')

/-- `max(1, min(6, level))` of the number of marks. -/
def headingLevel (line : Text) : Nat := max 1 (min 6 (line.takeWhile (· = '#')).length)

/-- The mark of the fence that the line opens. -/
def fenceOf (line : Text) : Option Char :=
  if (List.replicate 3 '\x60').isPrefixOf line then some '\x60'
  else if (List.replicate 3 '~').isPrefixOf line then some '~'
  else none

/-- `line.startswith(fence * 3)` -/
def closes (fence : Char) (line : Text) : Bool := (List.replicate 3 fence).isPrefixOf line

def isQuote (line : Text) : Bool := line.head? = some '>'

/-- An image-only line has a source. -/
def isImage (line : Text) : Bool := (parseInlineImage (trim isSpace line)).1.isSome

/-- A line that is a list item. -/
def isItem (line : Text) : Bool :=
  line.head? = some '-' || line.head? = some '*' || line.head? = some '+' ||
    (lstrip line).take 2 = ['1', '.'] || (lstrip line).take 2 = ['-', ' '] || (lstrip line).take 2 = ['*', ' ']

def isDigit (c : Char) : Bool := '0' ≤ c && c ≤ '9'

/-- The characters of `line.lstrip("-*+0123456789. ")`. -/
def isMarker (c : Char) : Bool := c = '-' || c = '*' || c = '+' || isDigit c || c = '.' || c = ' '

/-! ## The parser -/

/-- The state of the loop. -/
structure State where
  blocks : List MarkdownBlock := []
  title : Option Text := none
  ordinal : Nat := 0

/-- `blocks.append(...)` with the next ordinal. -/
def State.add (s : State) (block : MarkdownBlock) : State :=
  { s with blocks := s.blocks ++ [{ block with ordinal := s.ordinal }], ordinal := s.ordinal + 1 }

/-- A heading: the first one of level 1 that follows a heading is the title. -/
def State.heading (s : State) (line : Text) : State :=
  let level := headingLevel line
  let text := lstrip (line.drop level)
  let afterHeading := s.blocks.getLast?.any fun block => block.kind = .heading
  State.add { s with title := if afterHeading ∧ s.title = none ∧ level = 1 then some text else s.title }
    { kind := .heading, text, level := some level }

/-- The lines after the closing fence. -/
def afterFence (fence : Char) : List Text → List Text
  | [] => []
  | line :: rest => if closes fence line then rest else afterFence fence rest

/-- The lines that go on a paragraph, and what follows it. -/
def paragraphLines : List Text → List Text × List Text
  | [] => ([], [])
  | line :: rest =>
    if blank isSpace line then ([], line :: rest)
    else (rstrip line :: (paragraphLines rest).1, (paragraphLines rest).2)

theorem afterFence_length (fence : Char) (ls : List Text) : (afterFence fence ls).length ≤ ls.length := by
  induction ls with
  | nil => exact le_rfl
  | cons line ls ih =>
    rw [afterFence, List.length_cons]
    split
    · exact Nat.le_succ _
    · exact Nat.le_succ_of_le ih

theorem paragraphLines_length (ls : List Text) : (paragraphLines ls).2.length ≤ ls.length := by
  induction ls with
  | nil => exact le_rfl
  | cons line ls ih =>
    rw [paragraphLines]
    split
    · exact le_rfl
    · exact Nat.le_succ_of_le ih

/-- The loop of `parse_markdown`. -/
def parseLoop (s : State) : List Text → State
  | [] => s
  | raw :: rest =>
    let line := rstrip raw
    if isHeading line then parseLoop (s.heading line) rest
    else
      match fenceOf line with
      | some fence => parseLoop (s.add { kind := .code, text := "<fenced>".toList }) (afterFence fence rest)
      | none =>
        if line = [] then parseLoop s rest
        else if isQuote line then
          parseLoop (s.add { kind := .blockquote, text := lstrip (line.dropWhile (· = '>')) }) rest
        else
          let (src, alt) := parseInlineImage (trim isSpace line)
          if src.isSome then parseLoop (s.add { kind := .image, imageSrc := src, imageAlt := alt }) rest
          else if isItem line then
            parseLoop (s.add { kind := .list, text := trim isSpace (line.dropWhile isMarker) }) rest
          else
            let text := [' '].intercalate (line :: (paragraphLines rest).1)
            parseLoop (s.add { kind := .paragraph, text }) (paragraphLines rest).2
  termination_by ls => ls.length
  decreasing_by
    all_goals first
      | exact Nat.lt_succ_self _
      | exact Nat.lt_succ_of_le (afterFence_length _ _)
      | exact Nat.lt_succ_of_le (paragraphLines_length _)

/-- `parse_markdown` -/
def parseMarkdown (normalized : Text) : MarkdownDocument :=
  let s := parseLoop {} (normalized.splitOn '\n')
  { blocks := s.blocks, title := s.title }

/-! ## What a text has to keep -/

/-- Where a scan of the lines stands: between blocks, in a paragraph, or in fenced code. -/
inductive Mode
  | between
  | paragraph
  | fenced (fence : Char)

/-- A line that is no code: one to keep whole, a list item, or an image with what follows it. -/
inductive Piece
  | whole (line : Text)
  | item (line : Text)
  | image (line : Text)

/-- One line of the scan. -/
def scanLine : Mode → Text → Mode × Option Piece
  | .fenced fence, raw => (if closes fence raw then .between else .fenced fence, none)
  | .paragraph, raw => if blank isSpace raw then (.between, none) else (.paragraph, some (.whole raw))
  | .between, raw =>
    let line := rstrip raw
    if isHeading line then (.between, some (.whole raw))
    else
      match fenceOf line with
      | some fence => (.fenced fence, none)
      | none =>
        if line = [] then (.between, none)
        else if isQuote line then (.between, some (.whole raw))
        else if isImage line then (.between, some (.image line))
        else if isItem line then (.between, some (.item line))
        else (.paragraph, some (.whole raw))

/-- The lines of a text that are no fenced code. -/
def pieces : Mode → List Text → List Piece
  | _, [] => []
  | mode, line :: rest => (scanLine mode line).2.toList ++ pieces (scanLine mode line).1 rest

/-- What follows the bullets of a list item and one number with a dot. -/
def afterMarker (line : Text) : Text :=
  let rest := line.dropWhile fun c => c = '-' || c = '*' || c = '+' || c = ' '
  let number := rest.takeWhile isDigit
  if number ≠ [] ∧ (rest.drop number.length).head? = some '.' then rest.drop (number.length + 1) else rest

/-- What follows the image, after its closing parenthesis. -/
def afterImage (line : Text) : Text := ((trim isSpace line).dropWhile (· ≠ ')')).drop 1

/-- The prose of a line. -/
def Piece.prose : Piece → Text
  | whole line => line
  | item line => afterMarker line
  | image line => afterImage line

/-- Which characters are letters and digits: the digits of the marker set are, and no space or mark is. -/
structure Letters where
  alnum : Char → Bool
  digit : ∀ c, isDigit c = true → alnum c = true
  space : ∀ c, isSpace c = true → alnum c = false
  mark : ∀ c ∈ ['#', '>', '-', '*', '+', '.'], alnum c = false

/-- The letters and digits of a text. -/
def Letters.of (L : Letters) (text : Text) : Text := text.filter L.alnum

/-- The letters and digits of the blocks that are no code. -/
def Letters.ofBlocks (L : Letters) (blocks : List MarkdownBlock) : Text :=
  (blocks.filter fun block => block.kind ≠ .code).flatMap fun block => L.of block.text

/-- The blocks have every letter and digit of the prose, once and in order. -/
def Keeps (L : Letters) (normalized : Text) : Prop :=
  L.ofBlocks (parseMarkdown normalized).blocks = L.of ((pieces .between (normalized.splitOn '\n')).flatMap Piece.prose)

/-- Nothing is lost of the line: no digit is taken for part of the marker, and nothing follows the image. -/
def Piece.Kept (L : Letters) : Piece → Prop
  | whole _ => True
  | item line => ∀ c ∈ (afterMarker line).takeWhile isMarker, isDigit c = false
  | image line => L.of (afterImage line) = []

/-- What the blocks have of a line. -/
def Piece.kept : Piece → Text
  | whole line => line
  | item line => (afterMarker line).dropWhile isMarker
  | image _ => []

variable (L : Letters)

/-! ## Letters -/

theorem of_append (cs ds : Text) : L.of (cs ++ ds) = L.of cs ++ L.of ds := List.filter_append ..

theorem of_eq_nil {cs : Text} (h : ∀ c ∈ cs, L.alnum c = false) : L.of cs = [] :=
  List.filter_eq_nil_iff.2 fun c hc => by rw [h c hc]; exact Bool.false_ne_true

theorem of_dropWhile {p : Char → Bool} (hp : ∀ c, p c = true → L.alnum c = false) (cs : Text) : L.of (cs.dropWhile p) = L.of cs := by
  conv_rhs => rw [← List.takeWhile_append_dropWhile (p := p) (l := cs)]
  rw [of_append, of_eq_nil L fun c hc => hp c (List.mem_takeWhile_imp hc), List.nil_append]

theorem of_reverse (cs : Text) : L.of cs.reverse = (L.of cs).reverse := List.filter_reverse ..

theorem of_rstrip (line : Text) : L.of (rstrip line) = L.of line := by
  rw [rstrip, of_reverse, of_dropWhile L L.space, of_reverse, List.reverse_reverse]

theorem of_lstrip (line : Text) : L.of (lstrip line) = L.of line := of_dropWhile L L.space line

theorem of_trim (line : Text) : L.of (trim isSpace line) = L.of line := by
  rw [trim, of_reverse, of_dropWhile L L.space, of_reverse, List.reverse_reverse, of_dropWhile L L.space]

theorem of_blank {line : Text} (h : blank isSpace line = true) : L.of line = [] :=
  of_eq_nil L fun c hc => L.space c (List.all_eq_true.1 h c hc)

theorem of_join (ls : List Text) : L.of ([' '].intercalate ls) = L.of ls.flatten := by
  induction ls with
  | nil => rfl
  | cons line ls ih =>
    cases ls with
    | nil => simp
    | cons next ls =>
      have hblank : L.of [' '] = [] := of_blank L (by decide)
      rw [List.intercalate_cons_cons, List.flatten_cons, of_append, of_append, of_append, ih, hblank, List.append_nil]

/-- The first characters of a text, as many as there are of a kind, are of the kind. -/
theorem mem_take_while {p : Char → Bool} {cs : Text} {n : Nat} (hn : n ≤ (cs.takeWhile p).length) : ∀ c ∈ cs.take n, p c = true := by
  intro c hc
  obtain ⟨more, hmore⟩ := List.takeWhile_prefix p (l := cs)
  rw [← hmore, List.take_append_of_le_length hn] at hc
  exact List.mem_takeWhile_imp (List.mem_of_mem_take hc)

/-- A heading has the letters of its line: only marks and spaces come before its text. -/
theorem of_heading {line : Text} (h : isHeading line = true) : L.of (lstrip (line.drop (headingLevel line))) = L.of line := by
  have hhead : line.head? = some '#' := by
    unfold isHeading at h
    rw [Bool.and_eq_true, decide_eq_true_eq] at h
    exact h.1
  obtain ⟨rest, rfl⟩ := List.head?_eq_some_iff.1 hhead
  have hlevel : headingLevel ('#' :: rest) ≤ (('#' :: rest).takeWhile (· = '#')).length := by
    rw [headingLevel, List.takeWhile_cons_of_pos (by decide), List.length_cons]
    omega
  have hmarks : ∀ c ∈ ('#' :: rest).take (headingLevel ('#' :: rest)), L.alnum c = false := by
    intro c hc
    rw [of_decide_eq_true (mem_take_while hlevel c hc)]
    exact L.mark _ (by decide)
  rw [of_lstrip]
  conv_rhs => rw [← List.take_append_drop (headingLevel ('#' :: rest)) ('#' :: rest)]
  rw [of_append, of_eq_nil L hmarks, List.nil_append]

theorem of_quote (line : Text) : L.of (lstrip (line.dropWhile (· = '>'))) = L.of line := by
  rw [of_lstrip]
  refine of_dropWhile L (fun c hc => ?_) line
  rw [of_decide_eq_true hc]
  exact L.mark _ (by decide)

/-! ## List items -/

theorem dropWhile_drop {p : Char → Bool} {cs : Text} {n : Nat} (h : ∀ c ∈ cs.take n, p c = true) :
    (cs.drop n).dropWhile p = cs.dropWhile p := by
  conv_rhs => rw [← List.take_append_drop n cs]
  exact (List.dropWhile_append_of_pos h).symm

theorem dropWhile_dropWhile {p q : Char → Bool} (hqp : ∀ c, q c = true → p c = true) (cs : Text) :
    (cs.dropWhile q).dropWhile p = cs.dropWhile p := by
  conv_rhs => rw [← List.takeWhile_append_dropWhile (p := q) (l := cs)]
  exact (List.dropWhile_append_of_pos fun c hc => hqp c (List.mem_takeWhile_imp hc)).symm

/-- What comes before the prose of an item is of the marker set. -/
theorem dropWhile_afterMarker (line : Text) : (afterMarker line).dropWhile isMarker = line.dropWhile isMarker := by
  have hbullets : ∀ c : Char, (c = '-' || c = '*' || c = '+' || c = ' ') = true → isMarker c = true := by
    intro c hc
    simp only [isMarker, Bool.or_eq_true, decide_eq_true_eq] at hc ⊢
    tauto
  unfold afterMarker
  dsimp only
  split
  · next hnumber =>
    generalize hrest : (line.dropWhile fun c => c = '-' || c = '*' || c = '+' || c = ' ') = rest at hnumber ⊢
    rw [dropWhile_drop, ← hrest, dropWhile_dropWhile hbullets]
    intro c hc
    rw [List.take_add_one, ← List.head?_drop, hnumber.2, List.mem_append] at hc
    rcases hc with hc | hc
    · have hdigit := mem_take_while le_rfl c hc
      simp only [isMarker, hdigit, Bool.or_true, Bool.true_or]
    · obtain rfl := List.mem_singleton.1 hc
      decide
  · exact dropWhile_dropWhile hbullets line

/-- Among the characters of a marker only digits are letters or digits. -/
theorem alnum_of_marker {c : Char} (hc : isMarker c = true) : L.alnum c = isDigit c := by
  cases hdigit : isDigit c with
  | true => exact L.digit c hdigit
  | false =>
    simp only [isMarker, hdigit, Bool.or_eq_true, decide_eq_true_eq, Bool.false_eq_true, or_false] at hc
    rcases hc with (((rfl | rfl) | rfl) | rfl) | rfl
    · exact L.mark _ (by decide)
    · exact L.mark _ (by decide)
    · exact L.mark _ (by decide)
    · exact L.mark _ (by decide)
    · exact L.space _ (by decide)

/-- The text of an item is its prose if no digit is taken for part of the marker. -/
theorem of_item (line : Text) : L.of (trim isSpace (line.dropWhile isMarker)) = L.of (Piece.item line).kept := by
  rw [of_trim, Piece.kept, dropWhile_afterMarker]

theorem kept_suffix (p : Piece) : L.of p.kept <:+ L.of p.prose := by
  cases p with
  | whole line => exact List.suffix_rfl
  | item line =>
    refine ⟨L.of ((afterMarker line).takeWhile isMarker), ?_⟩
    rw [Piece.kept, Piece.prose, ← of_append, List.takeWhile_append_dropWhile]
  | image line => exact List.nil_suffix

/-- A line keeps its letters if and only if nothing of it is lost. -/
theorem kept_iff (p : Piece) : L.of p.kept = L.of p.prose ↔ p.Kept L := by
  cases p with
  | whole line => exact iff_of_true rfl trivial
  | item line =>
    have hsplit : L.of (afterMarker line) = L.of ((afterMarker line).takeWhile isMarker) ++ L.of ((afterMarker line).dropWhile isMarker) := by
      rw [← of_append, List.takeWhile_append_dropWhile]
    rw [Piece.kept, Piece.prose, Piece.Kept, hsplit, List.self_eq_append_left, Letters.of, List.filter_eq_nil_iff]
    refine forall₂_congr fun c hc => ?_
    rw [← alnum_of_marker L (List.mem_takeWhile_imp hc), Bool.not_eq_true]
  | image line => exact eq_comm

/-! ## The loop -/

theorem ofBlocks_append (bs cs : List MarkdownBlock) : L.ofBlocks (bs ++ cs) = L.ofBlocks bs ++ L.ofBlocks cs := by
  rw [Letters.ofBlocks, List.filter_append, List.flatMap_append]
  rfl

theorem ofBlocks_add (s : State) {block : MarkdownBlock} (h : block.kind ≠ .code) :
    L.ofBlocks (s.add block).blocks = L.ofBlocks s.blocks ++ L.of block.text := by
  have hone : L.ofBlocks [{ block with ordinal := s.ordinal }] = L.of block.text := by
    rw [Letters.ofBlocks, List.filter_cons_of_pos (by simpa using h)]
    exact List.append_nil _
  rw [State.add, ofBlocks_append, hone]

theorem ofBlocks_code (s : State) (text : Text) : L.ofBlocks (s.add { kind := .code, text }).blocks = L.ofBlocks s.blocks := by
  rw [State.add, ofBlocks_append]
  exact List.append_nil _

/-- The letters that a scan keeps. -/
def keptOf (mode : Mode) (ls : List Text) : Text := L.of ((pieces mode ls).flatMap Piece.kept)

theorem keptOf_cons (mode : Mode) (line : Text) (rest : List Text) :
    keptOf L mode (line :: rest) = L.of ((scanLine mode line).2.elim [] Piece.kept) ++ keptOf L (scanLine mode line).1 rest := by
  rw [keptOf, pieces, List.flatMap_append, of_append]
  cases (scanLine mode line).2 with
  | none => rfl
  | some p => exact congrArg (L.of · ++ _) (List.flatMap_singleton ..)

/-- Fenced code ends with its fence. -/
theorem keptOf_fenced (fence : Char) (ls : List Text) : keptOf L (.fenced fence) ls = keptOf L .between (afterFence fence ls) := by
  induction ls with
  | nil => rfl
  | cons line ls ih =>
    rw [keptOf_cons, scanLine, afterFence]
    split
    · rfl
    · exact ih

theorem rstrip_blank {line : Text} (h : blank isSpace line = true) : rstrip line = [] := by
  rw [rstrip, List.reverse_eq_nil_iff, List.dropWhile_eq_nil_iff]
  exact fun c hc => List.all_eq_true.1 h c (List.mem_reverse.1 hc)

theorem scanLine_blank {line : Text} (h : blank isSpace line = true) : scanLine .between line = (.between, none) := by
  rw [scanLine, rstrip_blank h]
  rfl

/-- A paragraph ends with a blank line. -/
theorem keptOf_paragraph (ls : List Text) :
    keptOf L .paragraph ls = L.of (paragraphLines ls).1.flatten ++ keptOf L .between (paragraphLines ls).2 := by
  induction ls with
  | nil => rfl
  | cons line ls ih =>
    rw [keptOf_cons, scanLine, paragraphLines]
    split
    · next hblank =>
      rw [keptOf_cons, scanLine_blank hblank]
      rfl
    · rw [List.flatten_cons, of_append, of_rstrip, List.append_assoc, ← ih]
      rfl

theorem keptOf_scanned {raw : Text} {rest : List Text} {mode : Mode} {piece : Option Piece}
    (h : scanLine .between raw = (mode, piece)) :
    keptOf L .between (raw :: rest) = L.of (piece.elim [] Piece.kept) ++ keptOf L mode rest := by
  rw [keptOf_cons, h]

theorem ofBlocks_heading (s : State) {line : Text} (h : isHeading line = true) :
    L.ofBlocks (s.heading line).blocks = L.ofBlocks s.blocks ++ L.of line := by
  rw [← of_heading L h]
  exact ofBlocks_add L _ nofun

/-- What the loop adds to the blocks is what the scan keeps. -/
theorem ofBlocks_loop (s : State) (ls : List Text) :
    L.ofBlocks (parseLoop s ls).blocks = L.ofBlocks s.blocks ++ keptOf L .between ls := by
  fun_induction parseLoop s ls with
  | case1 s => exact (List.append_nil _).symm
  | case2 s raw rest line hheading ih =>
    have hscan : scanLine .between raw = (.between, some (.whole raw)) := if_pos hheading
    rw [ih, keptOf_scanned L hscan, ofBlocks_heading L s hheading, List.append_assoc, of_rstrip]
    rfl
  | case3 s raw rest line hheading fence hfence ih =>
    have hscan : scanLine .between raw = (.fenced fence, none) := by
      rw [scanLine, if_neg hheading, hfence]
    rw [ih, keptOf_scanned L hscan, ofBlocks_code, keptOf_fenced]
    rfl
  | case4 s raw rest line hheading hfence hempty ih =>
    have hscan : scanLine .between raw = (.between, none) := by
      rw [scanLine, if_neg hheading, hfence]
      exact if_pos hempty
    rw [ih, keptOf_scanned L hscan]
    rfl
  | case5 s raw rest line hheading hfence hempty hquote ih =>
    have hscan : scanLine .between raw = (.between, some (.whole raw)) := by
      rw [scanLine, if_neg hheading, hfence]
      exact (if_neg hempty).trans (if_pos hquote)
    rw [ih, keptOf_scanned L hscan, ofBlocks_add, of_quote, List.append_assoc, of_rstrip]
    · rfl
    · nofun
  | case6 s raw rest line hheading hfence hempty hquote src alt himage hsome ih =>
    have hisImage : isImage line = true := by rw [isImage, himage]; exact hsome
    have hscan : scanLine .between raw = (.between, some (.image line)) := by
      rw [scanLine, if_neg hheading, hfence]
      exact (if_neg hempty).trans ((if_neg hquote).trans (if_pos hisImage))
    rw [ih, keptOf_scanned L hscan, ofBlocks_add, List.append_assoc]
    · rfl
    · nofun
  | case7 s raw rest line hheading hfence hempty hquote src alt himage hsome hitem ih =>
    have hisImage : ¬ isImage line = true := by rw [isImage, himage]; exact hsome
    have hscan : scanLine .between raw = (.between, some (.item line)) := by
      rw [scanLine, if_neg hheading, hfence]
      exact (if_neg hempty).trans ((if_neg hquote).trans ((if_neg hisImage).trans (if_pos hitem)))
    rw [ih, keptOf_scanned L hscan, ofBlocks_add, of_item, List.append_assoc]
    · rfl
    · nofun
  | case8 s raw rest line hheading hfence hempty hquote src alt himage hsome hitem text ih =>
    have hisImage : ¬ isImage line = true := by rw [isImage, himage]; exact hsome
    have hscan : scanLine .between raw = (.paragraph, some (.whole raw)) := by
      rw [scanLine, if_neg hheading, hfence]
      exact (if_neg hempty).trans ((if_neg hquote).trans ((if_neg hisImage).trans (if_neg hitem)))
    rw [ih, keptOf_scanned L hscan, ofBlocks_add, of_join, List.flatten_cons, of_append, of_rstrip, keptOf_paragraph,
      List.append_assoc, List.append_assoc]
    · rfl
    · nofun

/-! ## What is kept -/

/-- Suffixes of texts are these texts, one after the other, if and only if each is. -/
theorem flatMap_eq_iff {f g : Piece → Text} (h : ∀ p, f p <:+ g p) (ps : List Piece) :
    ps.flatMap f = ps.flatMap g ↔ ∀ p ∈ ps, f p = g p := by
  have hle : ∀ qs : List Piece, (qs.flatMap f).length ≤ (qs.flatMap g).length := by
    intro qs
    induction qs with
    | nil => exact le_rfl
    | cons q qs ih =>
      have := (h q).length_le
      rw [List.flatMap_cons, List.flatMap_cons, List.length_append, List.length_append]
      omega
  induction ps with
  | nil => simp
  | cons p ps ih =>
    rw [List.flatMap_cons, List.flatMap_cons, List.forall_mem_cons]
    refine Iff.trans ?_ (and_congr_right fun _ => ih)
    constructor
    · intro heq
      have hlen := congrArg List.length heq
      rw [List.length_append, List.length_append] at hlen
      have hp := (h p).length_le
      have hps := hle ps
      exact List.append_inj heq (by omega)
    · rintro ⟨hp, hps⟩
      rw [hp, hps]

theorem of_flatMap (f : Piece → Text) (ps : List Piece) : L.of (ps.flatMap f) = ps.flatMap fun p => L.of (f p) :=
  List.filter_flatMap ..

/-- The blocks have the prose if and only if they have that of every line. -/
theorem keeps_lines (L : Letters) (normalized : Text) :
    Keeps L normalized ↔ ∀ p ∈ pieces .between (normalized.splitOn '\n'), L.of p.kept = L.of p.prose := by
  have hloop := ofBlocks_loop L {} (normalized.splitOn '\n')
  rw [Keeps, parseMarkdown, hloop, keptOf, of_flatMap, of_flatMap]
  exact flatMap_eq_iff (kept_suffix L) _

/-- **The blocks have every letter and digit of the prose, once and in order, if and only if in every list item no digit is taken
for part of the marker, and no letter or digit follows an image.** -/
theorem keeps_iff (L : Letters) (normalized : Text) :
    Keeps L normalized ↔ ∀ p ∈ pieces .between (normalized.splitOn '\n'), p.Kept L := by
  rw [keeps_lines]
  exact forall₂_congr fun p _ => kept_iff L p

/-- The letters and digits of ASCII. -/
def ascii : Letters where
  alnum c := c.isAlphanum
  digit c hc := by
    simp only [isDigit, Bool.and_eq_true, decide_eq_true_eq, Char.le_def] at hc
    simp only [Char.isAlphanum, Char.isDigit, Bool.or_eq_true, Bool.and_eq_true, decide_eq_true_eq]
    exact .inr hc
  space c hc := by
    simp only [isSpace, Char.toNat, Bool.or_eq_true, Bool.and_eq_true, decide_eq_true_eq] at hc
    simp only [Char.isAlphanum, Char.isAlpha, Char.isUpper, Char.isLower, Char.isDigit, Bool.or_eq_false_iff, Bool.and_eq_false_iff,
      decide_eq_false_iff_not, ge_iff_le, UInt32.le_iff_toNat_le, Char.reduceVal, UInt32.reduceToNat]
    omega
  mark := by simp

/-- The year of an item is lost. -/
theorem year_lost : ¬ Keeps ascii "- 2023 was a good year".toList := by
  rw [keeps_lines]
  decide +kernel

end Umd.Markdown
