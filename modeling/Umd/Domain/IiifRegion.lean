import Umd.Domain.LocatorText
/-!
# The texts of IIIF regions

What `_IIIF_XYWH` and `_IIIF_PCT` accept, in parts between commas. The fraction of a
percentage stands behind a point or behind a comma.
-/

namespace Umd.Locators

open Umd.Lib Umd.Lib.Pattern Umd.Projections

/-- What `\d` takes for a digit: of ASCII the ten digits, and no space. -/
structure DigitTable (t : Tables) : Prop where
  ascii : ∀ c : Char, c.toNat < 128 → t.decimal c = if c.isDigit then some (c.toNat - 48) else none
  space : ∀ c, isSpace c = true → t.decimal c = none

section

variable (t : Tables)

/-- `\d+` -/
def DigitText (ds : List Char) : Prop := ds ≠ [] ∧ ∀ c ∈ ds, isDecimal t c = true

/-- A percentage, with a point or a comma before the fraction. -/
inductive PercentText : List Char → Prop where
  | whole {ds : List Char} (h : DigitText t ds) : PercentText ds
  | fraction {ds fs : List Char} (mark : Char) (hmark : mark = '.' ∨ mark = ',') (h : DigitText t ds) (h' : DigitText t fs) :
    PercentText (ds ++ mark :: fs)

end

/-- The newline that `$` leaves out. -/
def LastLine (nl : List Char) : Prop := nl = [] ∨ nl = ['\n']

variable {t : Tables}

theorem mem_lit_iff {c : Char} {s rest : List Char} : rest ∈ lit c s ↔ s = c :: rest := by
  unfold lit
  rw [mem_one_iff]
  constructor
  · rintro ⟨d, hd, rfl⟩
    rw [of_decide_eq_true hd]
  · rintro rfl
    exact ⟨c, decide_eq_true rfl, rfl⟩

theorem mem_digits_iff {s rest : List Char} : rest ∈ digits t s ↔ ∃ ds, DigitText t ds ∧ s = ds ++ rest := by
  unfold digits
  simp only [mem_plus_iff, DigitText, and_assoc]

theorem mem_percentage_iff {s rest : List Char} : rest ∈ percentage t s ↔ ∃ ds, PercentText t ds ∧ s = ds ++ rest := by
  unfold percentage
  simp only [mem_andThen_iff, mem_digits_iff, mem_opt_iff, mem_one_iff]
  constructor
  · rintro ⟨mid, ⟨ds, hds, rfl⟩, ⟨mid', ⟨c, hc, rfl⟩, fs, hfs, rfl⟩ | rfl⟩
    · exact ⟨ds ++ c :: fs, .fraction c (by simpa using hc) hds hfs, by simp⟩
    · exact ⟨ds, .whole hds, rfl⟩
  · rintro ⟨text, htext, rfl⟩
    cases htext with
    | whole h => exact ⟨rest, ⟨text, h, rfl⟩, .inr rfl⟩
    | @fraction ds fs mark hmark h h' =>
      exact ⟨mark :: (fs ++ rest), ⟨ds, h, by simp⟩, .inl ⟨fs ++ rest, ⟨mark, by simpa using hmark, rfl⟩, fs, h', rfl⟩⟩

theorem matched_iff {p : Pattern Char} {s : List Char} : matched p s = true ↔ ∃ nl ∈ p s, LastLine nl := by
  unfold matched LastLine
  simp

/-- Four numbers between commas. -/
theorem iiifXywh_iff {s : List Char} : iiifXywh t s = true ↔ ∃ a b c d nl, DigitText t a ∧ DigitText t b ∧ DigitText t c ∧
    DigitText t d ∧ LastLine nl ∧ s = a ++ ',' :: (b ++ ',' :: (c ++ ',' :: (d ++ nl))) := by
  unfold iiifXywh
  rw [matched_iff]
  simp only [mem_andThen_iff, mem_digits_iff, mem_lit_iff]
  constructor
  · rintro ⟨nl, ⟨-, ⟨a, ha, rfl⟩, -, rfl, -, ⟨b, hb, rfl⟩, -, rfl, -, ⟨c, hc, rfl⟩, -, rfl, d, hd, rfl⟩, hnl⟩
    exact ⟨a, b, c, d, nl, ha, hb, hc, hd, hnl, rfl⟩
  · rintro ⟨a, b, c, d, nl, ha, hb, hc, hd, hnl, rfl⟩
    exact ⟨nl, ⟨_, ⟨a, ha, rfl⟩, _, rfl, _, ⟨b, hb, rfl⟩, _, rfl, _, ⟨c, hc, rfl⟩, _, rfl, d, hd, rfl⟩, hnl⟩

/-- Four percentages between commas. -/
theorem iiifPct_iff {s : List Char} : iiifPct t s = true ↔ ∃ a b c d nl, PercentText t a ∧ PercentText t b ∧ PercentText t c ∧
    PercentText t d ∧ LastLine nl ∧ s = "pct:".toList ++ (a ++ ',' :: (b ++ ',' :: (c ++ ',' :: (d ++ nl)))) := by
  unfold iiifPct
  rw [Bool.and_eq_true, List.isPrefixOf_iff_prefix, matched_iff]
  simp only [mem_andThen_iff, mem_percentage_iff, mem_lit_iff]
  constructor
  · rintro ⟨⟨rest, rfl⟩, nl, ⟨-, ⟨a, ha, heq⟩, -, rfl, -, ⟨b, hb, rfl⟩, -, rfl, -, ⟨c, hc, rfl⟩, -, rfl, d, hd, rfl⟩, hnl⟩
    exact ⟨a, b, c, d, nl, ha, hb, hc, hd, hnl, congrArg ("pct:".toList ++ ·) heq⟩
  · rintro ⟨a, b, c, d, nl, ha, hb, hc, hd, hnl, rfl⟩
    exact ⟨List.prefix_append .., nl, ⟨_, ⟨a, ha, rfl⟩, _, rfl, _, ⟨b, hb, rfl⟩, _, rfl, _, ⟨c, hc, rfl⟩, _, rfl, d, hd, rfl⟩, hnl⟩

/-- No digit is a mark of the grammar. -/
theorem DigitTable.mark (h : DigitTable t) {c : Char} (hc : c.toNat < 128) (hdigit : c.isDigit = false) : isDecimal t c = false := by
  unfold isDecimal
  rw [h.ascii c hc, hdigit]
  rfl

theorem DigitText.not_mem {ds : List Char} {c : Char} (h : DigitText t ds) (hc : isDecimal t c = false) : c ∉ ds := by
  intro hmem
  have hdigit := h.2 c hmem
  rw [hc] at hdigit
  cases hdigit

end Umd.Locators
