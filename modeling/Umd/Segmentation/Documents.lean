import Umd.Segmentation.Segmenters
/-!
# The paths of documents

The loop of `segment_markdown` uses a path twice just where a document has sections before
its first chapter and in it, since both are numbered in chapter one. With that the inputs of
any document are its own exactly if its indices are (`segments_iff`).
-/

namespace Umd.Segmentation

open Umd.Lib Umd.Lib.Outline Umd.Locators

/-! ## Markdown -/

/-- What one block can do. -/
inductive BlockStep (s : MarkdownState) (block : MarkdownBlock) : MarkdownState × Option Part → Prop
  | chapter (hchapter : block.isChapter = true) : BlockStep s block
      ({ s with chapterIdx := s.chapterIdx + 1, sectionIdx := 0, currentChapParent := [(.chapter, s.chapterIdx + 1)] },
        some { path := [(.chapter, s.chapterIdx + 1)], segmentType := .chapter, ordinal := s.chapterIdx + 1, parent := some docPath })
  | sect (hchapter : block.isChapter = false) (hsection : block.isSection = true) : BlockStep s block
      ({ s with sectionIdx := s.sectionIdx + 1 },
        some { path := [(.chapter, max s.chapterIdx 1), (.sect, s.sectionIdx + 1)], segmentType := .sect, ordinal := s.sectionIdx + 1,
               parent := some s.currentChapParent })
  | paragraph (hchapter : block.isChapter = false) (hsection : block.isSection = false) : BlockStep s block
      ({ s with paraIdx := s.paraIdx + 1 },
        some { path := [(.chapter, max s.chapterIdx 1), (.paragraph, s.paraIdx + 1)], segmentType := .paragraph,
               ordinal := s.paraIdx + 1, parent := some s.currentChapParent, framed := true })
  | skip (hchapter : block.isChapter = false) (hsection : block.isSection = false) : BlockStep s block (s, none)

theorem markdownStep_cases (s : MarkdownState) (block : MarkdownBlock) : BlockStep s block (markdownStep s block) := by
  unfold markdownStep
  cases hchapter : block.isChapter with
  | true => exact .chapter hchapter
  | false =>
    cases hsection : block.isSection with
    | true => exact .sect hchapter hsection
    | false =>
      cases hpara : block.isParagraph with
      | true => exact .paragraph hchapter hsection
      | false => exact .skip hchapter hsection

/-- The paths that can follow in a state. -/
inductive PathFrom (s : MarkdownState) : Steps → Prop
  | chapter {k : ℕ} (hk : s.chapterIdx < k) : PathFrom s [(.chapter, k)]
  | sect {k j : ℕ} (hk : k = s.chapterIdx ∧ s.sectionIdx < j ∨ s.chapterIdx < k) : PathFrom s [(.chapter, max k 1), (.sect, j)]
  | paragraph {k n : ℕ} (hk : s.chapterIdx ≤ k) (hn : s.paraIdx < n) : PathFrom s [(.chapter, max k 1), (.paragraph, n)]

theorem markdownParts_cons (s : MarkdownState) (block : MarkdownBlock) (blocks : List MarkdownBlock) :
    markdownParts s (block :: blocks) = (markdownStep s block).2.toList ++ markdownParts (markdownStep s block).1 blocks := rfl

/-- Later paths are paths from here. -/
theorem PathFrom.back {s : MarkdownState} {block : MarkdownBlock} {p : Steps} (h : PathFrom (markdownStep s block).1 p) :
    PathFrom s p := by
  have hstep := markdownStep_cases s block
  generalize markdownStep s block = next at h hstep
  cases hstep with
  | chapter hchapter =>
    cases h with
    | chapter hk => exact .chapter (by dsimp only at hk; omega)
    | sect hk => exact .sect (by dsimp only at hk; omega)
    | paragraph hk hn => exact .paragraph (by dsimp only at hk; omega) hn
  | sect hchapter hsection =>
    cases h with
    | chapter hk => exact .chapter hk
    | sect hk => exact .sect (by dsimp only at hk; omega)
    | paragraph hk hn => exact .paragraph hk hn
  | paragraph hchapter hsection =>
    cases h with
    | chapter hk => exact .chapter hk
    | sect hk => exact .sect hk
    | paragraph hk hn => exact .paragraph hk (by dsimp only at hn; omega)
  | skip hchapter hsection => exact h

theorem path_from {s : MarkdownState} {blocks : List MarkdownBlock} {p : Steps} (h : p ∈ (markdownParts s blocks).map Part.path) :
    PathFrom s p := by
  induction blocks generalizing s with
  | nil => cases h
  | cons block blocks ih =>
    rw [markdownParts_cons, List.map_append, List.mem_append] at h
    rcases h with h | h
    · have hstep := markdownStep_cases s block
      generalize markdownStep s block = next at h hstep
      cases hstep with
      | chapter hchapter =>
        rw [List.mem_singleton.1 h]
        exact_mod_cast PathFrom.chapter (s := s) (Nat.lt_succ_self _)
      | sect hchapter hsection =>
        rw [List.mem_singleton.1 h]
        exact_mod_cast PathFrom.sect (s := s) (.inl ⟨rfl, Nat.lt_succ_self _⟩)
      | paragraph hchapter hsection =>
        rw [List.mem_singleton.1 h]
        exact_mod_cast PathFrom.paragraph (s := s) (Nat.le_refl _) (Nat.lt_succ_self _)
      | skip hchapter hsection => cases h
    · exact (ih h).back

theorem PathFrom.chapter_lt {s : MarkdownState} {k : ℤ} (h : PathFrom s [(.chapter, k)]) : s.chapterIdx < k := by
  cases h with
  | chapter hk => exact_mod_cast hk

theorem PathFrom.sect_lt {s : MarkdownState} {c j : ℤ} (h : PathFrom s [(.chapter, c), (.sect, j)]) :
    ∃ k : ℕ, c = max (k : ℤ) 1 ∧ (k = s.chapterIdx ∧ s.sectionIdx < j ∨ s.chapterIdx < k) := by
  cases h with
  | sect hk => exact ⟨_, rfl, by exact_mod_cast hk⟩

theorem PathFrom.paragraph_lt {s : MarkdownState} {c n : ℤ} (h : PathFrom s [(.chapter, c), (.paragraph, n)]) : s.paraIdx < n := by
  cases h with
  | paragraph hk hn => exact_mod_cast hn

theorem rooted_markdown {s : MarkdownState} {known : List Steps} (hdoc : docPath ∈ known) (h : s.currentChapParent ∈ known)
    (blocks : List MarkdownBlock) : Rooted Part.path Part.parent known (markdownParts s blocks) := by
  induction blocks generalizing s known with
  | nil => trivial
  | cons block blocks ih =>
    rw [markdownParts_cons]
    have hstep := markdownStep_cases s block
    generalize markdownStep s block = next at hstep
    cases hstep with
    | chapter hchapter => exact ⟨fun p hp => by cases hp; exact hdoc, ih (List.mem_cons_of_mem _ hdoc) (List.mem_cons_self ..)⟩
    | sect hchapter hsection =>
      exact ⟨fun p hp => by cases hp; exact h, ih (List.mem_cons_of_mem _ hdoc) (List.mem_cons_of_mem _ h)⟩
    | paragraph hchapter hsection =>
      exact ⟨fun p hp => by cases hp; exact h, ih (List.mem_cons_of_mem _ hdoc) (List.mem_cons_of_mem _ h)⟩
    | skip hchapter hsection => exact ih hdoc h

/-- The block opens the document's part before its first chapter, or goes on in it. -/
theorem beforeChapter_cons (block : MarkdownBlock) (blocks : List MarkdownBlock) :
    beforeChapter (block :: blocks) = if block.isChapter then [] else block :: beforeChapter blocks := by
  unfold beforeChapter
  rw [List.takeWhile_cons]
  cases block.isChapter <;> rfl

theorem firstChapter_cons (block : MarkdownBlock) (blocks : List MarkdownBlock) :
    firstChapter (block :: blocks) = if block.isChapter then beforeChapter blocks else firstChapter blocks := by
  unfold firstChapter
  rw [List.dropWhile_cons]
  cases block.isChapter <;> rfl

/-- One path is not used again, if it is no section's before the first chapter. -/
theorem nodup_step {s : MarkdownState} {block : MarkdownBlock} {rest : List Steps}
    (hfrom : ∀ p ∈ rest, PathFrom (markdownStep s block).1 p) (hnodup : rest.Nodup)
    (hsection : block.isSection = true → s.chapterIdx = 0 → [(PartKind.chapter, 1), (.sect, (s.sectionIdx : ℤ) + 1)] ∉ rest) :
    (((markdownStep s block).2.toList).map Part.path ++ rest).Nodup := by
  have hstep := markdownStep_cases s block
  generalize markdownStep s block = next at hfrom hstep
  cases hstep with
  | chapter hchapter =>
    refine List.nodup_cons.2 ⟨fun hmem => ?_, hnodup⟩
    have := (hfrom _ hmem).chapter_lt
    push_cast at this
    omega
  | sect hchapter hsect =>
    refine List.nodup_cons.2 ⟨fun hmem => ?_, hnodup⟩
    obtain ⟨k, hk, hlater⟩ := (hfrom _ hmem).sect_lt
    rcases Nat.eq_zero_or_pos s.chapterIdx with hzero | hpos
    · refine hsection hsect hzero ?_
      dsimp only at hmem
      rwa [hzero] at hmem
    · push_cast at hlater
      omega
  | paragraph hchapter hsect =>
    refine List.nodup_cons.2 ⟨fun hmem => ?_, hnodup⟩
    have := (hfrom _ hmem).paragraph_lt
    push_cast at this
    omega
  | skip hchapter hsect => exact hnodup

/-- From the first chapter on no path is used twice. -/
theorem nodup_chapters {s : MarkdownState} (h : 1 ≤ s.chapterIdx) (blocks : List MarkdownBlock) :
    ((markdownParts s blocks).map Part.path).Nodup := by
  induction blocks generalizing s with
  | nil => exact List.nodup_nil
  | cons block blocks ih =>
    rw [markdownParts_cons, List.map_append]
    refine nodup_step (fun p => path_from) (ih ?_) fun _ hzero => by omega
    have hstep := markdownStep_cases s block
    generalize markdownStep s block = next at hstep
    cases hstep with
    | chapter hchapter => exact Nat.le_succ_of_le h
    | sect hchapter hsection => exact h
    | paragraph hchapter hsection => exact h
    | skip hchapter hsection => exact h

/-- In a first chapter without sections none is numbered. -/
theorem no_section {s : MarkdownState} (h : s.chapterIdx = 1) {blocks : List MarkdownBlock}
    (hnone : ∀ block ∈ beforeChapter blocks, block.isSection = false) (j : ℤ) :
    [(PartKind.chapter, 1), (.sect, j)] ∉ (markdownParts s blocks).map Part.path := by
  induction blocks generalizing s with
  | nil => exact List.not_mem_nil
  | cons block blocks ih =>
    rw [beforeChapter_cons] at hnone
    rw [markdownParts_cons, List.map_append, List.mem_append]
    have hfrom := fun p => @path_from (markdownStep s block).1 blocks p
    have hstep := markdownStep_cases s block
    generalize markdownStep s block = next at hfrom hstep
    cases hstep with
    | chapter hchapter =>
      rintro (hmem | hmem)
      · simp at hmem
      · obtain ⟨k, hk, hlater⟩ := (hfrom _ hmem).sect_lt
        dsimp only at hlater
        omega
    | sect hchapter hsection =>
      rw [hchapter, if_neg Bool.false_ne_true] at hnone
      rw [hnone block (List.mem_cons_self ..)] at hsection
      cases hsection
    | paragraph hchapter hsection =>
      rw [hchapter, if_neg Bool.false_ne_true] at hnone
      rintro (hmem | hmem)
      · simp at hmem
      · exact ih (by exact h) (fun b hb => hnone b (List.mem_cons_of_mem _ hb)) hmem
    | skip hchapter hsection =>
      rw [hchapter, if_neg Bool.false_ne_true] at hnone
      rintro (hmem | hmem)
      · cases hmem
      · exact ih (by exact h) (fun b hb => hnone b (List.mem_cons_of_mem _ hb)) hmem

/-- Before the first chapter its sections are counted on, if it has none of its own. -/
theorem sections_counted {s : MarkdownState} (h : s.chapterIdx = 0) {blocks : List MarkdownBlock}
    (hnone : ∀ block ∈ firstChapter blocks, block.isSection = false) {j : ℤ}
    (hmem : [(PartKind.chapter, 1), (.sect, j)] ∈ (markdownParts s blocks).map Part.path) : s.sectionIdx < j := by
  induction blocks generalizing s with
  | nil => cases hmem
  | cons block blocks ih =>
    rw [firstChapter_cons] at hnone
    rw [markdownParts_cons, List.map_append, List.mem_append] at hmem
    have hstep := markdownStep_cases s block
    generalize markdownStep s block = next at hmem hstep
    cases hstep with
    | chapter hchapter =>
      rw [hchapter, if_pos rfl] at hnone
      rcases hmem with hmem | hmem
      · simp at hmem
      · exact absurd hmem (no_section (by simp [h]) hnone j)
    | sect hchapter hsection =>
      rw [hchapter, if_neg Bool.false_ne_true] at hnone
      rcases hmem with hmem | hmem
      · simp only [Option.toList_some, List.map_cons, List.map_nil, List.mem_singleton, List.cons.injEq, Prod.mk.injEq] at hmem
        omega
      · have := ih (by exact h) hnone hmem
        push_cast at this
        omega
    | paragraph hchapter hsection =>
      rw [hchapter, if_neg Bool.false_ne_true] at hnone
      rcases hmem with hmem | hmem
      · simp at hmem
      · have := ih (by exact h) hnone hmem
        exact this
    | skip hchapter hsection =>
      rw [hchapter, if_neg Bool.false_ne_true] at hnone
      rcases hmem with hmem | hmem
      · cases hmem
      · exact ih (by exact h) hnone hmem

/-- Before the first chapter no path is used twice, if only one of the two parts has sections. -/
theorem nodup_markdown {s : MarkdownState} (h : s.chapterIdx = 0) {blocks : List MarkdownBlock}
    (hone : (∀ block ∈ beforeChapter blocks, block.isSection = false) ∨ ∀ block ∈ firstChapter blocks, block.isSection = false) :
    ((markdownParts s blocks).map Part.path).Nodup := by
  induction blocks generalizing s with
  | nil => exact List.nodup_nil
  | cons block blocks ih =>
    rw [markdownParts_cons, List.map_append]
    rw [beforeChapter_cons, firstChapter_cons] at hone
    refine nodup_step (fun p => path_from) ?_ fun hsection _ => ?_
    · have hstep := markdownStep_cases s block
      generalize markdownStep s block = next at hstep
      have hrest : block.isChapter = false →
          (∀ b ∈ beforeChapter blocks, b.isSection = false) ∨ ∀ b ∈ firstChapter blocks, b.isSection = false := by
        intro hchapter
        rw [hchapter, if_neg Bool.false_ne_true, if_neg Bool.false_ne_true] at hone
        exact hone.imp_left fun hbefore b hb => hbefore b (List.mem_cons_of_mem _ hb)
      cases hstep with
      | chapter hchapter => exact nodup_chapters (by simp) blocks
      | sect hchapter hsection => exact ih (by exact h) (hrest hchapter)
      | paragraph hchapter hsection => exact ih (by exact h) (hrest hchapter)
      | skip hchapter hsection => exact ih (by exact h) (hrest hchapter)
    · have hstep := markdownStep_cases s block
      generalize markdownStep s block = next at hstep
      cases hstep with
      | sect hchapter _ =>
        rw [hchapter, if_neg Bool.false_ne_true, if_neg Bool.false_ne_true] at hone
        intro hmem
        rcases hone with hbefore | hfirst
        · rw [hbefore block (List.mem_cons_self ..)] at hsection
          cases hsection
        · have := sections_counted (by exact h) hfirst hmem
          push_cast at this
          omega
      | chapter hchapter =>
        simp only [MarkdownBlock.isChapter, MarkdownBlock.isSection, Bool.and_eq_true, decide_eq_true_eq] at hchapter hsection
        rw [hchapter.2] at hsection
        cases hsection.2
      | paragraph _ hnot =>
        rw [hnot] at hsection
        cases hsection
      | skip _ hnot =>
        rw [hnot] at hsection
        cases hsection

/-- A section of this chapter has the next number. -/
theorem section_mem {s : MarkdownState} {blocks : List MarkdownBlock} (h : ∃ block ∈ beforeChapter blocks, block.isSection = true) :
    [(PartKind.chapter, max (s.chapterIdx : ℤ) 1), (.sect, (s.sectionIdx : ℤ) + 1)] ∈ (markdownParts s blocks).map Part.path := by
  induction blocks generalizing s with
  | nil =>
    obtain ⟨_, h, -⟩ := h
    cases h
  | cons block blocks ih =>
    obtain ⟨b, hb, hsection⟩ := h
    rw [beforeChapter_cons] at hb
    rw [markdownParts_cons, List.map_append, List.mem_append]
    have hstep := markdownStep_cases s block
    generalize markdownStep s block = next at hstep
    cases hstep with
    | chapter hchapter =>
      rw [hchapter, if_pos rfl] at hb
      cases hb
    | sect hchapter hsect => exact .inl (List.mem_singleton_self _)
    | paragraph hchapter hnot =>
      rw [hchapter, if_neg Bool.false_ne_true] at hb
      rcases List.mem_cons.1 hb with rfl | hb
      · rw [hnot] at hsection
        cases hsection
      · exact .inr (ih ⟨b, hb, hsection⟩)
    | skip hchapter hnot =>
      rw [hchapter, if_neg Bool.false_ne_true] at hb
      rcases List.mem_cons.1 hb with rfl | hb
      · rw [hnot] at hsection
        cases hsection
      · exact .inr (ih ⟨b, hb, hsection⟩)

/-- A section of the first chapter is its first. -/
theorem first_section_mem {s : MarkdownState} (h : s.chapterIdx = 0) {blocks : List MarkdownBlock}
    (hsection : ∃ block ∈ firstChapter blocks, block.isSection = true) :
    [(PartKind.chapter, 1), (.sect, 1)] ∈ (markdownParts s blocks).map Part.path := by
  induction blocks generalizing s with
  | nil =>
    obtain ⟨_, hb, -⟩ := hsection
    cases hb
  | cons block blocks ih =>
    rw [firstChapter_cons] at hsection
    rw [markdownParts_cons, List.map_append, List.mem_append]
    have hstep := markdownStep_cases s block
    generalize markdownStep s block = next at hstep
    cases hstep with
    | chapter hchapter =>
      rw [hchapter, if_pos rfl] at hsection
      refine .inr ?_
      have := section_mem (s := { s with chapterIdx := s.chapterIdx + 1, sectionIdx := 0, currentChapParent := [(.chapter, s.chapterIdx + 1)] })
        hsection
      simpa [h] using this
    | sect hchapter _ =>
      rw [hchapter, if_neg Bool.false_ne_true] at hsection
      exact .inr (ih (by exact h) hsection)
    | paragraph hchapter _ =>
      rw [hchapter, if_neg Bool.false_ne_true] at hsection
      exact .inr (ih (by exact h) hsection)
    | skip hchapter _ =>
      rw [hchapter, if_neg Bool.false_ne_true] at hsection
      exact .inr (ih (by exact h) hsection)

/-- Sections before the first chapter and in it are numbered alike. -/
theorem not_nodup_markdown {s : MarkdownState} (h : s.chapterIdx = 0) (hnew : s.sectionIdx = 0) {blocks : List MarkdownBlock}
    (hbefore : ∃ block ∈ beforeChapter blocks, block.isSection = true) (hfirst : ∃ block ∈ firstChapter blocks, block.isSection = true) :
    ¬ ((markdownParts s blocks).map Part.path).Nodup := by
  induction blocks generalizing s with
  | nil =>
    obtain ⟨_, hb, -⟩ := hbefore
    cases hb
  | cons block blocks ih =>
    obtain ⟨b, hb, hsection⟩ := hbefore
    rw [beforeChapter_cons] at hb
    rw [firstChapter_cons] at hfirst
    rw [markdownParts_cons, List.map_append]
    have hstep := markdownStep_cases s block
    generalize markdownStep s block = next at hstep
    cases hstep with
    | chapter hchapter =>
      rw [hchapter, if_pos rfl] at hb
      cases hb
    | sect hchapter _ =>
      rw [hchapter, if_neg Bool.false_ne_true] at hfirst
      intro hnodup
      refine (List.nodup_cons.1 hnodup).1 ?_
      have := first_section_mem (s := { s with sectionIdx := s.sectionIdx + 1 }) h hfirst
      simpa [h, hnew] using this
    | paragraph hchapter hnot =>
      rw [hchapter, if_neg Bool.false_ne_true] at hb hfirst
      rcases List.mem_cons.1 hb with rfl | hb
      · rw [hnot] at hsection
        cases hsection
      · exact fun hnodup => ih (by exact h) (by exact hnew) ⟨b, hb, hsection⟩ hfirst (List.nodup_cons.1 hnodup).2
    | skip hchapter hnot =>
      rw [hchapter, if_neg Bool.false_ne_true] at hb hfirst
      rcases List.mem_cons.1 hb with rfl | hb
      · rw [hnot] at hsection
        cases hsection
      · exact ih h hnew ⟨b, hb, hsection⟩ hfirst

/-- A Markdown document's paths are its own unless it has sections both before its first chapter and in it. -/
theorem nodup_segmentMarkdown (blocks : List MarkdownBlock) :
    ((segmentMarkdown blocks).map Part.path).Nodup ↔ Document.Indexed (.markdown blocks) := by
  have hdoc : docPath ∉ (markdownParts {} blocks).map Part.path := by
    intro hmem
    have := path_from hmem
    cases this
  have hcons : ((segmentMarkdown blocks).map Part.path).Nodup ↔ ((markdownParts {} blocks).map Part.path).Nodup :=
    List.nodup_cons.trans (and_iff_right hdoc)
  rw [hcons]
  unfold Document.Indexed
  constructor
  · rintro hnodup ⟨hbefore, hfirst⟩
    exact not_nodup_markdown rfl rfl hbefore hfirst hnodup
  · intro h
    refine nodup_markdown rfl ?_
    by_cases hbefore : ∃ block ∈ beforeChapter blocks, block.isSection = true
    · refine .inr fun block hblock => ?_
      rw [← Bool.not_eq_true]
      exact fun hsection => h ⟨hbefore, block, hblock, hsection⟩
    · refine .inl fun block hblock => ?_
      rw [← Bool.not_eq_true]
      exact fun hsection => hbefore ⟨block, hblock, hsection⟩

/-! ## All documents -/

/-- **The inputs of a document have structural paths and keys of their own, each after its parent, if and only if its indices are its
own.** -/
theorem segments_iff (t : Tables) (hlower : LowersOnlyCapitals t) (word : Char → Bool) (origin : Origin) (doc : Document) :
    OwnPaths t (doc.inputs word origin) ↔ doc.Indexed := by
  cases doc with
  | txt text =>
    have hne : ∀ part ∈ segmentTxt word text, part.path ≠ [] := by
      intro part hpart hnil
      rcases List.mem_cons.1 hpart with rfl | hpart
      · cases hnil
      · obtain ⟨x, -, he⟩ := List.mem_flatMap.1 hpart
        have hprefix := under_chapter _ _ part he
        rw [hnil, List.prefix_nil] at hprefix
        cases hprefix
    exact iff_of_true ((ownPaths_iff hlower origin hne (rooted_txt word text)).2 (nodup_txt word text)) trivial
  | markdown blocks =>
    have hne : ∀ part ∈ segmentMarkdown blocks, part.path ≠ [] := by
      intro part hpart hnil
      rcases List.mem_cons.1 hpart with rfl | hpart
      · cases hnil
      · have := path_from (List.mem_map_of_mem (f := Part.path) hpart)
        rw [hnil] at this
        cases this
    have hrooted : Rooted Part.path Part.parent [] (segmentMarkdown blocks) :=
      Rooted.node nofun fun known h => rooted_markdown h h blocks
    exact (ownPaths_iff hlower origin hne hrooted).trans (nodup_segmentMarkdown blocks)
  | epub spine =>
    have hne : ∀ part ∈ segmentEpub spine, part.path ≠ [] := by
      intro part hpart hnil
      rcases List.mem_cons.1 hpart with rfl | hpart
      · cases hnil
      · obtain ⟨item, -, he⟩ := List.mem_flatMap.1 hpart
        have hprefix := under_spine item part he
        rw [hnil, List.prefix_nil] at hprefix
        cases hprefix
    exact (ownPaths_iff hlower origin hne (rooted_epub spine)).trans (nodup_segmentEpub spine)

/-- A source with a document in it. -/
def textOrigin : Origin where
  sourceId := "src1"
  sourceSha512 := String.ofList (List.replicate 128 'a')
  workId := none
  version := { segmenter := "umd-text", decoder := "umd-stdlib", renderer := "plain", version := 1 }
  made := by simp [PipelineVersion.Made, componentMarks]

/-- A word is a letter, a digit or an underscore. -/
def asciiWord (c : Char) : Bool := c.isAlphanum || c = '_'

theorem segments_iff_two_items :
    OwnPaths asciiTables (Document.inputs asciiWord textOrigin (.epub [⟨0, [⟨"Loomings", 0⟩]⟩, ⟨1, [⟨"The Carpet-Bag", 0⟩]⟩])) :=
  (segments_iff asciiTables asciiTables_lower asciiWord textOrigin _).2 ⟨by decide, by simp⟩

def chapterHeading : MarkdownBlock := { kind := "heading", text := "Part", level := some 1 }

def sectionHeading : MarkdownBlock := { kind := "heading", text := "Notes", level := some 2 }

/-- The two sections of this document are both numbered as the first of chapter one. -/
theorem two_first_sections : ¬ OwnPaths asciiTables (Document.inputs asciiWord textOrigin (.markdown [sectionHeading, chapterHeading, sectionHeading])) := by
  intro h
  have hnodup := h.paths
  revert hnodup
  decide +kernel

end Umd.Segmentation
