import Umd.Lib.JsonRead
import Umd.Segmentation.Register
/-!
# Structural paths

A structural path as kinds and numbers, and as the text that is registered. The text says
which path it is (`pathText_inj`), and normalising leaves it as it is (`norm_pathText`).
-/

namespace Umd.Segmentation

open Umd.Lib Umd.Locators

/-- The segment types of the drivers; `sect` is a section. -/
inductive PartKind where
  | document
  | chapter
  | sect
  | paragraph
  | sentence
  | token
deriving DecidableEq

def PartKind.name : PartKind → String
  | document => "document"
  | chapter => "chapter"
  | sect => "section"
  | paragraph => "paragraph"
  | sentence => "sentence"
  | token => "token"

theorem PartKind.name_inj {kind kind' : PartKind} (h : kind.name = kind'.name) : kind = kind' := by
  revert h
  cases kind <;> cases kind' <;> decide

/-- A structural path: kinds and numbers. -/
abbrev Steps := List (PartKind × ℤ)

/-- `chapter/1/section/1` -/
def pathText (steps : Steps) : String := "/".intercalate (steps.flatMap fun step => [step.1.name, toString step.2])

/-- `str.lower` leaves lower-case letters, digits, slashes and hyphens. -/
def LowersOnlyCapitals (t : Tables) : Prop :=
  ∀ s : String, (∀ c ∈ s.toList, c.isLower = true ∨ c.isDigit = true ∨ c = '/' ∨ c = '-') → t.lower s = s

/-! ## Paths as texts -/

/-- The components of a path. -/
def comps (steps : Steps) : List (List Char) := steps.flatMap fun step => [step.1.name.toList, (toString step.2).toList]

/-- What a component is made of. -/
def StepChar (c : Char) : Prop := c.isLower = true ∨ c.isDigit = true ∨ c = '-'

theorem StepChar.ne_slash {c : Char} (h : StepChar c) : c ≠ '/' := by
  rintro rfl
  rcases h with h | h | h <;> revert h <;> decide

theorem StepChar.not_space {c : Char} (h : StepChar c) : Projections.isSpace c = false := by
  unfold Projections.isSpace
  have hc : 97 ≤ c.toNat ∧ c.toNat ≤ 122 ∨ 48 ≤ c.toNat ∧ c.toNat ≤ 57 ∨ c.toNat = 45 := by
    rcases h with h | h | rfl
    · exact .inl (by simpa [Char.isLower, UInt32.le_iff_toNat_le] using h)
    · exact .inr (.inl (by simpa [Char.isDigit, UInt32.le_iff_toNat_le] using h))
    · exact .inr (.inr rfl)
  simp only [Bool.or_eq_false_iff, Bool.and_eq_false_iff, decide_eq_false_iff_not]
  omega

theorem int_text (n : ℤ) : (toString n).toList = (if n < 0 then ['-'] else []) ++ Nat.toDigits 10 n.natAbs := text_int n

theorem int_text_inj {m n : ℤ} (h : toString m = toString n) : m = n := by
  have hlist := congrArg String.toList h
  rw [int_text, int_text] at hlist
  have hdigits : ∀ k : Nat, '-' ∉ Nat.toDigits 10 k := fun k hk => by
    have := toDigits_digits k _ hk
    revert this
    decide
  have hval : ∀ {j k : Nat}, Nat.toDigits 10 j = Nat.toDigits 10 k → j = k := fun {j k} hjk => by
    rw [← Nat.ofDigitChars_ten_toDigits (n := j), hjk, Nat.ofDigitChars_ten_toDigits]
  by_cases hm : m < 0
  · by_cases hn : n < 0
    · rw [if_pos hm, if_pos hn] at hlist
      have := hval (List.append_cancel_left hlist)
      omega
    · rw [if_pos hm, if_neg hn] at hlist
      exact absurd (by rw [List.nil_append] at hlist; rw [← hlist]; simp) (hdigits n.natAbs)
  · by_cases hn : n < 0
    · rw [if_neg hm, if_pos hn] at hlist
      exact absurd (by rw [List.nil_append] at hlist; rw [hlist]; simp) (hdigits m.natAbs)
    · rw [if_neg hm, if_neg hn] at hlist
      have := hval (List.append_cancel_left hlist)
      omega

theorem comps_plain {steps : Steps} {comp : List Char} (h : comp ∈ comps steps) : comp ≠ [] ∧ ∀ c ∈ comp, StepChar c := by
  obtain ⟨step, -, hcomp⟩ := List.mem_flatMap.1 h
  rcases List.mem_cons.1 hcomp with rfl | hcomp
  · cases step.1 <;> exact ⟨by decide, fun c hc => .inl (List.all_eq_true.1 (by decide : List.all _ Char.isLower = true) c hc)⟩
  · rw [List.mem_singleton.1 hcomp, int_text]
    refine ⟨by simp [Nat.toDigits_ne_nil], fun c hc => ?_⟩
    rcases List.mem_append.1 hc with hc | hc
    · split at hc
      · exact .inr (.inr (List.mem_singleton.1 hc))
      · cases hc
    · exact .inr (.inl (by rw [← isDigit_eq]; exact toDigits_digits _ c hc))

theorem comps_inj {steps steps' : Steps} (h : comps steps = comps steps') : steps = steps' := by
  induction steps generalizing steps' with
  | nil =>
    cases steps' with
    | nil => rfl
    | cons step' steps' => cases h
  | cons step steps ih =>
    cases steps' with
    | nil => cases h
    | cons step' steps' =>
      obtain ⟨kind, n⟩ := step
      obtain ⟨kind', n'⟩ := step'
      obtain ⟨hkind, htail⟩ := List.cons.inj h
      obtain ⟨hn, hrest⟩ := List.cons.inj htail
      have hk : kind = kind' := PartKind.name_inj (String.toList_inj.1 hkind)
      have hnum : n = n' := int_text_inj (String.toList_inj.1 hn)
      rw [hk, hnum, ih hrest]

theorem pathText_toList (steps : Steps) : (pathText steps).toList = ['/'].intercalate (comps steps) := by
  have hmap : comps steps = (steps.flatMap fun step => [step.1.name, toString step.2]).map String.toList := by
    unfold comps
    rw [List.map_flatMap]
    rfl
  unfold pathText
  rw [hmap]
  exact String.toList_intercalate ..

/-- Components that are joined, and what normalising does with them. -/
structure Joined (cs : List Char) : Prop where
  chars : ∀ c ∈ cs, StepChar c ∨ c = '/'
  starts : ∃ c rest, cs = c :: rest ∧ StepChar c
  ends : ∃ rest c, cs = rest ++ [c] ∧ StepChar c
  once : collapseSlashes false cs = cs

/-- A component in front of a text. -/
theorem collapse_comp {comp : List Char} (h : ∀ c ∈ comp, StepChar c) (rest : List Char) :
    collapseSlashes false (comp ++ rest) = comp ++ collapseSlashes false rest := by
  induction comp with
  | nil => rfl
  | cons c comp ih =>
    rw [List.cons_append, collapseSlashes, if_neg (h c (List.mem_cons_self ..)).ne_slash,
      ih fun d hd => h d (List.mem_cons_of_mem _ hd), List.cons_append]

theorem joined_comps {cs : List (List Char)} (hne : cs ≠ []) (h : ∀ comp ∈ cs, comp ≠ [] ∧ ∀ c ∈ comp, StepChar c) :
    Joined (['/'].intercalate cs) := by
  induction cs with
  | nil => exact absurd rfl hne
  | cons comp cs ih =>
    obtain ⟨hcomp, hchars⟩ := h comp (List.mem_cons_self ..)
    obtain ⟨c, comp', rfl⟩ := List.exists_cons_of_ne_nil hcomp
    have hc := hchars c (List.mem_cons_self ..)
    cases cs with
    | nil =>
      rw [List.intercalate_singleton]
      refine ⟨fun d hd => .inl (hchars d hd), ⟨c, comp', rfl, hc⟩, ?_, ?_⟩
      · obtain ⟨rest, d, hd⟩ := List.eq_nil_or_concat' (c :: comp') |>.resolve_left (List.cons_ne_nil _ _)
        exact ⟨rest, d, hd, hchars d (by rw [hd]; simp)⟩
      · have := collapse_comp hchars []
        simpa [collapseSlashes] using this
    | cons comp₂ cs =>
      obtain ⟨hall, ⟨d, rest, hstart, hd⟩, ⟨rest', e, hend, he⟩, honce⟩ := ih (List.cons_ne_nil _ _) fun comp hcomp =>
        h comp (List.mem_cons_of_mem _ hcomp)
      rw [List.intercalate_cons_cons]
      refine ⟨fun x hx => ?_, ⟨c, _, rfl, hc⟩, ⟨(c :: comp') ++ ['/'] ++ rest', e, by rw [hend]; simp, he⟩, ?_⟩
      · rcases List.mem_append.1 hx with hx | hx
        · rcases List.mem_append.1 hx with hx | hx
          · exact .inl (hchars x hx)
          · exact .inr (List.mem_singleton.1 hx)
        · exact hall x hx
      · rw [List.append_assoc, collapse_comp hchars, List.singleton_append, hstart]
        rw [hstart] at honce
        rw [collapseSlashes, if_pos rfl, if_neg Bool.false_ne_true, collapseSlashes, if_neg hd.ne_slash]
        rw [collapseSlashes, if_neg hd.ne_slash] at honce
        rw [honce]

variable {t : Tables}

/-- A structural path is normalised to itself. -/
theorem norm_pathText (hlower : LowersOnlyCapitals t) {steps : Steps} (hne : steps ≠ []) :
    normStructuralPath t (pathText steps) = pathText steps := by
  have hcomps : comps steps ≠ [] := by
    obtain ⟨step, rest, rfl⟩ := List.exists_cons_of_ne_nil hne
    exact List.cons_ne_nil _ _
  obtain ⟨hchars, ⟨c, rest, hstart, hc⟩, ⟨rest', d, hend, hd⟩, honce⟩ := joined_comps hcomps fun _ => comps_plain
  rw [← pathText_toList] at hchars hstart hend honce
  have hfilter : (pathText steps).toList.filter (fun c => !Projections.isSpace c) = (pathText steps).toList := by
    refine List.filter_eq_self.2 fun x hx => ?_
    rcases hchars x hx with hx | rfl
    · rw [hx.not_space]
      rfl
    · rfl
  have hstrip : stripSlashes (pathText steps).toList = (pathText steps).toList := by
    have hfront : (pathText steps).toList.dropWhile (· = '/') = (pathText steps).toList := by
      rw [hstart, List.dropWhile_cons, if_neg (by simpa using hc.ne_slash)]
    have hback : (pathText steps).toList.reverse.dropWhile (· = '/') = (pathText steps).toList.reverse := by
      rw [hend, List.reverse_append, List.reverse_singleton, List.singleton_append, List.dropWhile_cons,
        if_neg (by simpa using hd.ne_slash)]
    unfold stripSlashes
    rw [hfront, hback, List.reverse_reverse]
  unfold normStructuralPath
  rw [hfilter, hstrip, honce, String.ofList_toList]
  refine hlower _ fun x hx => ?_
  rcases hchars x hx with (hx | hx | hx) | hx
  · exact .inl hx
  · exact .inr (.inl hx)
  · exact .inr (.inr (.inr hx))
  · exact .inr (.inr (.inl hx))

theorem pathText_inj {steps steps' : Steps} (hne : steps ≠ []) (hne' : steps' ≠ []) (h : pathText steps = pathText steps') :
    steps = steps' := by
  have hslash : ∀ steps : Steps, ∀ comp ∈ comps steps, '/' ∉ comp := by
    intro steps comp hcomp hmem
    exact ((comps_plain hcomp).2 _ hmem).ne_slash rfl
  have hcomps : ∀ {steps : Steps}, steps ≠ [] → comps steps ≠ [] := by
    rintro steps hne
    obtain ⟨step, rest, rfl⟩ := List.exists_cons_of_ne_nil hne
    exact List.cons_ne_nil _ _
  have hlist : (pathText steps).toList.splitOn '/' = (pathText steps').toList.splitOn '/' := by rw [h]
  rw [pathText_toList, pathText_toList, List.splitOn_intercalate _ (hslash _) (hcomps hne),
    List.splitOn_intercalate _ (hslash _) (hcomps hne')] at hlist
  exact comps_inj hlist

theorem asciiTables_lower : LowersOnlyCapitals asciiTables := by
  intro s hs
  have hmap : s.toList.map Char.toLower = s.toList := by
    refine (List.map_congr_left fun c hc => ?_).trans (List.map_id _)
    unfold Char.toLower
    rw [dif_neg]
    · rfl
    · rintro ⟨hlow, hhigh⟩
      rw [ge_iff_le, UInt32.le_iff_toNat_le] at hlow
      rw [UInt32.le_iff_toNat_le] at hhigh
      rcases hs c hc with h | h | rfl | rfl
      · simp only [Char.isLower, Bool.and_eq_true, decide_eq_true_eq, ge_iff_le, UInt32.le_iff_toNat_le] at h
        exact absurd (h.1.trans hhigh) (by decide)
      · simp only [Char.isDigit, Bool.and_eq_true, decide_eq_true_eq, ge_iff_le, UInt32.le_iff_toNat_le] at h
        exact absurd (hlow.trans h.2) (by decide)
      · exact absurd hlow (by decide)
      · exact absurd hlow (by decide)
  change String.ofList (s.toList.map Char.toLower) = s
  rw [hmap, String.ofList_toList]

end Umd.Segmentation
