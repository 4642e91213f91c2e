import Umd.Lib.Patterns
/-!
# What patterns take, and what a first split leaves

The characters that a pattern takes off a text, and the text that `splitFirst` leaves
before a separator, which does not occur there.
-/

namespace Umd.Lib

variable {α : Type}

namespace Pattern

/-- What a pattern takes off a text is made of such characters. -/
def Takes (p : Pattern α) (q : α → Prop) : Prop := ∀ s rest, rest ∈ p s → ∃ ds, s = ds ++ rest ∧ ∀ c ∈ ds, q c

variable {p p' : Pattern α} {q : α → Prop}

theorem takes_one {f : α → Bool} (h : ∀ c, f c = true → q c) : Takes (one f) q := by
  intro s rest hrest
  obtain ⟨c, hc, rfl⟩ := mem_one_iff.1 hrest
  exact ⟨[c], rfl, by simpa using h c hc⟩

theorem takes_star {f : α → Bool} (h : ∀ c, f c = true → q c) : Takes (star f) q := by
  intro s rest hrest
  obtain ⟨ds, hds, rfl⟩ := mem_star_iff.1 hrest
  exact ⟨ds, rfl, fun c hc => h c (hds c hc)⟩

theorem takes_plus {f : α → Bool} (h : ∀ c, f c = true → q c) : Takes (plus f) q := by
  intro s rest hrest
  obtain ⟨ds, -, hds, rfl⟩ := mem_plus_iff.1 hrest
  exact ⟨ds, rfl, fun c hc => h c (hds c hc)⟩

theorem Takes.andThen (h : Takes p q) (h' : Takes p' q) : Takes (andThen p p') q := by
  intro s rest hrest
  obtain ⟨mid, hmid, hlast⟩ := mem_andThen_iff.1 hrest
  obtain ⟨ds, rfl, hds⟩ := h s mid hmid
  obtain ⟨es, rfl, hes⟩ := h' mid rest hlast
  refine ⟨ds ++ es, (List.append_assoc ..).symm, fun c hc => ?_⟩
  rcases List.mem_append.1 hc with hc | hc
  · exact hds c hc
  · exact hes c hc

theorem Takes.opt (h : Takes p q) : Takes (opt p) q := by
  intro s rest hrest
  rcases mem_opt_iff.1 hrest with hrest | rfl
  · exact h s rest hrest
  · exact ⟨[], rfl, nofun⟩

end Pattern

variable [DecidableEq α] {sep s a b : List α}

theorem not_infix_of_splitFirst_none (h : splitFirst sep s = none) : ¬ sep <:+: s := by
  induction s with
  | nil =>
    intro hi
    rw [List.infix_nil] at hi
    rw [hi] at h
    cases h
  | cons c cs ih =>
    rw [splitFirst_cons] at h
    split at h
    · cases h
    · rename_i hp
      intro hi
      rcases List.infix_cons_iff.1 hi with hi | hi
      · exact hp hi
      · exact ih (Option.map_eq_none_iff.1 h) hi

/-- The parts of a split, and that the separator does not occur in the first. -/
theorem splitFirst_some (hne : sep ≠ []) (h : splitFirst sep s = some (a, b)) : s = a ++ (sep ++ b) ∧ ¬ sep <:+: a := by
  induction s generalizing a with
  | nil =>
    unfold splitFirst at h
    rw [if_neg hne] at h
    cases h
  | cons c cs ih =>
    rw [splitFirst_cons] at h
    split at h
    · rename_i hp
      cases h
      refine ⟨(List.prefix_iff_eq_append.1 hp).symm, fun hi => hne (List.infix_nil.1 hi)⟩
    · rename_i hp
      obtain ⟨⟨a', b'⟩, hsplit, heq⟩ := Option.map_eq_some_iff.1 h
      cases heq
      obtain ⟨hcs, hnot⟩ := ih hsplit
      refine ⟨by rw [hcs]; rfl, fun hi => ?_⟩
      rcases List.infix_cons_iff.1 hi with hi | hi
      · -- it would be found at once
        refine hp (hi.trans ?_)
        rw [hcs]
        exact List.prefix_append (c :: a') _
      · exact hnot hi

end Umd.Lib
