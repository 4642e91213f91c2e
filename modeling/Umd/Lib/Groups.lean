import Umd.Lib.Runs
/-!
# Groups of runs

Runs in order are split where two neighbours do not belong together. The groups are in order
and apart, and two neighbours lie in the span of one group if and only if they belong together
(`span_together_iff`).
-/

namespace Umd.Lib

/-- Neighbours that belong together are in one group. -/
theorem together {α : Type} {near : α → α → Bool} {gs : List (List α)} {A B : List α} {a b : α}
    (hchain : gs.IsChain fun g g' => ∃ h h', near (g.getLast h) (g'.head h') = false) (hflat : gs.flatten = A ++ a :: b :: B)
    (hnear : near a b = true) : ∃ g ∈ gs, a ∈ g ∧ b ∈ g := by
  induction gs generalizing A with
  | nil => simp at hflat
  | cons g gs ih =>
    rw [List.flatten_cons, List.append_eq_append_iff] at hflat
    rcases hflat with ⟨C, -, hrest⟩ | ⟨C, hg, hrest⟩
    · obtain ⟨g', hg', hin⟩ := ih hchain.tail hrest
      exact ⟨g', List.mem_cons_of_mem _ hg', hin⟩
    · rcases C with _ | ⟨c, _ | ⟨d, C⟩⟩
      · obtain ⟨g', hg', hin⟩ := @ih [] hchain.tail hrest.symm
        exact ⟨g', List.mem_cons_of_mem _ hg', hin⟩
      · -- the first ends the group, and the second begins the next
        rw [List.cons_append, List.nil_append, List.cons.injEq] at hrest
        obtain ⟨rfl, hrest⟩ := hrest
        exfalso
        cases gs with
        | nil => cases hrest
        | cons g' gs =>
          obtain ⟨⟨h, h', hfar⟩, -⟩ := List.isChain_cons_cons.1 hchain
          obtain ⟨c, cs, rfl⟩ := List.exists_cons_of_ne_nil h'
          rw [List.flatten_cons, List.cons_append, List.cons.injEq] at hrest
          subst hg
          rw [List.getLast_append_singleton, List.head_cons, ← hrest.1, hnear] at hfar
          cases hfar
      · rw [List.cons_append, List.cons_append, List.cons.injEq, List.cons.injEq] at hrest
        obtain ⟨rfl, rfl, -⟩ := hrest
        exact ⟨g, List.mem_cons_self, by rw [hg]; simp, by rw [hg]; simp⟩

/-- The start of the first run of a group, and the end of the last one. -/
def span (g : List (Nat × Nat)) : Nat × Nat := ((g.headD (0, 0)).1, (g.getLastD (0, 0)).2)

/-- Runs in order, none of which is empty. -/
structure Apart (rs : List (Nat × Nat)) : Prop where
  lt : ∀ r ∈ rs, r.1 < r.2
  apart : rs.Pairwise fun r r' => r.2 < r'.1

theorem Apart.sublist {rs rs' : List (Nat × Nat)} (h : Apart rs) (hsub : rs'.Sublist rs) : Apart rs' :=
  ⟨fun r hr => h.lt r (hsub.subset hr), h.apart.sublist hsub⟩

theorem Apart.span_le {g : List (Nat × Nat)} (h : Apart g) {r : Nat × Nat} (hr : r ∈ g) : (span g).1 ≤ r.1 ∧ r.2 ≤ (span g).2 := by
  constructor
  · cases g with
    | nil => cases hr
    | cons x xs =>
      rcases List.mem_cons.1 hr with rfl | hr
      · exact le_rfl
      · have hlt := h.lt x List.mem_cons_self
        have hapart := (List.pairwise_cons.1 h.apart).1 r hr
        exact hlt.le.trans hapart.le
  · obtain rfl | ⟨ys, y, rfl⟩ := List.eq_nil_or_concat g
    · cases hr
    · rw [List.concat_eq_append] at hr h ⊢
      rw [span, List.getLastD_concat]
      rcases List.mem_append.1 hr with hr | hr
      · have hlt := h.lt y (by simp)
        have hapart := (List.pairwise_append.1 h.apart).2.2 r hr y (by simp)
        exact hapart.le.trans hlt.le
      · rw [List.mem_singleton.1 hr]

/-- Two elements of a list in order are one, or in order one way or the other. -/
theorem pairwise_cases {α : Type} {R : α → α → Prop} {l : List α} (h : l.Pairwise R) {a b : α} (ha : a ∈ l) (hb : b ∈ l) :
    a = b ∨ R a b ∨ R b a := by
  induction h with
  | nil => cases ha
  | cons hrel _ ih =>
    rcases List.mem_cons.1 ha with rfl | ha'
    · rcases List.mem_cons.1 hb with rfl | hb'
      · exact .inl rfl
      · exact .inr (.inl (hrel b hb'))
    · rcases List.mem_cons.1 hb with rfl | hb'
      · exact .inr (.inr (hrel a ha'))
      · exact ih ha' hb'

section

variable {near : Nat × Nat → Nat × Nat → Bool} {rs : List (Nat × Nat)}

/-- Every run is in a group. -/
theorem group_of_run {r : Nat × Nat} (hr : r ∈ rs) : ∃ g ∈ rs.splitBy near, r ∈ g := by
  rw [← List.flatten_splitBy near rs] at hr
  exact List.mem_flatten.1 hr

theorem run_of_group {g : List (Nat × Nat)} (hg : g ∈ rs.splitBy near) {r : Nat × Nat} (hr : r ∈ g) : r ∈ rs := by
  rw [← List.flatten_splitBy near rs]
  exact List.mem_flatten.2 ⟨g, hg, hr⟩

/-- The span of a group begins and ends with runs of it. -/
theorem span_mem {g : List (Nat × Nat)} (hg : g ∈ rs.splitBy near) : (∃ a ∈ g, (span g).1 = a.1) ∧ ∃ b ∈ g, (span g).2 = b.2 := by
  have hne := List.ne_nil_of_mem_splitBy hg
  refine ⟨⟨g.headD (0, 0), ?_, rfl⟩, g.getLastD (0, 0), ?_, rfl⟩
  · rw [List.headD_eq_head?_getD, List.head?_eq_some_head hne]
    exact List.head_mem hne
  · rw [List.getLastD_eq_getLast?, List.getLast?_eq_some_getLast hne]
    exact List.getLast_mem hne

variable (h : Apart rs)

include h

/-- The groups are in order, and apart. -/
theorem groups_apart : (rs.splitBy near).Pairwise fun g g' => ∀ r ∈ g, ∀ r' ∈ g', r.2 < r'.1 := by
  have hapart := h.apart
  rw [← List.flatten_splitBy near rs, List.pairwise_flatten] at hapart
  exact hapart.2

theorem group_apart {g : List (Nat × Nat)} (hg : g ∈ rs.splitBy near) : Apart g := by
  refine h.sublist ?_
  have hsub := List.sublist_flatten_of_mem hg
  rwa [List.flatten_splitBy] at hsub

/-- A run in the span of a group is one of it. -/
theorem mem_of_span {g : List (Nat × Nat)} (hg : g ∈ rs.splitBy near) {r : Nat × Nat} (hr : r ∈ rs) (hfirst : (span g).1 ≤ r.1)
    (hlast : r.2 ≤ (span g).2) : r ∈ g := by
  obtain ⟨g', hg', hin⟩ := @group_of_run near rs r hr
  obtain ⟨⟨a, ha, hspan⟩, b, hb, hspan'⟩ := span_mem hg
  rw [hspan] at hfirst
  rw [hspan'] at hlast
  have hlt := h.lt r hr
  rcases pairwise_cases (groups_apart h) hg hg' with rfl | hbefore | hafter
  · exact hin
  · exact absurd (hbefore b hb r hin) (by omega)
  · exact absurd (hafter r hin a ha) (by omega)

/-- Neighbours lie in the span of one group if and only if they belong together. -/
theorem span_together_iff {A B : List (Nat × Nat)} {a b : Nat × Nat} (hrs : rs = A ++ a :: b :: B) :
    (∃ g ∈ rs.splitBy near, (span g).1 ≤ a.1 ∧ b.2 ≤ (span g).2) ↔ near a b = true := by
  have hina : a ∈ rs := by rw [hrs]; simp
  have hinb : b ∈ rs := by rw [hrs]; simp
  have hapart := h.apart
  rw [hrs, List.pairwise_append, List.pairwise_cons, List.pairwise_cons] at hapart
  obtain ⟨-, ⟨hafter, hbeyond, -⟩, hbefore⟩ := hapart
  have hab := hafter b List.mem_cons_self
  have hlta := h.lt a hina
  have hltb := h.lt b hinb
  constructor
  · rintro ⟨g, hg, hfirst, hlast⟩
    have hag := mem_of_span h hg hina hfirst (by omega)
    have hbg := mem_of_span h hg hinb (by omega) hlast
    by_contra hfar
    have hsplit : rs.splitBy near = (A ++ [a]).splitBy near ++ (b :: B).splitBy near := by
      rw [hrs, show A ++ a :: b :: B = (A ++ [a]) ++ b :: B by simp]
      refine List.splitBy_append_cons B fun x hx => ?_
      rw [List.getLast?_concat] at hx
      obtain rfl := Option.some.inj hx
      exact Bool.eq_false_iff.2 hfar
    rw [hsplit] at hg
    rcases List.mem_append.1 hg with hg | hg
    · -- the second would come before the first
      rcases List.mem_append.1 (run_of_group hg hbg) with hb | hb
      · have := hbefore b hb a List.mem_cons_self
        omega
      · rw [List.mem_singleton.1 hb] at hab
        omega
    · rcases List.mem_cons.1 (run_of_group hg hag) with hb | hb
      · rw [hb] at hab
        omega
      · have := hbeyond a hb
        omega
  · intro hnear
    obtain ⟨g, hg, hag, hbg⟩ :=
      together (List.isChain_getLast_head_splitBy near rs) ((List.flatten_splitBy near rs).trans hrs) hnear
    exact ⟨g, hg, ((group_apart h hg).span_le hag).1, ((group_apart h hg).span_le hbg).2⟩

end

end Umd.Lib
