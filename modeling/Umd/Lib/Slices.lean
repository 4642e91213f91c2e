import Mathlib
/-!
# Folds read through a view

A fold that may fail, of which only a part of the state is looked at. Where a step shows in
the view only if it is relevant, and does the same to any two states that look the same, the
relevant steps alone leave the view that all steps leave (`foldlM_filter`), and the last one of
them leads to it from the view of those before (`foldlM_last`).
-/

namespace Umd.Lib

variable {σ ε δ α : Type}

/-- A step shows in the view only where it is relevant, and then as the view alone decides. -/
structure Sliced (step : σ → ε → Except δ σ) (relevant : ε → Bool) (view : σ → α) (e : ε) : Prop where
  skip : relevant e = false → ∀ {s s' : σ}, step s e = .ok s' → view s' = view s
  keep : relevant e = true → ∀ {s t s' : σ}, view s = view t → step s e = .ok s' → ∃ t', step t e = .ok t' ∧ view s' = view t'

variable {step : σ → ε → Except δ σ} {relevant : ε → Bool} {view : σ → α}

/-- The relevant steps go through where all do, and leave the same view. -/
theorem foldlM_filter {es : List ε} (h : ∀ e ∈ es, Sliced step relevant view e) {s t s' : σ} (hview : view s = view t)
    (hs : es.foldlM step s = .ok s') : ∃ t', (es.filter relevant).foldlM step t = .ok t' ∧ view s' = view t' := by
  induction es generalizing s t with
  | nil =>
    cases hs
    exact ⟨t, rfl, hview⟩
  | cons e es ih =>
    have hrest : ∀ e ∈ es, Sliced step relevant view e := fun e he => h e (List.mem_cons_of_mem _ he)
    have hhead := h e List.mem_cons_self
    rw [List.foldlM_cons] at hs
    cases hstep : step s e with
    | error err => simp [hstep, bind, Except.bind] at hs
    | ok s₁ =>
      simp only [hstep, bind, Except.bind] at hs
      cases hrel : relevant e with
      | false =>
        rw [List.filter_cons_of_neg (by simp [hrel])]
        exact ih hrest ((hhead.skip hrel hstep).trans hview) hs
      | true =>
        obtain ⟨t₁, ht, hview₁⟩ := hhead.keep hrel hview hstep
        obtain ⟨t', ht', hview'⟩ := ih hrest hview₁ hs
        refine ⟨t', ?_, hview'⟩
        rw [List.filter_cons_of_pos hrel, List.foldlM_cons]
        simpa only [ht, bind, Except.bind] using ht'

/-- Steps none of which is relevant leave the view. -/
theorem foldlM_skip {es : List ε} (h : ∀ e ∈ es, Sliced step relevant view e) (hnone : ∀ e ∈ es, relevant e = false) {s s' : σ}
    (hs : es.foldlM step s = .ok s') : view s' = view s := by
  obtain ⟨t', ht', hview⟩ := foldlM_filter h rfl hs
  rw [List.filter_eq_nil_iff.2 fun e he => by simp [hnone e he]] at ht'
  cases ht'
  exact hview

/-- The last relevant step, if there is one. -/
theorem last_relevant {es : List ε} (h : ∃ e ∈ es, relevant e = true) :
    ∃ pre last post, es = pre ++ last :: post ∧ relevant last = true ∧ ∀ e ∈ post, relevant e = false := by
  induction es with
  | nil => simp at h
  | cons e es ih =>
    by_cases hlater : ∃ e ∈ es, relevant e = true
    · obtain ⟨pre, last, post, rfl, hlast, hpost⟩ := ih hlater
      exact ⟨e :: pre, last, post, rfl, hlast, hpost⟩
    · obtain ⟨e', he', hrel⟩ := h
      rcases List.mem_cons.1 he' with rfl | he'
      · exact ⟨[], e', es, rfl, hrel, fun e he => by simpa using fun hr => hlater ⟨e, he, hr⟩⟩
      · exact absurd ⟨e', he', hrel⟩ hlater

/-- The relevant steps before the last one leave the view from which this one alone leads to the view that all steps leave. -/
theorem foldlM_last {es : List ε} (h : ∀ e ∈ es, Sliced step relevant view e) (hsome : ∃ e ∈ es, relevant e = true) {s s' : σ}
    (hs : es.foldlM step s = .ok s') :
    ∃ pre last post before after folded, es = pre ++ last :: post ∧ relevant last = true ∧ (∀ e ∈ post, relevant e = false) ∧
      pre.foldlM step s = .ok before ∧ step before last = .ok after ∧ view s' = view after ∧
      es.filter relevant = pre.filter relevant ++ [last] ∧ (pre.filter relevant).foldlM step s = .ok folded ∧ view before = view folded := by
  obtain ⟨pre, last, post, rfl, hlast, hpost⟩ := last_relevant hsome
  rw [List.foldlM_append] at hs
  cases hbefore : pre.foldlM step s with
  | error err => simp [hbefore, bind, Except.bind] at hs
  | ok before =>
    simp only [hbefore, bind, Except.bind, List.foldlM_cons] at hs
    cases hafter : step before last with
    | error err => simp [hafter] at hs
    | ok after =>
      simp only [hafter] at hs
      obtain ⟨folded, hfolded, hview⟩ := foldlM_filter (fun e he => h e (by simp [he])) rfl hbefore
      refine ⟨pre, last, post, before, after, folded, rfl, hlast, hpost, hbefore, hafter, ?_, ?_, hfolded, hview⟩
      · exact foldlM_skip (fun e he => h e (by simp [he])) hpost hs
      · have hnone : post.filter relevant = [] := List.filter_eq_nil_iff.2 fun e he => by simp [hpost e he]
        rw [List.filter_append, List.filter_cons_of_pos hlast, hnone]

end Umd.Lib
