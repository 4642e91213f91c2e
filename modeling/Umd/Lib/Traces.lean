import Umd.Lib.Steps
/-!
# Sorting a run by swaps

A store maps keys to values, and an action is a partial function on stores that
reads some keys and writes some. Actions of which neither writes what the other
reads commute (`Local.comm`), and a run whose inverted pairs commute does what
it does in sorted order (`runAll_sorted`).
-/

namespace Umd.Lib

variable {σ β κ α : Type}

/-- `f` depends on no key outside `R` and changes none outside `W`. -/
structure Local (R W : κ → Prop) (f : (κ → α) → Option (κ → α)) : Prop where
  sub : ∀ k, W k → R k
  frame : ∀ {t t' : κ → α}, f t = some t' → ∀ k, ¬ W k → t' k = t k
  agree : ∀ {t u t' : κ → α}, (∀ k, R k → t k = u k) → f t = some t' → ∃ u', f u = some u' ∧ ∀ k, R k → t' k = u' k

/-- One order of two independent actions gives what the other gives. -/
theorem Local.swap {R W R' W' : κ → Prop} {f g : (κ → α) → Option (κ → α)} (hf : Local R W f) (hg : Local R' W' g)
    (hfg : ∀ k, W k → ¬ R' k) (hgf : ∀ k, W' k → ¬ R k) {t t₂ : κ → α} (h : (f t).bind g = some t₂) :
    (g t).bind f = some t₂ := by
  obtain ⟨t₁, h₁, h₂⟩ := Option.bind_eq_some_iff.1 h
  -- `g` sees the same before `f`, and `f` the same after `g`
  obtain ⟨u, hu, hue⟩ := hg.agree (fun k hk => hf.frame h₁ k fun hw => hfg k hw hk) h₂
  obtain ⟨u', hu', hue'⟩ := hf.agree (fun k hk => (hg.frame hu k fun hw => hgf k hw hk).symm) h₁
  refine Option.bind_eq_some_iff.2 ⟨u, hu, ?_⟩
  rw [hu']
  refine congrArg some (funext fun k => ?_)
  by_cases hw : W k
  · rw [← hue' k (hf.sub k hw), ← hg.frame h₂ k fun hw' => hgf k hw' (hf.sub k hw)]
  · rw [hf.frame hu' k hw]
    by_cases hw' : W' k
    · exact (hue k (hg.sub k hw')).symm
    · rw [hg.frame hu k hw', hg.frame h₂ k hw', hf.frame h₁ k hw]

/-- Independent actions commute, also where one of them fails. -/
theorem Local.comm {R W R' W' : κ → Prop} {f g : (κ → α) → Option (κ → α)} (hf : Local R W f) (hg : Local R' W' g)
    (hfg : ∀ k, W k → ¬ R' k) (hgf : ∀ k, W' k → ¬ R k) (t : κ → α) : (f t).bind g = (g t).bind f := by
  ext t₂
  exact ⟨hf.swap hg hfg hgf, hg.swap hf hgf hfg⟩

/-- An action that does nothing. -/
theorem Local.skip : Local (κ := κ) (α := α) (fun _ => False) (fun _ => False) some :=
  ⟨fun _ h => h, fun h _ _ => by cases h; rfl, fun {_ u _} _ _ => ⟨u, rfl, fun _ hk => hk.elim⟩⟩

variable {step : σ → β → Option σ} {key : β → Nat}

/-- Two steps commute from every state. -/
def Swaps (step : σ → β → Option σ) (a b : β) : Prop :=
  ∀ s, ((step s a).bind fun s' => step s' b) = (step s b).bind fun s' => step s' a

theorem runAll_orderedInsert {a : β} {l : List β} (h : ∀ b ∈ l, key b < key a → Swaps step a b) (s : σ) :
    runAll step s (l.orderedInsert (fun b c => key b ≤ key c) a) = runAll step s (a :: l) := by
  induction l generalizing s with
  | nil => rfl
  | cons b l ih =>
    rw [List.orderedInsert]
    split
    · rfl
    · rename_i hlt
      have hswap := h b (by simp) (by omega) s
      calc runAll step s (b :: l.orderedInsert (fun b c => key b ≤ key c) a)
          = (step s b).bind fun s' => runAll step s' (a :: l) :=
            congrArg _ (funext fun s' => ih (fun c hc => h c (by simp [hc])) s')
        _ = ((step s b).bind fun s' => step s' a).bind fun s' => runAll step s' l := by
            rw [Option.bind_assoc]; rfl
        _ = runAll step s (a :: b :: l) := by rw [← hswap, Option.bind_assoc]; rfl

/-- A run whose inverted pairs commute does what it does sorted. -/
theorem runAll_sorted {l : List β} (h : l.Pairwise fun a b => key b < key a → Swaps step a b) (s : σ) :
    runAll step s (l.insertionSort fun a b => key a ≤ key b) = runAll step s l := by
  induction l generalizing s with
  | nil => rfl
  | cons a l ih =>
    obtain ⟨ha, hl⟩ := List.pairwise_cons.1 h
    rw [List.insertionSort_cons, runAll_orderedInsert fun b hb => ha b ((List.mem_insertionSort _).1 hb)]
    exact congrArg (Option.bind (step s a)) (funext fun s' => ih hl s')

end Umd.Lib
