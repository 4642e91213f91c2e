import Umd.Lib.Runs
/-!
# Runs with their short gaps closed

`closeGaps gap rs` joins neighbouring runs that are at most `gap` apart. Of the maximal runs of a
list it leaves exactly the stretches that begin and end on, are never off for longer than `gap`
inside, and are off for longer than that around (`mem_closeGaps_iff`).
-/

namespace Umd.Lib

/-- The runs from an open one on. -/
def closeFrom (gap : Nat) (prev : Nat × Nat) : List (Nat × Nat) → List (Nat × Nat)
  | [] => [prev]
  | r :: rs => if r.1 - prev.2 ≤ gap then closeFrom gap (prev.1, max prev.2 r.2) rs else prev :: closeFrom gap r rs

def closeGaps (gap : Nat) : List (Nat × Nat) → List (Nat × Nat)
  | [] => []
  | r :: rs => closeFrom gap r rs

/-- A stretch of a property that may go on. -/
structure Begun (p : Nat → Prop) (gap : Nat) (r : Nat × Nat) : Prop where
  lt : r.1 < r.2
  first : p r.1
  last : p (r.2 - 1)
  inside : ∀ i, r.1 ≤ i → i + gap < r.2 → ∃ k, i ≤ k ∧ k ≤ i + gap ∧ p k
  before : ∀ i, i < r.1 → p i → i + 1 + gap < r.1

/-- A stretch of a property with gaps that are not longer than `gap`, and longer ones around. -/
structure IsStretch (p : Nat → Prop) (gap : Nat) (r : Nat × Nat) : Prop extends Begun p gap r where
  after : ∀ i, r.2 ≤ i → p i → r.2 + gap < i

section

variable {p : Nat → Prop} {gap : Nat} {r r' : Nat × Nat}

theorem IsStretch.first_le (h : IsStretch p gap r) (h' : IsStretch p gap r') (hlt : r.1 < r'.2) : r.1 ≤ r'.1 := by
  by_contra hnot
  have hfirst := h.before r'.1 (by omega) h'.first
  obtain ⟨k, hk, hk', hp⟩ := h'.inside (r.1 - 1 - gap) (by omega) (by omega)
  have := h.before k (by omega) hp
  omega

theorem IsStretch.le_last (h : IsStretch p gap r) (h' : IsStretch p gap r') (hlt : r'.1 < r.2) : r'.2 ≤ r.2 := by
  by_contra hnot
  have hlast := h.after (r'.2 - 1) (by omega) h'.last
  obtain ⟨k, hk, hk', hp⟩ := h'.inside r.2 hlt.le (by omega)
  have := h.after k hk hp
  omega

/-- Two stretches that overlap are one. -/
theorem IsStretch.unique (h : IsStretch p gap r) (h' : IsStretch p gap r') (hlt : r.1 < r'.2) (hlt' : r'.1 < r.2) : r = r' :=
  Prod.ext (Nat.le_antisymm (h.first_le h' hlt) (h'.first_le h hlt')) (Nat.le_antisymm (h'.le_last h hlt) (h.le_last h' hlt'))

theorem first_le_closeFrom {rs : List (Nat × Nat)} : ∀ {prev : Nat × Nat}, prev.1 ≤ prev.2 → (∀ r ∈ rs, r.1 ≤ r.2) →
    ∀ m ∈ closeFrom gap prev rs, prev.1 ≤ m.1 := by
  induction rs with
  | nil => exact fun _ _ m hm => by rw [List.mem_singleton.1 hm]
  | cons r rs ih =>
    intro prev hprev hrs m hm
    have hrest : ∀ x ∈ rs, x.1 ≤ x.2 := fun x hx => hrs x (List.mem_cons_of_mem _ hx)
    rw [closeFrom] at hm
    split at hm
    · exact @ih (prev.1, max prev.2 r.2) (by dsimp only; omega) hrest m hm
    · rcases List.mem_cons.1 hm with rfl | hm
      · exact le_rfl
      · have := ih (hrs r List.mem_cons_self) hrest m hm
        omega

theorem closeFrom_apart {rs : List (Nat × Nat)} : ∀ {prev : Nat × Nat}, prev.1 ≤ prev.2 → (∀ r ∈ rs, r.1 ≤ r.2) →
    (closeFrom gap prev rs).Pairwise fun m m' => m.2 + gap < m'.1 := by
  induction rs with
  | nil => exact fun _ _ => List.pairwise_singleton ..
  | cons r rs ih =>
    intro prev hprev hrs
    have hrest : ∀ x ∈ rs, x.1 ≤ x.2 := fun x hx => hrs x (List.mem_cons_of_mem _ hx)
    rw [closeFrom]
    split
    · exact @ih (prev.1, max prev.2 r.2) (by dsimp only; omega) hrest
    · refine List.pairwise_cons.2 ⟨fun m hm => ?_, ih (hrs r List.mem_cons_self) hrest⟩
      have := first_le_closeFrom (hrs r List.mem_cons_self) hrest m hm
      omega

/-- What an open stretch and the runs after it become. -/
theorem closeFrom_spec {rs : List (Nat × Nat)} : ∀ {prev : Nat × Nat}, Begun p gap prev → (prev :: rs).Pairwise (fun r r' => r.2 < r'.1) →
    (∀ r ∈ rs, r.1 < r.2) → (∀ i, prev.2 ≤ i → (p i ↔ ∃ r ∈ rs, r.1 ≤ i ∧ i < r.2)) →
    (∀ m ∈ closeFrom gap prev rs, IsStretch p gap m) ∧ ∀ i, prev.1 ≤ i → p i → ∃ m ∈ closeFrom gap prev rs, m.1 ≤ i ∧ i < m.2 := by
  induction rs with
  | nil =>
    intro prev h _ _ hrs
    have hnone : ∀ i, prev.2 ≤ i → ¬ p i := fun i hi hp => by simpa using (hrs i hi).1 hp
    refine ⟨fun m hm => ?_, fun i hi hp => ⟨prev, List.mem_singleton_self _, hi, ?_⟩⟩
    · rw [List.mem_singleton.1 hm]
      exact ⟨h, fun i hi hp => absurd hp (hnone i hi)⟩
    · by_contra hlate
      exact hnone i (by omega) hp
  | cons r rs ih =>
    intro prev h hapart hlt hrs
    rw [List.pairwise_cons, List.pairwise_cons] at hapart
    obtain ⟨hprev, hr, hrest⟩ := hapart
    have hfirst := hprev r List.mem_cons_self
    have hrlt := hlt r List.mem_cons_self
    have hin : ∀ i, r.1 ≤ i → i < r.2 → p i := fun i hi hi' => (hrs i (by omega)).2 ⟨r, List.mem_cons_self, hi, hi'⟩
    have hout : ∀ i, prev.2 ≤ i → p i → r.1 ≤ i := by
      intro i hi hp
      obtain ⟨r', hr', hle, -⟩ := (hrs i hi).1 hp
      rcases List.mem_cons.1 hr' with rfl | hr'
      · exact hle
      · have := hr r' hr'
        omega
    have hbeyond : ∀ i, r.2 ≤ i → (p i ↔ ∃ r ∈ rs, r.1 ≤ i ∧ i < r.2) := by
      intro i hi
      rw [hrs i (by omega)]
      constructor
      · rintro ⟨r', hr', hle, hlt'⟩
        rcases List.mem_cons.1 hr' with rfl | hr'
        · omega
        · exact ⟨r', hr', hle, hlt'⟩
      · rintro ⟨r', hr', hin'⟩
        exact ⟨r', List.mem_cons_of_mem _ hr', hin'⟩
    have hlt' : ∀ x ∈ rs, x.1 < x.2 := fun x hx => hlt x (List.mem_cons_of_mem _ hx)
    rw [closeFrom]
    split
    · -- the gap is closed
      next hgap =>
      have hmax : max prev.2 r.2 = r.2 := by omega
      rw [hmax]
      refine @ih (prev.1, r.2) ⟨?_, h.first, hin (r.2 - 1) (by omega) (by omega), fun i hi hi' => ?_, h.before⟩
        (List.pairwise_cons.2 ⟨hr, hrest⟩) hlt' hbeyond
      · have := h.lt
        dsimp only
        omega
      · dsimp only at hi hi'
        by_cases hbefore : i + gap < prev.2
        · exact h.inside i hi hbefore
        · by_cases hreach : r.1 ≤ i + gap
          · exact ⟨max i r.1, by omega, by omega, hin _ (by omega) (by omega)⟩
          · exact ⟨prev.2 - 1, by omega, by omega, h.last⟩
    · next hgap =>
      have hbegun : Begun p gap r := by
        refine ⟨hrlt, hin r.1 le_rfl hrlt, hin (r.2 - 1) (by omega) (by omega), fun i hi hi' => ⟨i, le_rfl, by omega, hin i hi (by omega)⟩,
          fun i hi hp => ?_⟩
        by_cases hlate : prev.2 ≤ i
        · have := hout i hlate hp
          omega
        · omega
      obtain ⟨hall, hcover⟩ := ih hbegun (List.pairwise_cons.2 ⟨hr, hrest⟩) hlt' hbeyond
      refine ⟨fun m hm => ?_, fun i hi hp => ?_⟩
      · rcases List.mem_cons.1 hm with rfl | hm
        · refine ⟨h, fun i hi hp => ?_⟩
          have := hout i hi hp
          omega
        · exact hall m hm
      · by_cases hlate : prev.2 ≤ i
        · obtain ⟨m, hm, hin'⟩ := hcover i (hout i hlate hp) hp
          exact ⟨m, List.mem_cons_of_mem _ hm, hin'⟩
        · exact ⟨prev, List.mem_cons_self, hi, by omega⟩

end

section

variable {bs : List Bool} {gap : Nat}

theorem closeGaps_apart : (closeGaps gap (runs bs)).Pairwise fun m m' => m.2 + gap < m'.1 := by
  have hlt : ∀ r ∈ runs bs, r.1 ≤ r.2 := fun r hr => ((mem_runs_iff r).1 hr).lt.le
  cases hruns : runs bs with
  | nil => exact .nil
  | cons r rs =>
    rw [hruns] at hlt
    exact closeFrom_apart (hlt r List.mem_cons_self) fun x hx => hlt x (List.mem_cons_of_mem _ hx)

/-- **Closing gaps leaves exactly the stretches.** -/
theorem mem_closeGaps_iff (m : Nat × Nat) : m ∈ closeGaps gap (runs bs) ↔ IsStretch (On bs) gap m := by
  have hspec : (∀ m ∈ closeGaps gap (runs bs), IsStretch (On bs) gap m) ∧
      ∀ i, On bs i → ∃ m ∈ closeGaps gap (runs bs), m.1 ≤ i ∧ i < m.2 := by
    have hrun : ∀ r ∈ runs bs, IsRun (On bs) r := fun r hr => (mem_runs_iff r).1 hr
    have hin : ∀ i, On bs i → ∃ r ∈ runs bs, r.1 ≤ i ∧ i < r.2 := by
      intro i hi
      obtain ⟨r, hr, hle, hlt⟩ := run_of_on hi
      exact ⟨r, (mem_runs_iff r).2 hr, hle, hlt⟩
    have hapart := @runs_apart bs
    cases hruns : runs bs with
    | nil =>
      rw [hruns] at hin
      exact ⟨by simp [closeGaps], fun i hi => by simpa using hin i hi⟩
    | cons r rs =>
      rw [hruns] at hrun hin hapart
      have hr := hrun r List.mem_cons_self
      have hfirst : ∀ i, On bs i → r.1 ≤ i := by
        intro i hi
        obtain ⟨r', hr', hle, -⟩ := hin i hi
        rcases List.mem_cons.1 hr' with rfl | hr'
        · exact hle
        · have := (List.pairwise_cons.1 hapart).1 r' hr'
          have := hr.lt
          omega
      have hlt := hr.lt
      have hbegun : Begun (On bs) gap r := by
        refine ⟨hlt, hr.on r.1 le_rfl hlt, hr.on (r.2 - 1) (by omega) (by omega), fun i hi hi' => ⟨i, le_rfl, by omega, hr.on i hi (by omega)⟩,
          fun i hi hp => ?_⟩
        have := hfirst i hp
        omega
      obtain ⟨hall, hcover⟩ := closeFrom_spec hbegun hapart (fun x hx => (hrun x (List.mem_cons_of_mem _ hx)).lt) fun i hi => by
        constructor
        · intro hp
          obtain ⟨r', hr', hin'⟩ := hin i hp
          rcases List.mem_cons.1 hr' with rfl | hr'
          · omega
          · exact ⟨r', hr', hin'⟩
        · rintro ⟨r', hr', hle, hlt'⟩
          exact (hrun r' (List.mem_cons_of_mem _ hr')).on i hle hlt'
      exact ⟨hall, fun i hi => hcover i (hfirst i hi) hi⟩
  constructor
  · exact hspec.1 m
  · intro h
    obtain ⟨m', hm', hle, hlt⟩ := hspec.2 m.1 h.first
    have heq := h.unique (hspec.1 m' hm') hlt (lt_of_le_of_lt hle h.lt)
    rwa [heq]

end

end Umd.Lib
