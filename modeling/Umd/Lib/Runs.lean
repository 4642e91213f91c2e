import Mathlib
/-!
# Maximal runs

`runs bs` lists the maximal runs of a list of booleans as half-open intervals, found in
one pass that remembers where the open run began. They are all of them (`mem_runs_iff`),
they are apart (`runs_apart`), and every index that is on lies in one (`run_of_on`).
-/

namespace Umd.Lib

/-- The runs from index `i` on, with the start of the run that is open. -/
def runsFrom (i : Nat) (start : Option Nat) : List Bool → List (Nat × Nat)
  | [] => (start.map fun s => (s, i)).toList
  | true :: bs => runsFrom (i + 1) (some (start.getD i)) bs
  | false :: bs => (start.map fun s => (s, i)).toList ++ runsFrom (i + 1) none bs

def runs (bs : List Bool) : List (Nat × Nat) := runsFrom 0 none bs

/-- A maximal run of a property. -/
structure IsRun (p : Nat → Prop) (r : Nat × Nat) : Prop where
  lt : r.1 < r.2
  on : ∀ i, r.1 ≤ i → i < r.2 → p i
  before : ∀ i, r.1 = i + 1 → ¬ p i
  after : ¬ p r.2

/-- An index at which a list is on. -/
def On (bs : List Bool) (i : Nat) : Prop := bs[i]? = some true

/-! ## Maximal runs of a property -/

section IsRun

variable {p : Nat → Prop} {r r' : Nat × Nat}

/-- Two runs that are not apart are one. -/
theorem IsRun.unique (h : IsRun p r) (h' : IsRun p r') (hle : r.1 ≤ r'.1) (hlt : r'.1 ≤ r.2) : r = r' := by
  have hbegin : r'.1 ≤ r.1 := by
    by_contra hb
    obtain ⟨k, hk⟩ : ∃ k, r'.1 = k + 1 := ⟨r'.1 - 1, by omega⟩
    exact h'.before k hk (h.on k (by omega) (by omega))
  have hend : r.2 = r'.2 := by
    rcases Nat.lt_trichotomy r.2 r'.2 with hs | hs | hs
    · exact absurd (h'.on r.2 (by omega) hs) h.after
    · exact hs
    · exact absurd (h.on r'.2 (by have := h'.lt; omega) hs) h'.after
  exact Prod.ext (by omega) hend

/-- Runs are one, or apart. -/
theorem IsRun.eq_or_apart (h : IsRun p r) (h' : IsRun p r') : r = r' ∨ r.2 < r'.1 ∨ r'.2 < r.1 := by
  by_cases hle : r.1 ≤ r'.1
  · by_cases hlt : r'.1 ≤ r.2
    · exact .inl (h.unique h' hle hlt)
    · exact .inr (.inl (by omega))
  · by_cases hlt : r.1 ≤ r'.2
    · exact .inl (h'.unique h (by omega) hlt).symm
    · exact .inr (.inr (by omega))

end IsRun

/-! ## What one pass finds -/

/-- The open run is on from its start, and nothing is on right before it; without one the last index was off. -/
def Opened (p : Nat → Prop) (i : Nat) : Option Nat → Prop
  | some s => s < i ∧ (∀ k, s ≤ k → k < i → p k) ∧ ∀ k, s = k + 1 → ¬ p k
  | none => ∀ k, i = k + 1 → ¬ p k

theorem Opened.step {p : Nat → Prop} {i : Nat} {start : Option Nat} (h : Opened p i start) (hp : p i) :
    Opened p (i + 1) (some (start.getD i)) := by
  cases start with
  | none =>
    refine ⟨by simp, fun k hk hk' => ?_, h⟩
    obtain rfl : k = i := by
      rw [Option.getD_none] at hk
      omega
    exact hp
  | some s =>
    obtain ⟨hlt, hon, hbefore⟩ := h
    refine ⟨by simp; omega, fun k hk hk' => ?_, hbefore⟩
    rcases Nat.lt_or_ge k i with hki | hki
    · exact hon k hk hki
    · obtain rfl : k = i := by omega
      exact hp

/-- The pass from an index finds the runs from there on, and the one that is open. -/
theorem mem_runsFrom_iff {p : Nat → Prop} {i : Nat} {start : Option Nat} {bs : List Bool}
    (hp : ∀ k, p (i + k) ↔ On bs k) (h : Opened p i start) (r : Nat × Nat) :
    r ∈ runsFrom i start bs ↔ IsRun p r ∧ start.getD i ≤ r.1 := by
  induction bs generalizing i start with
  | nil =>
    have hoff : ∀ k, i ≤ k → ¬ p k := fun k hk hpk => by
      obtain ⟨d, rfl⟩ := Nat.exists_eq_add_of_le hk
      exact absurd ((hp d).1 hpk) (by simp [On])
    cases start with
    | none =>
      refine iff_of_false (by simp [runsFrom]) fun ⟨hr, hle⟩ => ?_
      exact hoff r.1 hle (hr.on r.1 le_rfl hr.lt)
    | some s =>
      obtain ⟨hlt, hon, hbefore⟩ := h
      have hopen : IsRun p (s, i) := ⟨hlt, hon, hbefore, hoff i le_rfl⟩
      simp only [runsFrom, Option.map_some, Option.toList_some, List.mem_singleton, Option.getD_some]
      constructor
      · rintro rfl
        exact ⟨hopen, le_rfl⟩
      · rintro ⟨hr, hle⟩
        refine (hopen.unique hr hle ?_).symm
        by_contra hgt
        exact hoff r.1 (by simp at hgt; omega) (hr.on r.1 le_rfl hr.lt)
  | cons b bs ih =>
    have hi : p i ↔ b = true := by simpa [On] using hp 0
    have htail : ∀ k, p (i + 1 + k) ↔ On bs k := fun k => by
      have := hp (k + 1)
      rwa [show i + (k + 1) = i + 1 + k by omega] at this
    cases b with
    | true =>
      have hpi := hi.2 rfl
      rw [runsFrom, ih htail (h.step hpi)]
      rfl
    | false =>
      have hpi : ¬ p i := fun hpi => by simpa using hi.1 hpi
      have hnone : Opened p (i + 1) none := fun k hk => by
        obtain rfl : k = i := by omega
        exact hpi
      rw [runsFrom, List.mem_append, ih htail hnone]
      cases start with
      | none =>
        simp only [Option.map_none, Option.toList_none, List.not_mem_nil, false_or, Option.getD_none]
        refine and_congr_right fun hr => ⟨fun hle => by omega, fun hle => ?_⟩
        rcases Nat.lt_or_ge i r.1 with hlt | hge
        · exact hlt
        · obtain rfl : i = r.1 := by omega
          exact absurd (hr.on r.1 le_rfl hr.lt) hpi
      | some s =>
        obtain ⟨hlt, hon, hbefore⟩ := h
        have hopen : IsRun p (s, i) := ⟨hlt, hon, hbefore, hpi⟩
        simp only [Option.map_some, Option.toList_some, List.mem_singleton, Option.getD_some, Option.getD_none]
        constructor
        · rintro (rfl | ⟨hr, hle⟩)
          · exact ⟨hopen, le_rfl⟩
          · exact ⟨hr, by omega⟩
        · rintro ⟨hr, hle⟩
          rcases hopen.eq_or_apart hr with heq | hafter | hbef
          · exact .inl heq.symm
          · exact .inr ⟨hr, hafter⟩
          · exact absurd (hr.lt) (by simp at hbef; omega)

theorem runsFrom_apart {p : Nat → Prop} {i : Nat} {start : Option Nat} {bs : List Bool}
    (hp : ∀ k, p (i + k) ↔ On bs k) (h : Opened p i start) : (runsFrom i start bs).Pairwise fun r r' => r.2 < r'.1 := by
  induction bs generalizing i start with
  | nil => cases start <;> simp [runsFrom]
  | cons b bs ih =>
    have hi : p i ↔ b = true := by simpa [On] using hp 0
    have htail : ∀ k, p (i + 1 + k) ↔ On bs k := fun k => by
      have := hp (k + 1)
      rwa [show i + (k + 1) = i + 1 + k by omega] at this
    cases b with
    | true => exact ih htail (h.step (hi.2 rfl))
    | false =>
      have hpi : ¬ p i := fun hpi => by simpa using hi.1 hpi
      have hnone : Opened p (i + 1) none := fun k hk => by
        obtain rfl : k = i := by omega
        exact hpi
      rw [runsFrom]
      cases start with
      | none => exact ih htail hnone
      | some s =>
        refine List.pairwise_cons.2 ⟨fun r hr => ?_, ih htail hnone⟩
        exact ((mem_runsFrom_iff htail hnone r).1 hr).2

/-! ## The runs of a list -/

variable {bs : List Bool}

theorem opened_first (p : Nat → Prop) : Opened p 0 none := fun k hk => by omega

/-- The pass finds the maximal runs, and no others. -/
theorem mem_runs_iff (r : Nat × Nat) : r ∈ runs bs ↔ IsRun (On bs) r := by
  have h := @mem_runsFrom_iff (On bs) 0 none bs (fun k => by rw [Nat.zero_add]) (opened_first _) r
  simpa [runs] using h

/-- The runs are listed in order, and there is a gap between two of them. -/
theorem runs_apart : (runs bs).Pairwise fun r r' => r.2 < r'.1 :=
  runsFrom_apart (p := On bs) (fun k => by rw [Nat.zero_add]) (opened_first _)

theorem On.lt_length {i : Nat} (h : On bs i) : i < bs.length := (List.getElem?_eq_some_iff.1 h).1

/-- A run ends by the end of the list. -/
theorem IsRun.le_length {r : Nat × Nat} (h : IsRun (On bs) r) : r.2 ≤ bs.length := by
  have hlast := (h.on (r.2 - 1) (by have := h.lt; omega) (by have := h.lt; omega)).lt_length
  omega

/-- An index that is on is in a run. -/
theorem run_of_on {i : Nat} (h : On bs i) : ∃ r, IsRun (On bs) r ∧ r.1 ≤ i ∧ i < r.2 := by
  classical
  have hend : ∃ k, i < k ∧ ¬ On bs k := ⟨bs.length, h.lt_length, fun hk => lt_irrefl _ hk.lt_length⟩
  have hbegin : ∃ s, s ≤ i ∧ ∀ k, s ≤ k → k ≤ i → On bs k := ⟨i, le_rfl, fun k hk hk' => by rwa [le_antisymm hk' hk]⟩
  obtain ⟨hs, hon⟩ := Nat.find_spec hbegin
  obtain ⟨he, hoff⟩ := Nat.find_spec hend
  refine ⟨(Nat.find hbegin, Nat.find hend), ⟨by dsimp only; omega, fun k hk hk' => ?_, fun k hk hpk => ?_, hoff⟩, hs, he⟩
  · rcases Nat.lt_or_ge i k with hik | hik
    · by_contra hnot
      exact Nat.find_min hend hk' ⟨hik, hnot⟩
    · exact hon k hk hik
  · -- the run would begin one index earlier
    refine Nat.find_min hbegin (m := k) (by dsimp only at hk; omega) ⟨by dsimp only at hk; omega, fun j hj hj' => ?_⟩
    rcases Nat.lt_or_ge k j with hkj | hkj
    · exact hon j (by dsimp only at hk; omega) hj'
    · rwa [le_antisymm hkj hj]

end Umd.Lib
