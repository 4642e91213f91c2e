import Umd.Alignment.Optimal
import Umd.Lib.Orders
/-!
# When a plan is reordered

A plan is reordered when two of its pairs run against each other, by the numbers at the end
of their refs. The comparison is strict on both sides, so two pairs that share one unit and
not the other run against each other as well (`reordering_exact`): a plan of a path that
never goes back is reordered as soon as one unit has two partners.
-/

namespace Umd.Alignment

open Umd.Lib Umd.Lib.Warping

section
variable {F : Type}

/-- The refs end in numbers that increase. -/
def Numbered (units : List (AlignableUnit F)) : Prop :=
  ∃ nums : List Int, units.map (fun u => seqOf u.ref) = nums.map some ∧ nums.Pairwise (· < ·)

theorem Numbered.at {units : List (AlignableUnit F)} (h : Numbered units) {i k : ℕ} {u v : AlignableUnit F} (hu : units[i]? = some u)
    (hv : units[k]? = some v) : ∃ a b, seqOf u.ref = some a ∧ seqOf v.ref = some b ∧ (a < b ↔ i < k) := by
  obtain ⟨nums, hnums, hsorted⟩ := h
  have num_at : ∀ {i : ℕ} {u : AlignableUnit F}, units[i]? = some u → ∃ hi : i < nums.length, seqOf u.ref = some nums[i] := by
    intro i u hu
    have hat := congrArg (·[i]?) hnums
    simp only [List.getElem?_map, hu, Option.map_some] at hat
    obtain ⟨hi, hnum⟩ : ∃ hi : i < nums.length, nums[i]? = some nums[i] := by
      cases hn : nums[i]? with
      | none =>
        rw [hn] at hat
        cases hat
      | some a =>
        obtain ⟨hi, rfl⟩ := List.getElem?_eq_some_iff.1 hn
        exact ⟨hi, rfl⟩
    rw [hnum, Option.map_some] at hat
    exact ⟨hi, Option.some.inj hat⟩
  obtain ⟨hi, ha⟩ := num_at hu
  obtain ⟨hk, hb⟩ := num_at hv
  refine ⟨_, _, ha, hb, fun hlt => ?_, fun hlt => List.pairwise_iff_getElem.1 hsorted i k hi hk hlt⟩
  by_contra hge
  rcases Nat.lt_or_eq_of_le (Nat.not_lt.1 hge) with hlt' | rfl
  · exact absurd (List.pairwise_iff_getElem.1 hsorted k i hk hi hlt') (not_lt.2 hlt.le)
  · exact lt_irrefl _ hlt

/-- `_detect_reordering` finds any two pairs, in their order. -/
theorem detectReordering_iff {pairs : List (AlignedPair F)} :
    detectReordering pairs = false ↔ pairs.Pairwise fun p q => crosses p q = false := by
  induction pairs with
  | nil => simp [detectReordering]
  | cons p ps ih => simp [detectReordering, ih, List.pairwise_cons]

end

/-- The indices of a path never decrease. -/
def Ascending (path : List (ℕ × ℕ)) : Prop := path.Pairwise fun p q => p.1 ≤ q.1 ∧ p.2 ≤ q.2

/-- Two of its pairs increase on the left and decrease on the right. -/
def Crossed (path : List (ℕ × ℕ)) : Prop := ∃ p ∈ path, ∃ q ∈ path, p.1 < q.1 ∧ q.2 < p.2

/-- No two of its pairs share a unit on one side only. -/
def OneToOne (path : List (ℕ × ℕ)) : Prop := path.Pairwise fun p q => p.1 = q.1 ↔ p.2 = q.2

/-- A warping path does not go back. -/
theorem warps_ascending {i j : ℕ} {path : List (ℕ × ℕ)} (h : Warps i j path) : Ascending path := by
  have hle : ∀ p q : ℕ × ℕ, Move p q → p.1 ≤ q.1 ∧ p.2 ≤ q.2 := by
    rintro ⟨a, b⟩ q (rfl | rfl | rfl) <;> simp
  have htrans : IsTrans (ℕ × ℕ) fun p q => p.1 ≤ q.1 ∧ p.2 ≤ q.2 :=
    ⟨fun p q r hpq hqr => ⟨hpq.1.trans hqr.1, hpq.2.trans hqr.2⟩⟩
  exact List.isChain_iff_pairwise.1 (h.moves.imp hle)

section
variable {F : Type} [PyFloat F] {left right : List (AlignableUnit F)} {method : AlignMethod} {alignmentType : AlignmentType}
  {assumption : ParallelityAssumption} {confidence threshold : F} {path : List (ℕ × ℕ)} {plan : AlignmentPlan F}

/-- A plan is not reordered where its path goes on along both sides or along none. -/
theorem reordering_iff (hleft : Numbered left) (hright : Numbered right)
    (h : buildPlan left right method alignmentType assumption confidence threshold path = .ok plan) :
    plan.reordering = false ↔ path.Pairwise fun p q => p.1 < q.1 ↔ p.2 < q.2 := by
  obtain ⟨pairs, hpairs, hplan⟩ := bind_ok h
  cases hplan
  rw [detectReordering_iff]
  clear h
  have pair_at : ∀ {p : ℕ × ℕ} {pair : AlignedPair F}, (do
      return pairOf method alignmentType assumption confidence threshold (← unitAt left p.1) (← unitAt right p.2)) =
        (Except.ok pair : Except AlignError (AlignedPair F)) →
      ∃ l r, left[p.1]? = some l ∧ right[p.2]? = some r ∧ pair.leftRef = l.ref ∧ pair.rightRef = r.ref := by
    intro p pair hp
    obtain ⟨l, hl, hp⟩ := bind_ok hp
    obtain ⟨r, hr, hp⟩ := bind_ok hp
    cases hp
    unfold unitAt at hl hr
    split at hl
    · split at hr
      · cases hl
        cases hr
        exact ⟨_, _, ‹_›, ‹_›, rfl, rfl⟩
      · cases hr
    · cases hl
  induction path generalizing pairs with
  | nil =>
    cases hpairs
    simp
  | cons p path ih =>
    obtain ⟨pair, rest, hpair, hrest, rfl⟩ := mapM_cons_ok.1 hpairs
    have htail : rest.Pairwise (fun p q => crosses p q = false) ↔ path.Pairwise fun p q => p.1 < q.1 ↔ p.2 < q.2 := ih rest hrest
    rw [List.pairwise_cons, List.pairwise_cons, htail]
    obtain ⟨l, r, hl, hr, hpl, hpr⟩ := pair_at hpair
    have hone : ∀ {q : ℕ × ℕ} {pair' : AlignedPair F}, (do
        return pairOf method alignmentType assumption confidence threshold (← unitAt left q.1) (← unitAt right q.2)) =
          (Except.ok pair' : Except AlignError (AlignedPair F)) →
        (crosses pair pair' = false ↔ (p.1 < q.1 ↔ p.2 < q.2)) := by
      intro q pair' hq
      obtain ⟨l', r', hl', hr', hql, hqr⟩ := pair_at hq
      obtain ⟨a, b, ha, hb, hab⟩ := hleft.at hl hl'
      obtain ⟨c, d, hc, hd, hcd⟩ := hright.at hr hr'
      unfold crosses
      rw [hpl, hpr, hql, hqr, ha, hb, hc, hd]
      simp only [bne_eq_false_iff_eq, decide_eq_decide, hab, hcd]
    have hhead : (∀ pair' ∈ rest, crosses pair pair' = false) ↔ ∀ q ∈ path, (p.1 < q.1 ↔ p.2 < q.2) := by
      constructor
      · intro hall q hq
        obtain ⟨pair', hmem, hf⟩ := mapM_each hrest q hq
        exact (hone hf).1 (hall pair' hmem)
      · intro hall pair' hmem
        obtain ⟨q, hq, hf⟩ := mapM_mem hrest pair' hmem
        exact (hone hf).2 (hall q hq)
    rw [hhead]

/-- **The flag is right on every path that does not go back if and only if no unit has two partners; where two pairs run against
each other it is set.** -/
theorem reordering_exact (hleft : Numbered left) (hright : Numbered right)
    (h : buildPlan left right method alignmentType assumption confidence threshold path = .ok plan) :
    ((Ascending path → plan.reordering = false) ∧ (Crossed path → plan.reordering = true)) ↔ (Ascending path → OneToOne path) := by
  have hstrict := reordering_iff hleft hright h
  have hcrossed : Crossed path → plan.reordering = true := by
    rintro ⟨p, hp, q, hq, hlt, hgt⟩
    by_contra hnot
    have hpairs := hstrict.1 (Bool.eq_false_iff.2 hnot)
    have hsymm : Std.Symm fun p q : ℕ × ℕ => ¬ (p.1 < q.1 ∧ q.2 < p.2) ∧ ¬ (q.1 < p.1 ∧ p.2 < q.2) := ⟨fun p q h => ⟨h.2, h.1⟩⟩
    have happly := hpairs.imp (S := fun p q => ¬ (p.1 < q.1 ∧ q.2 < p.2) ∧ ¬ (q.1 < p.1 ∧ p.2 < q.2)) fun {p q} h => by omega
    have hapart := happly.forall hp hq (by rintro rfl; omega)
    exact hapart.1 ⟨hlt, hgt⟩
  have hone : Ascending path → (plan.reordering = false ↔ OneToOne path) := by
    intro hmono
    rw [hstrict]
    constructor
    · exact fun hp => (hp.and hmono).imp fun {p q} h => by omega
    · exact fun hp => (hp.and hmono).imp fun {p q} h => by omega
  exact ⟨fun hright hmono => (hone hmono).1 (hright.1 hmono), fun hall => ⟨fun hmono => (hone hmono).2 (hall hmono), hcrossed⟩⟩

end

theorem numbered_oneLeft : Numbered oneLeft := ⟨[1], by decide +kernel, by simp⟩

theorem numbered_twoRight : Numbered twoRight := ⟨[1, 2], by decide +kernel, by simp⟩

theorem reordering_exact_two : ∃ plan, buildPlan oneLeft twoRight .timecodeDtw .temporal .temporal (3 / 5) 0 [(0, 0), (0, 1)] = .ok plan ∧
    (((Ascending [(0, 0), (0, 1)] → plan.reordering = false) ∧ (Crossed [(0, 0), (0, 1)] → plan.reordering = true)) ↔
      (Ascending [(0, 0), (0, 1)] → OneToOne [(0, 0), (0, 1)])) :=
  ⟨_, rfl, reordering_exact numbered_oneLeft numbered_twoRight rfl⟩

/-- A unit with two partners counts as reordered. -/
theorem one_to_many_reordered : ¬ ∀ (left right : List (AlignableUnit ℚ)) (path : List (ℕ × ℕ)) (plan : AlignmentPlan ℚ),
    Numbered left → Numbered right → buildPlan left right .timecodeDtw .temporal .temporal (3 / 5) 0 path = .ok plan →
    Ascending path → plan.reordering = false := by
  intro hall
  obtain ⟨plan, hplan, hflag⟩ : ∃ plan, buildPlan oneLeft twoRight .timecodeDtw .temporal .temporal (3 / 5) 0 [(0, 0), (0, 1)] = .ok plan ∧
      plan.reordering = true := ⟨_, rfl, by decide +kernel⟩
  have hnone := hall oneLeft twoRight _ plan numbered_oneLeft numbered_twoRight hplan (by simp [Ascending])
  rw [hflag] at hnone
  cases hnone

end Umd.Alignment
