import Mathlib.Logic.Relation
import Mathlib.Data.List.Basic
/-!
# Chains of an acyclic list of pairs

Over any type: from each element the pairs lead, step by step, to one that is
the first of no pair.
-/

namespace Umd.Lib

open Relation

/-- The pairs have no cycle. -/
def Acyclic {α : Type} (pairs : List (α × α)) : Prop := ∀ a, ¬ TransGen (fun x y => (x, y) ∈ pairs) a a

theorem Acyclic.sublist {α : Type} {pairs pairs' : List (α × α)} (h : Acyclic pairs) (hs : ∀ p ∈ pairs', p ∈ pairs) :
    Acyclic pairs' := fun a hc => h a (TransGen.mono (fun _ _ hp => hs _ hp) _ _ hc)

/-- Pairs that go up in a rank have no cycle. -/
theorem Acyclic.of_rank {α : Type} {pairs : List (α × α)} (rank : α → Nat) (h : ∀ p ∈ pairs, rank p.1 < rank p.2) : Acyclic pairs := by
  intro a hc
  have hup : ∀ x y, TransGen (fun x y => (x, y) ∈ pairs) x y → rank x < rank y := by
    intro x y hxy
    induction hxy with
    | single hp => exact h _ hp
    | tail _ hp ih => exact Nat.lt_trans ih (h _ hp)
  exact Nat.lt_irrefl _ (hup a a hc)

/-- A chain goes on to an element no pair leads on from. -/
theorem Acyclic.ends {α : Type} {pairs : List (α × α)} (h : Acyclic pairs) (a : α) :
    ∃ z, z ∉ pairs.map Prod.fst ∧ ReflTransGen (fun x y => (x, y) ∈ pairs) a z := by
  classical
  -- on the number of pairs: those of `a` are not needed once they are left
  induction hn : pairs.length using Nat.strongRecOn generalizing pairs a with
  | ind n ih =>
    by_cases ha : a ∈ pairs.map Prod.fst
    · obtain ⟨⟨a', b⟩, hp, rfl⟩ := List.mem_map.1 ha
      let rest := pairs.filter fun p => p.1 ≠ a'
      have hsub : ∀ p ∈ rest, p ∈ pairs := fun p hp => (List.mem_filter.1 hp).1
      have hlt : rest.length < n := by
        rw [← hn]
        exact List.length_filter_lt_length_iff_exists.2 ⟨_, hp, by simp⟩
      obtain ⟨z, hz, hchain⟩ := ih _ hlt (h.sublist hsub) b rfl
      have hchain' : ReflTransGen (fun x y => (x, y) ∈ pairs) b z := ReflTransGen.mono (fun _ _ hp => hsub _ hp) _ _ hchain
      refine ⟨z, fun hm => ?_, .head hp hchain'⟩
      by_cases hza : z = a'
      · subst hza
        exact h z (TransGen.head' hp hchain')
      · obtain ⟨p, hp, rfl⟩ := List.mem_map.1 hm
        exact hz (List.mem_map_of_mem (List.mem_filter.2 ⟨hp, by simpa using hza⟩))
    · exact ⟨a, ha, .refl⟩

end Umd.Lib
