import Mathlib
/-!
# Union-find that keeps the least

A forest of parents without ranks, over a linear order: of two roots the lesser one becomes
the parent. Parents only descend, so a walk to a root ends (`climb_eq`), and the root of an
element is the least of what the joined pairs connect it with (`united_isLeast`).
-/

namespace Umd.Lib.LeastRoots

variable {α : Type} [LinearOrder α]

/-! ## The forest -/

/-- The root over an element, found by so many steps. -/
def climb (parent : α → α) : ℕ → α → α
  | 0, a => a
  | n + 1, a => if parent a = a then a else climb parent n (parent a)

/-- The path over an element, cut short at its root. -/
def compress (root : α) : ℕ → (α → α) → α → α → α
  | 0, parent, _ => parent
  | n + 1, parent, a => if parent a = a then parent else compress root n (Function.update parent a root) (parent a)

/-- A root, and the forest with the path to it compressed. -/
def find (n : ℕ) (parent : α → α) (a : α) : (α → α) × α :=
  let root := climb parent n a
  (compress root n parent a, root)

/-- Of two roots the lesser one becomes the parent. -/
def link (parent : α → α) (ra rb : α) : α → α :=
  if ra = rb then parent else if ra < rb then Function.update parent rb ra else Function.update parent ra rb

/-- `root` gives the root of every element; the elements at hand are closed under parents. -/
structure Forest (dom : Finset α) (parent root : α → α) : Prop where
  down : ∀ x, parent x ≤ x
  root_parent : ∀ x, root (parent x) = root x
  parent_root : ∀ x, parent (root x) = root x
  fixed : ∀ x, parent x = x → root x = x
  root_le : ∀ x, root x ≤ x
  parent_mem : ∀ x ∈ dom, parent x ∈ dom
  root_mem : ∀ x ∈ dom, root x ∈ dom

variable {dom : Finset α} {parent root : α → α}

theorem Forest.start (dom : Finset α) : Forest dom id (id : α → α) :=
  ⟨fun _ => le_rfl, fun _ => rfl, fun _ => rfl, fun _ _ => rfl, fun _ => le_rfl, fun _ h => h, fun _ h => h⟩

theorem Forest.root_root (h : Forest dom parent root) (x : α) : root (root x) = root x := h.fixed _ (h.parent_root x)

/-- A walk ends when it has more steps than there are lesser elements. -/
theorem climb_eq (h : Forest dom parent root) {n : ℕ} {x : α} (hx : x ∈ dom) (hn : (dom.filter (· < x)).card ≤ n) :
    climb parent n x = root x := by
  induction n generalizing x with
  | zero =>
    have hnone : parent x = x := by
      by_contra hne
      have hlt := lt_of_le_of_ne (h.down x) hne
      have hmem : parent x ∈ dom.filter (· < x) := Finset.mem_filter.2 ⟨h.parent_mem x hx, hlt⟩
      exact Finset.notMem_empty _ (Finset.card_eq_zero.1 (Nat.le_zero.1 hn) ▸ hmem)
    exact (h.fixed x hnone).symm
  | succ n ih =>
    rw [climb]
    split
    · rename_i hroot
      exact (h.fixed x hroot).symm
    · rename_i hne
      have hlt := lt_of_le_of_ne (h.down x) hne
      have hfewer : (dom.filter (· < parent x)).card < (dom.filter (· < x)).card := by
        apply Finset.card_lt_card
        rw [Finset.ssubset_iff_of_subset]
        · refine ⟨parent x, Finset.mem_filter.2 ⟨h.parent_mem x hx, hlt⟩, fun hself => ?_⟩
          exact lt_irrefl _ (Finset.mem_filter.1 hself).2
        · intro y hy
          obtain ⟨hy, hless⟩ := Finset.mem_filter.1 hy
          exact Finset.mem_filter.2 ⟨hy, hless.trans hlt⟩
      rw [ih (h.parent_mem x hx) (by omega), h.root_parent]

theorem Forest.shorten (h : Forest dom parent root) (a : α) : Forest dom (Function.update parent a (root a)) root := by
  refine ⟨fun x => ?_, fun x => ?_, fun x => ?_, fun x hx => ?_, h.root_le, fun x hx => ?_, h.root_mem⟩
  · rcases eq_or_ne x a with rfl | hne
    · rw [Function.update_self]
      exact h.root_le x
    · rw [Function.update_of_ne hne]
      exact h.down x
  · rcases eq_or_ne x a with rfl | hne
    · rw [Function.update_self, h.root_root]
    · rw [Function.update_of_ne hne, h.root_parent]
  · rcases eq_or_ne (root x) a with he | hne
    · rw [he, Function.update_self, ← he, h.root_root]
    · rw [Function.update_of_ne hne, h.parent_root]
  · rcases eq_or_ne x a with rfl | hne
    · rwa [Function.update_self] at hx
    · rw [Function.update_of_ne hne] at hx
      exact h.fixed x hx
  · rcases eq_or_ne x a with rfl | hne
    · rw [Function.update_self]
      exact h.root_mem x hx
    · rw [Function.update_of_ne hne]
      exact h.parent_mem x hx

theorem Forest.compress (h : Forest dom parent root) {a r : α} (hr : root a = r) (n : ℕ) :
    Forest dom (LeastRoots.compress r n parent a) root := by
  induction n generalizing parent a with
  | zero => exact h
  | succ n ih =>
    rw [LeastRoots.compress]
    split
    · exact h
    · have hshort := h.shorten a
      rw [hr] at hshort
      exact ih hshort ((h.root_parent a).trans hr)

/-- A search gives the root and leaves all roots as they are. -/
theorem find_spec (h : Forest dom parent root) {n : ℕ} {a : α} (ha : a ∈ dom) (hn : dom.card ≤ n) :
    (find n parent a).2 = root a ∧ Forest dom (find n parent a).1 root := by
  have hroot := climb_eq h ha ((Finset.card_le_card (Finset.filter_subset _ _)).trans hn)
  exact ⟨hroot, h.compress hroot.symm n⟩

/-! ## Joining -/

/-- The roots after a join: the lesser of the two for both classes. -/
def unite (root : α → α) (a b x : α) : α := if root x = root a ∨ root x = root b then min (root a) (root b) else root x

theorem Forest.link (h : Forest dom parent root) {a b : α} (ha : a ∈ dom) (hb : b ∈ dom) :
    Forest dom (LeastRoots.link parent (root a) (root b)) (unite root a b) := by
  -- the greater root is put under the lesser one
  have hlinked : ∀ {low top : α}, low ∈ dom → low < top → root low = low → root top = top →
      Forest dom (Function.update parent top low) fun x => if root x = low ∨ root x = top then low else root x := by
    intro low top hlow hlt hlowroot htoproot
    have hroot : ∀ x, root x = top → ¬ x < top := fun x hx hless => absurd (h.root_le x) (not_le.2 (hx ▸ hless))
    refine ⟨fun x => ?_, fun x => ?_, fun x => ?_, fun x hx => ?_, fun x => ?_, fun x hx => ?_, fun x hx => ?_⟩
    · rcases eq_or_ne x top with rfl | hne
      · rw [Function.update_self]
        exact hlt.le
      · rw [Function.update_of_ne hne]
        exact h.down x
    · rcases eq_or_ne x top with rfl | hne
      · rw [Function.update_self, hlowroot, htoproot, if_pos (.inl rfl), if_pos (.inr rfl)]
      · rw [Function.update_of_ne hne, h.root_parent]
    · split
      · rw [Function.update_of_ne hlt.ne, ← hlowroot, h.parent_root]
      · rename_i hother
        rw [Function.update_of_ne (fun he => hother (.inr he)), h.parent_root]
    · rcases eq_or_ne x top with rfl | hne
      · rw [Function.update_self] at hx
        exact absurd hx hlt.ne
      · rw [Function.update_of_ne hne] at hx
        have hfixed := h.fixed x hx
        rw [hfixed]
        split
        · rename_i hcase
          rcases hcase with he | he
          · exact he.symm
          · exact absurd he hne
        · rfl
    · split
      · rename_i hcase
        rcases hcase with he | he
        · exact he ▸ h.root_le x
        · exact hlt.le.trans (he ▸ h.root_le x)
      · exact h.root_le x
    · rcases eq_or_ne x top with rfl | hne
      · rw [Function.update_self]
        exact hlow
      · rw [Function.update_of_ne hne]
        exact h.parent_mem x hx
    · split
      · exact hlow
      · exact h.root_mem x hx
  unfold LeastRoots.link
  by_cases hsame : root a = root b
  · have hunite : unite root a b = root := by
      funext x
      unfold unite
      split
      · rename_i hcase
        rw [← hsame, min_self]
        exact (hcase.elim id fun he => he.trans hsame.symm).symm
      · rfl
    rw [if_pos hsame, hunite]
    exact h
  · rw [if_neg hsame]
    rcases lt_or_gt_of_ne hsame with hlt | hgt
    · have hunite : unite root a b = fun x => if root x = root a ∨ root x = root b then root a else root x := by
        funext x
        rw [unite, min_eq_left hlt.le]
      rw [if_pos hlt, hunite]
      exact hlinked (h.root_mem a ha) hlt (h.root_root a) (h.root_root b)
    · have hunite : unite root a b = fun x => if root x = root b ∨ root x = root a then root b else root x := by
        funext x
        rw [unite, min_eq_right hgt.le]
        simp only [or_comm]
      rw [if_neg (not_lt.2 hgt.le), hunite]
      exact hlinked (h.root_mem b hb) hgt (h.root_root b) (h.root_root a)

/-! ## What the roots are -/

/-- The roots after some joins. -/
def united (pairs : List (α × α)) : α → α := pairs.foldl (fun root p => unite root p.1 p.2) id

/-- What the pairs connect. -/
def Connected (pairs : List (α × α)) : α → α → Prop := Relation.EqvGen fun a b => (a, b) ∈ pairs

theorem Connected.mono {β : Type} {pairs pairs' : List (β × β)} (h : ∀ p ∈ pairs, p ∈ pairs') {x y : β} (hc : Connected pairs x y) :
    Connected pairs' x y := Relation.EqvGen.mono (fun a b hp => h (a, b) hp) x y hc

/-- The root is connected with the element, not above it, and one for all that are connected. -/
structure Roots (pairs : List (α × α)) (root : α → α) : Prop where
  connected : ∀ x, Connected pairs x (root x)
  le : ∀ x, root x ≤ x
  same : ∀ x y, Connected pairs x y → root x = root y

theorem Roots.unite {pairs : List (α × α)} {root : α → α} (h : Roots pairs root) (a b : α) :
    Roots (pairs ++ [(a, b)]) (unite root a b) := by
  have hold : ∀ {x y}, Connected pairs x y → Connected (pairs ++ [(a, b)]) x y := Connected.mono fun p hp => List.mem_append_left _ hp
  have hnew : Connected (pairs ++ [(a, b)]) (root a) (root b) :=
    .trans _ _ _ (.symm _ _ (hold (h.connected a))) (.trans _ _ _ (.rel _ _ (by simp)) (hold (h.connected b)))
  refine ⟨fun x => ?_, fun x => ?_, fun x y hxy => ?_⟩
  · have hx := hold (h.connected x)
    unfold LeastRoots.unite
    split
    · rename_i hcase
      rcases min_choice (root a) (root b) with hmin | hmin <;> rw [hmin] <;> rcases hcase with he | he <;> rw [he] at hx
      · exact hx
      · exact .trans _ _ _ hx (.symm _ _ hnew)
      · exact .trans _ _ _ hx hnew
      · exact hx
    · exact hx
  · unfold LeastRoots.unite
    split
    · rename_i hcase
      rcases hcase with he | he
      · exact (min_le_left _ _).trans (he ▸ h.le x)
      · exact (min_le_right _ _).trans (he ▸ h.le x)
    · exact h.le x
  · induction hxy with
    | rel x y hp =>
      rcases List.mem_append.1 hp with hp | hp
      · unfold LeastRoots.unite
        rw [h.same x y (.rel _ _ hp)]
      · obtain ⟨rfl, rfl⟩ := Prod.mk.inj (List.mem_singleton.1 hp)
        unfold LeastRoots.unite
        rw [if_pos (.inl rfl), if_pos (.inr rfl)]
    | refl => rfl
    | symm _ _ _ ih => exact ih.symm
    | trans _ _ _ _ _ ih ih' => exact ih.trans ih'

theorem united_roots (pairs : List (α × α)) : Roots pairs (united pairs) := by
  induction pairs using List.reverseRecOn with
  | nil =>
    refine ⟨fun x => .refl x, fun _ => le_rfl, fun x y h => ?_⟩
    induction h with
    | rel _ _ hp => cases hp
    | refl => rfl
    | symm _ _ _ ih => exact ih.symm
    | trans _ _ _ _ _ ih ih' => exact ih.trans ih'
  | append_singleton pairs p ih =>
    have hunited : united (pairs ++ [p]) = unite (united pairs) p.1 p.2 := List.foldl_concat ..
    rw [hunited]
    exact ih.unite p.1 p.2

/-- The root of an element is the least that it is connected with. -/
theorem united_isLeast (pairs : List (α × α)) (x : α) : IsLeast {y | Connected pairs x y} (united pairs x) := by
  have h := united_roots pairs
  refine ⟨h.connected x, fun y hy => ?_⟩
  rw [h.same x y hy]
  exact h.le y

/-- An element is connected with another one just where a pair of two elements has it. -/
theorem connected_other {pairs : List (α × α)} (hpairs : ∀ p ∈ pairs, p.1 ≠ p.2) (x : α) :
    (∃ y, y ≠ x ∧ Connected pairs x y) ↔ ∃ p ∈ pairs, x = p.1 ∨ x = p.2 := by
  constructor
  · rintro ⟨y, hne, hy⟩
    by_contra hnone
    have halone : ∀ u v, Connected pairs u v → (u = x ↔ v = x) := by
      intro u v h
      induction h with
      | rel u v hp => exact iff_of_false (fun he => hnone ⟨_, hp, .inl he.symm⟩) fun he => hnone ⟨_, hp, .inr he.symm⟩
      | refl => exact Iff.rfl
      | symm _ _ _ ih => exact ih.symm
      | trans _ _ _ _ _ ih ih' => exact ih.trans ih'
    exact hne ((halone x y hy).1 rfl)
  · rintro ⟨p, hp, rfl | rfl⟩
    · exact ⟨p.2, (hpairs p hp).symm, .rel _ _ hp⟩
    · exact ⟨p.1, hpairs p hp, .symm _ _ (.rel _ _ hp)⟩

end Umd.Lib.LeastRoots
