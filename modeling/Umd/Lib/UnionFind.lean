import Mathlib
/-!
# Union-find with seeds

A forest of parents with union by rank and path compression, whose roots may carry a
seed. Two components of different seeds are not joined. `Partition` is what the forest
stands for: an equivalence relation and a seed for each class; `Stands` connects the
two, and every operation keeps it.
-/

namespace Umd.Lib

variable {κ σ : Type}

/-- The forest; `height` is above no rank, so no path to a root is longer. -/
structure UnionFind (κ σ : Type) where
  parent : κ → κ
  rank : κ → ℕ
  seed : κ → Option σ
  height : ℕ

namespace UnionFind

/-- Every element its own root, without a seed. -/
def start : UnionFind κ σ := ⟨id, fun _ => 0, fun _ => none, 0⟩

/-! ## Roots -/

/-- `root` gives the root of every element, and ranks rise on the way to it. -/
structure Forest (uf : UnionFind κ σ) (root : κ → κ) : Prop where
  parent_root : ∀ x, root (uf.parent x) = root x
  root_parent : ∀ x, uf.parent (root x) = root x
  fixed : ∀ x, uf.parent x = x → root x = x
  rank_lt : ∀ x, uf.parent x ≠ x → uf.rank x < uf.rank (uf.parent x)
  rank_le : ∀ x, uf.rank x ≤ uf.height

theorem start_forest : Forest (start : UnionFind κ σ) id :=
  ⟨fun _ => rfl, fun _ => rfl, fun _ _ => rfl, fun _ h => absurd rfl h, fun _ => le_refl _⟩

theorem Forest.root_root {uf : UnionFind κ σ} {root : κ → κ} (h : uf.Forest root) (x : κ) : root (root x) = root x :=
  h.fixed _ (h.root_parent x)

theorem Forest.isRoot_iff {uf : UnionFind κ σ} {root : κ → κ} (h : uf.Forest root) {x : κ} :
    uf.parent x = x ↔ root x = x :=
  ⟨h.fixed x, fun hx => hx ▸ h.root_parent x⟩

/-- A root is above everything that climbs to it. -/
theorem Forest.rank_lt_root {uf : UnionFind κ σ} {root : κ → κ} (h : uf.Forest root) :
    ∀ (n : ℕ) (x : κ), uf.height ≤ n + uf.rank x → root x ≠ x → uf.rank x < uf.rank (root x) := by
  intro n
  induction n with
  | zero =>
    intro x hn hx
    have hlt := h.rank_lt x fun hp => hx (h.fixed x hp)
    have hle := h.rank_le (uf.parent x)
    omega
  | succ n ih =>
    intro x hn hx
    have hlt := h.rank_lt x fun hp => hx (h.fixed x hp)
    rcases eq_or_ne (root (uf.parent x)) (uf.parent x) with hp | hp
    · rw [← h.parent_root x, hp]
      exact hlt
    · have hup := ih (uf.parent x) (by omega) hp
      rw [h.parent_root x] at hup
      omega

/-! ## Operations -/

variable [DecidableEq κ]

/-- The parent of an element replaced. -/
def setParent (uf : UnionFind κ σ) (x p : κ) : UnionFind κ σ := { uf with parent := Function.update uf.parent x p }

/-- The seed of a root replaced. -/
def setSeed (uf : UnionFind κ σ) (x : κ) (s : Option σ) : UnionFind κ σ := { uf with seed := Function.update uf.seed x s }

/-- The root, with the path to it compressed. -/
def climb : ℕ → UnionFind κ σ → κ → UnionFind κ σ × κ
  | 0, uf, x => (uf, x)
  | n + 1, uf, x =>
    if uf.parent x = x then (uf, x)
    else
      let (uf', root) := climb n uf (uf.parent x)
      (uf'.setParent x root, root)

def find (uf : UnionFind κ σ) (x : κ) : UnionFind κ σ × κ := uf.climb (uf.height + 1) x

/-- Every element alone, with its seed. -/
def seeded (f : κ → Option σ) : UnionFind κ σ := ⟨id, fun _ => 0, f, 0⟩

theorem find_seeded (f : κ → Option σ) (x : κ) : (seeded f).find x = (seeded f, x) := if_pos rfl

/-- The root of lower rank under the other; of equal ranks the second under the first, which rises. -/
def link (uf : UnionFind κ σ) (ra rb : κ) (s : Option σ) : UnionFind κ σ :=
  let (top, low) := if uf.rank ra < uf.rank rb then (rb, ra) else (ra, rb)
  let linked := (uf.setParent low top).setSeed top s
  if uf.rank top = uf.rank low then
    { linked with rank := Function.update uf.rank top (uf.rank top + 1), height := max uf.height (uf.rank top + 1) }
  else linked

/-- What a union came to. -/
inductive Outcome (σ : Type) where
  | same
  | conflict (seedA seedB : σ)
  | merged

/-- Joins two components, unless they carry different seeds. -/
def union [DecidableEq σ] (uf : UnionFind κ σ) (a b : κ) : UnionFind κ σ × Outcome σ :=
  let (uf₁, ra) := uf.find a
  let (uf₂, rb) := uf₁.find b
  if ra = rb then (uf₂, .same)
  else
    match uf₂.seed ra, uf₂.seed rb with
    | some s, some t => if s = t then (uf₂.link ra rb (some s), .merged) else (uf₂, .conflict s t)
    | some s, none => (uf₂.link ra rb (some s), .merged)
    | none, t => (uf₂.link ra rb t, .merged)

/-! ## What the operations do to the roots -/

/-- A path may be cut short at its root. -/
theorem Forest.setParent {uf : UnionFind κ σ} {root : κ → κ} (h : uf.Forest root) {x : κ} (hx : root x ≠ x) :
    (uf.setParent x (root x)).Forest root where
  parent_root y := by
    by_cases hy : y = x
    · rw [hy]
      exact (congrArg root (Function.update_self ..)).trans (h.root_root x)
    · exact (congrArg root (Function.update_of_ne hy ..)).trans (h.parent_root y)
  root_parent y := by
    have hne : root y ≠ x := fun he => hx (by rw [← he, h.root_root])
    exact (Function.update_of_ne hne ..).trans (h.root_parent y)
  fixed y hy := by
    by_cases he : y = x
    · rw [he] at hy
      exact absurd ((Function.update_self ..).symm.trans hy) hx
    · exact h.fixed y ((Function.update_of_ne he ..).symm.trans hy)
  rank_lt y hy := by
    by_cases he : y = x
    · rw [he]
      change uf.rank x < uf.rank (Function.update uf.parent x (root x) x)
      rw [Function.update_self]
      exact h.rank_lt_root uf.height x (Nat.le_add_right _ _) hx
    · change uf.rank y < uf.rank (Function.update uf.parent x (root x) y)
      change Function.update uf.parent x (root x) y ≠ y at hy
      rw [Function.update_of_ne he] at hy ⊢
      exact h.rank_lt y hy
  rank_le := h.rank_le

theorem climb_spec {root : κ → κ} : ∀ (n : ℕ) {uf : UnionFind κ σ} (_ : uf.Forest root) {x : κ}, uf.height < n + uf.rank x →
    (uf.climb n x).2 = root x ∧ (uf.climb n x).1.Forest root ∧ (uf.climb n x).1.seed = uf.seed := by
  intro n
  induction n with
  | zero =>
    intro uf h x hn
    have hle := h.rank_le x
    omega
  | succ n ih =>
    intro uf h x hn
    rw [climb]
    split
    · rename_i hp
      exact ⟨(h.fixed x hp).symm, h, rfl⟩
    · rename_i hp
      have hlt := h.rank_lt x hp
      obtain ⟨h1, h2, h3⟩ := ih h (x := uf.parent x) (by omega)
      rw [h.parent_root x] at h1
      refine ⟨h1, ?_, h3⟩
      dsimp only
      rw [h1]
      exact h2.setParent fun hr => hp (h.isRoot_iff.2 hr)

/-- **`find` gives the root and changes neither roots nor seeds.** -/
theorem find_spec {uf : UnionFind κ σ} {root : κ → κ} (h : uf.Forest root) (x : κ) :
    (uf.find x).2 = root x ∧ (uf.find x).1.Forest root ∧ (uf.find x).1.seed = uf.seed :=
  climb_spec _ h (by omega)

/-- The roots after a link. -/
def linkRoot (root : κ → κ) (low top : κ) (x : κ) : κ := if root x = low then top else root x

theorem Forest.hang {uf : UnionFind κ σ} {root : κ → κ} (h : uf.Forest root) {top low : κ} (ht : root top = top)
    (hl : root low = low) (hne : top ≠ low) {s : Option σ} {rank : κ → ℕ} {height : ℕ}
    (hrank : ∀ x, uf.rank x ≤ rank x) (hsame : ∀ x, x ≠ top → rank x = uf.rank x) (hlt : uf.rank low < rank top)
    (hle : ∀ x, rank x ≤ height) :
    Forest { parent := Function.update uf.parent low top, rank := rank, seed := Function.update uf.seed top s, height := height }
      (linkRoot root low top) where
  parent_root x := by
    by_cases hx : x = low
    · rw [hx]
      simp only [Function.update_self, linkRoot, ht, hl, if_neg hne, if_true]
    · simp only [Function.update_of_ne hx, linkRoot, h.parent_root]
  root_parent x := by
    unfold linkRoot
    dsimp only
    split
    · rw [Function.update_of_ne hne]
      exact h.isRoot_iff.2 ht
    · rename_i hx
      rw [Function.update_of_ne hx]
      exact h.root_parent x
  fixed x hx := by
    dsimp only at hx
    by_cases he : x = low
    · rw [he, Function.update_self] at hx
      exact absurd hx hne
    · rw [Function.update_of_ne he] at hx
      rw [linkRoot, h.fixed x hx, if_neg he]
  rank_lt x hx := by
    dsimp only at hx ⊢
    by_cases he : x = low
    · rw [he, Function.update_self, hsame low hne.symm]
      exact hlt
    · rw [Function.update_of_ne he] at hx ⊢
      have hxt : x ≠ top := fun hxt => hx (hxt ▸ h.isRoot_iff.2 ht)
      rw [hsame x hxt]
      exact (h.rank_lt x hx).trans_le (hrank _)
  rank_le := hle

/-- Two roots that differ are linked, one under the other, and the seed is put at the one on top. -/
theorem link_spec {uf : UnionFind κ σ} {root : κ → κ} (h : uf.Forest root) {ra rb : κ} (ha : root ra = ra) (hb : root rb = rb)
    (hne : ra ≠ rb) (s : Option σ) : ∃ top low, (top = ra ∧ low = rb ∨ top = rb ∧ low = ra) ∧
      (uf.link ra rb s).Forest (linkRoot root low top) ∧ (uf.link ra rb s).seed = Function.update uf.seed top s := by
  unfold link
  by_cases hlt : uf.rank ra < uf.rank rb
  · refine ⟨rb, ra, .inr ⟨rfl, rfl⟩, ?_⟩
    rw [if_pos hlt]
    dsimp only
    rw [if_neg (by omega)]
    exact ⟨h.hang hb ha hne.symm (fun _ => le_refl _) (fun _ _ => rfl) hlt h.rank_le, rfl⟩
  · refine ⟨ra, rb, .inl ⟨rfl, rfl⟩, ?_⟩
    rw [if_neg hlt]
    dsimp only
    split
    · rename_i heq
      refine ⟨h.hang ha hb hne (fun x => ?_) (fun x hx => Function.update_of_ne hx ..) ?_ (fun x => ?_), rfl⟩
      · by_cases hx : x = ra
        · rw [hx, Function.update_self]
          omega
        · rw [Function.update_of_ne hx]
      · rw [Function.update_self]
        omega
      · by_cases hx : x = ra
        · rw [hx, Function.update_self]
          exact le_max_right _ _
        · rw [Function.update_of_ne hx]
          exact (h.rank_le x).trans (le_max_left _ _)
    · rename_i heq
      exact ⟨h.hang ha hb hne (fun _ => le_refl _) (fun _ _ => rfl) (lt_of_le_of_ne (not_lt.1 hlt) (Ne.symm heq)) h.rank_le, rfl⟩

end UnionFind

/-! ## What the forest stands for -/

/-- An equivalence relation, and a seed for each class. -/
structure Partition (κ σ : Type) where
  rel : κ → κ → Prop
  seed : κ → Option σ
  equiv : Equivalence rel
  seed_eq : ∀ {x y}, rel x y → seed x = seed y

namespace Partition

/-- Every element alone, with its seed. -/
def alone (seed : κ → Option σ) : Partition κ σ where
  rel := Eq
  seed := seed
  equiv := eq_equivalence
  seed_eq := congrArg seed

/-- The classes carry seeds that differ. -/
def Conflict (p : Partition κ σ) (a b : κ) : Prop := ∃ s t, p.seed a = some s ∧ p.seed b = some t ∧ s ≠ t

/-- The element is in one of two classes. -/
def Meets (p : Partition κ σ) (a b x : κ) : Prop := p.rel x a ∨ p.rel x b

theorem meets_congr (p : Partition κ σ) {a b x y : κ} (h : p.rel x y) : p.Meets a b x ↔ p.Meets a b y := by
  unfold Meets
  constructor
  · exact Or.imp (p.equiv.trans (p.equiv.symm h)) (p.equiv.trans (p.equiv.symm h))
  · exact Or.imp (p.equiv.trans h) (p.equiv.trans h)

open Classical in
/-- Two classes made one, with the seed that either carries. -/
noncomputable def join (p : Partition κ σ) (a b : κ) : Partition κ σ where
  rel x y := p.rel x y ∨ (p.Meets a b x ∧ p.Meets a b y)
  seed x := if p.Meets a b x then (p.seed a).or (p.seed b) else p.seed x
  equiv := by
    refine ⟨fun x => .inl (p.equiv.refl x), ?_, ?_⟩
    · rintro x y (h | ⟨hx, hy⟩)
      · exact .inl (p.equiv.symm h)
      · exact .inr ⟨hy, hx⟩
    · rintro x y z (h | ⟨hx, hy⟩) (h' | ⟨hy', hz⟩)
      · exact .inl (p.equiv.trans h h')
      · exact .inr ⟨(p.meets_congr h).2 hy', hz⟩
      · exact .inr ⟨hx, (p.meets_congr h').1 hy⟩
      · exact .inr ⟨hx, hz⟩
  seed_eq := by
    rintro x y (h | ⟨hx, hy⟩)
    · simp only [p.meets_congr h, p.seed_eq h]
    · rw [if_pos hx, if_pos hy]

open Classical in
/-- An edge joins the classes of its ends, unless they conflict. -/
noncomputable def step (p : Partition κ σ) (e : κ × κ) : Partition κ σ :=
  if p.rel e.1 e.2 ∨ p.Conflict e.1 e.2 then p else p.join e.1 e.2

/-- The edges one after the other. -/
noncomputable def steps (p : Partition κ σ) (edges : List (κ × κ)) : Partition κ σ := edges.foldl step p

theorem steps_append (p : Partition κ σ) (es es' : List (κ × κ)) : p.steps (es ++ es') = (p.steps es).steps es' :=
  List.foldl_append

/-- A step only adds to the relation. -/
theorem step_rel {p : Partition κ σ} {x y : κ} (e : κ × κ) (h : p.rel x y) : (p.step e).rel x y := by
  unfold step
  split
  · exact h
  · exact .inl h

theorem steps_rel {x y : κ} (es : List (κ × κ)) : ∀ {p : Partition κ σ}, p.rel x y → (p.steps es).rel x y := by
  induction es with
  | nil => exact id
  | cons e es ih => exact fun h => ih (step_rel e h)

/-- A class keeps the seed it carries. -/
theorem step_seed {p : Partition κ σ} {x : κ} {s : σ} (e : κ × κ) (h : p.seed x = some s) : (p.step e).seed x = some s := by
  unfold step
  split
  · exact h
  · rename_i hno
    have hc : ¬ p.Conflict e.1 e.2 := fun hc => hno (.inr hc)
    change @ite _ (p.Meets e.1 e.2 x) (Classical.propDecidable _) ((p.seed e.1).or (p.seed e.2)) (p.seed x) = some s
    split
    · rename_i hm
      rcases hm with ha | hb
      · rw [← p.seed_eq ha, h]
        rfl
      · rw [p.seed_eq hb] at h
        cases hs : p.seed e.1 with
        | none => exact h
        | some t =>
          have hst : t = s := by
            by_contra hne
            exact hc ⟨t, s, hs, h, hne⟩
          rw [hst]
          rfl
    · exact h

theorem steps_seed {x : κ} {s : σ} (es : List (κ × κ)) : ∀ {p : Partition κ σ}, p.seed x = some s → (p.steps es).seed x = some s := by
  induction es with
  | nil => exact id
  | cons e es ih => exact fun h => ih (step_seed e h)

/-- The seed of a class is one that an element of it carries. -/
theorem step_seed_of {p : Partition κ σ} {x : κ} {s : σ} {e : κ × κ} (h : (p.step e).seed x = some s) :
    ∃ y, (p.step e).rel x y ∧ p.seed y = some s := by
  by_cases hno : p.rel e.1 e.2 ∨ p.Conflict e.1 e.2
  · rw [step, if_pos hno] at h ⊢
    exact ⟨x, p.equiv.refl x, h⟩
  · rw [step, if_neg hno] at h ⊢
    by_cases hm : p.Meets e.1 e.2 x
    · have hor : (p.seed e.1).or (p.seed e.2) = some s := by simpa only [join, if_pos hm] using h
      rcases Option.or_eq_some_iff.1 hor with hs | ⟨-, hs⟩
      · exact ⟨e.1, .inr ⟨hm, .inl (p.equiv.refl _)⟩, hs⟩
      · exact ⟨e.2, .inr ⟨hm, .inr (p.equiv.refl _)⟩, hs⟩
    · exact ⟨x, .inl (p.equiv.refl x), by simpa only [join, if_neg hm] using h⟩

theorem steps_seed_of {f : κ → Option σ} {s : σ} (es : List (κ × κ)) {x : κ} (h : ((alone f).steps es).seed x = some s) :
    ∃ y, ((alone f).steps es).rel x y ∧ f y = some s := by
  induction es using List.reverseRecOn generalizing x with
  | nil => exact ⟨x, rfl, h⟩
  | append_singleton es e ih =>
    rw [steps_append] at h ⊢
    obtain ⟨y, hxy, hy⟩ := step_seed_of h
    obtain ⟨z, hyz, hz⟩ := ih hy
    exact ⟨z, (Partition.equiv _).trans hxy (step_rel e hyz), hz⟩

/-- What is not alone is an end of an edge. -/
theorem steps_touched {f : κ → Option σ} (es : List (κ × κ)) {x y : κ} (h : ((alone f).steps es).rel x y) :
    x = y ∨ ∃ e ∈ es, e.1 = y ∨ e.2 = y := by
  induction es using List.reverseRecOn generalizing x with
  | nil => exact .inl h
  | append_singleton es e ih =>
    have before : ∀ {z}, ((alone f).steps es).rel z y → z = y ∨ ∃ e' ∈ es ++ [e], e'.1 = y ∨ e'.2 = y := fun hz =>
      (ih hz).imp_right fun ⟨e', he', hy⟩ => ⟨e', List.mem_append_left _ he', hy⟩
    rw [steps_append] at h
    change (((alone f).steps es).step e).rel x y at h
    unfold step at h
    split at h
    · exact before h
    · rcases h with h | ⟨-, hy⟩
      · exact before h
      · right
        rcases hy with hy | hy
        · rcases before ((Partition.equiv _).symm hy) with h1 | h1
          · exact ⟨e, List.mem_append_right _ (List.mem_singleton_self e), .inl h1⟩
          · exact h1
        · rcases before ((Partition.equiv _).symm hy) with h2 | h2
          · exact ⟨e, List.mem_append_right _ (List.mem_singleton_self e), .inr h2⟩
          · exact h2

/-- An element without seed stays alone just when no edge leads to another one. -/
theorem steps_alone_iff {f : κ → Option σ} {x : κ} (hf : f x = none) (es : List (κ × κ)) :
    (∀ y, ((alone f).steps es).rel x y → y = x) ↔ ∀ e ∈ es, (e.1 = x ↔ e.2 = x) := by
  induction es using List.reverseRecOn with
  | nil => exact ⟨fun _ e he => (List.not_mem_nil he).elim, fun _ y hy => Eq.symm hy⟩
  | append_singleton es e ih =>
    rw [steps_append, List.forall_mem_append, List.forall_mem_singleton, ← ih]
    set p := (alone f).steps es with hp
    have hseed : (∀ y, p.rel x y → y = x) → p.seed x = none := by
      intro halone
      rw [Option.eq_none_iff_forall_ne_some]
      intro s hs
      obtain ⟨y, hxy, hy⟩ := steps_seed_of es hs
      rw [halone y hxy, hf] at hy
      cases hy
    constructor
    · intro halone
      have hbefore : ∀ y, p.rel x y → y = x := fun y hy => halone y (step_rel e hy)
      have hnone := hseed hbefore
      -- an end at `x` carries no seed, so that no conflict keeps the other end away
      refine ⟨hbefore, fun h1 => ?_, fun h2 => ?_⟩
      · by_cases hab : p.rel e.1 e.2
        · exact hbefore _ (h1 ▸ hab)
        · have hc : ¬ p.Conflict e.1 e.2 := by
            rintro ⟨s, r, hs, -, -⟩
            rw [h1, hnone] at hs
            cases hs
          refine halone _ ?_
          change (p.step e).rel x e.2
          rw [step, if_neg (not_or.2 ⟨hab, hc⟩)]
          exact .inr ⟨.inl (h1 ▸ p.equiv.refl _), .inr (p.equiv.refl _)⟩
      · by_cases hab : p.rel e.1 e.2
        · exact hbefore _ (h2 ▸ p.equiv.symm hab)
        · have hc : ¬ p.Conflict e.1 e.2 := by
            rintro ⟨s, r, -, hr, -⟩
            rw [h2, hnone] at hr
            cases hr
          refine halone _ ?_
          change (p.step e).rel x e.1
          rw [step, if_neg (not_or.2 ⟨hab, hc⟩)]
          exact .inr ⟨.inr (h2 ▸ p.equiv.refl _), .inl (p.equiv.refl _)⟩
    · rintro ⟨hbefore, hends⟩ y hy
      by_cases hno : p.rel e.1 e.2 ∨ p.Conflict e.1 e.2
      · change (p.step e).rel x y at hy
        rw [step, if_pos hno] at hy
        exact hbefore y hy
      · change (p.step e).rel x y at hy
        rw [step, if_neg hno] at hy
        rcases hy with hy | ⟨hx, -⟩
        · exact hbefore y hy
        · rcases hx with hx | hx
          · have h1 := hbefore _ hx
            exact absurd (.inl (by rw [h1, hends.1 h1]; exact p.equiv.refl x)) hno
          · have h2 := hbefore _ hx
            exact absurd (.inl (by rw [h2, hends.2 h2]; exact p.equiv.refl x)) hno

end Partition

namespace UnionFind

variable [DecidableEq κ]

/-- The forest has the classes of the partition, and their seeds at the roots. -/
def Stands (uf : UnionFind κ σ) (p : Partition κ σ) : Prop :=
  ∃ root : κ → κ, uf.Forest root ∧ (∀ x y, p.rel x y ↔ root x = root y) ∧ ∀ x, uf.seed (root x) = p.seed x

theorem find_stands {uf : UnionFind κ σ} {p : Partition κ σ} (h : uf.Stands p) (x : κ) : (uf.find x).1.Stands p := by
  obtain ⟨root, hf, hrel, hseed⟩ := h
  obtain ⟨-, hf', hs⟩ := find_spec hf x
  exact ⟨root, hf', hrel, fun y => by rw [hs, hseed]⟩

/-- Two elements have one root where they are of one class. -/
theorem find_eq_iff {uf : UnionFind κ σ} {p : Partition κ σ} (h : uf.Stands p) (x y : κ) :
    (uf.find x).2 = (uf.find y).2 ↔ p.rel x y := by
  obtain ⟨root, hf, hrel, -⟩ := h
  rw [(find_spec hf x).1, (find_spec hf y).1, hrel]

/-- The seed at the root is that of the class. -/
theorem seed_find {uf : UnionFind κ σ} {p : Partition κ σ} (h : uf.Stands p) (x : κ) :
    uf.seed (uf.find x).2 = p.seed x := by
  obtain ⟨root, hf, -, hseed⟩ := h
  rw [(find_spec hf x).1, hseed]

/-- A seed put where there is none. -/
theorem setSeed_stands {uf : UnionFind κ σ} {f : κ → Option σ} (h : uf.Stands (.alone f)) (x : κ) (s : Option σ) :
    ((uf.find x).1.setSeed (uf.find x).2 s).Stands (.alone (Function.update f x s)) := by
  obtain ⟨root, hf, hrel, hseed⟩ := h
  obtain ⟨hx, hf', hs⟩ := find_spec hf x
  refine ⟨root, ⟨hf'.parent_root, hf'.root_parent, hf'.fixed, hf'.rank_lt, hf'.rank_le⟩, hrel, fun y => ?_⟩
  change Function.update (uf.find x).1.seed (uf.find x).2 s (root y) = Function.update f x s y
  rw [hx, hs]
  by_cases hy : y = x
  · rw [hy, Function.update_self, Function.update_self]
  · rw [Function.update_of_ne hy, Function.update_of_ne fun he => hy ((hrel y x).2 he), hseed]
    rfl

/-- What a union comes to, by the partition. -/
def OutcomeOf (p : Partition κ σ) (a b : κ) : Outcome σ → Prop
  | .same => p.rel a b
  | .conflict s t => p.seed a = some s ∧ p.seed b = some t ∧ s ≠ t
  | .merged => ¬ p.rel a b ∧ ¬ p.Conflict a b

theorem link_stands {uf : UnionFind κ σ} {p : Partition κ σ} {root : κ → κ} (hf : uf.Forest root)
    (hrel : ∀ x y, p.rel x y ↔ root x = root y) (hseed : ∀ x, uf.seed (root x) = p.seed x) {a b : κ} (hne : ¬ p.rel a b) {s : Option σ}
    (hs : s = (p.seed a).or (p.seed b)) : (uf.link (root a) (root b) s).Stands (p.join a b) := by
  obtain ⟨top, low, hends, hf', hs'⟩ := link_spec hf (hf.root_root a) (hf.root_root b) (fun he => hne ((hrel a b).2 he)) s
  have hmeets : ∀ x, p.Meets a b x ↔ root x = top ∨ root x = low := by
    intro x
    rw [Partition.Meets, hrel, hrel]
    rcases hends with ⟨ht, hl⟩ | ⟨ht, hl⟩
    · rw [ht, hl]
    · rw [ht, hl, or_comm]
  have hdiff : top ≠ low := by
    rcases hends with ⟨ht, hl⟩ | ⟨ht, hl⟩
    · exact fun he => hne ((hrel a b).2 (ht ▸ hl ▸ he))
    · exact fun he => hne ((hrel a b).2 (ht ▸ hl ▸ he.symm))
  refine ⟨linkRoot root low top, hf', fun x y => ?_, fun x => ?_⟩
  · change p.rel x y ∨ (p.Meets a b x ∧ p.Meets a b y) ↔ linkRoot root low top x = linkRoot root low top y
    rw [hrel, hmeets, hmeets]
    unfold linkRoot
    by_cases hx : root x = low <;> by_cases hy : root y = low
    · simp [hx, hy]
    · simp only [hx, hy, if_true, if_false, or_true, or_false, true_and]
      constructor
      · rintro (h | h)
        · exact absurd h.symm hy
        · exact h.symm
      · exact fun h => .inr h.symm
    · simp only [hx, hy, if_true, if_false, or_true, or_false, and_true]
      constructor
      · rintro (h | h)
        · exact h.elim
        · exact h
      · exact .inr
    · simp only [hx, hy, if_false, or_false]
      constructor
      · rintro (h | ⟨h, h'⟩)
        · exact h
        · rw [h, h']
      · exact .inl
  · change (uf.link (root a) (root b) s).seed (linkRoot root low top x) =
      @ite _ (p.Meets a b x) (Classical.propDecidable _) ((p.seed a).or (p.seed b)) (p.seed x)
    rw [hs']
    by_cases hx : p.Meets a b x
    · have htop : linkRoot root low top x = top := by
        rcases (hmeets x).1 hx with ht | hl
        · rw [linkRoot, ht, if_neg hdiff]
        · rw [linkRoot, if_pos hl]
      rw [if_pos hx, htop, Function.update_self, hs]
    · have hno := fun h => hx ((hmeets x).2 h)
      rw [if_neg hx, linkRoot, if_neg fun h => hno (.inr h), Function.update_of_ne fun h => hno (.inl h), hseed]

/-- **A union is a step of the partition.** -/
theorem union_stands [DecidableEq σ] {uf : UnionFind κ σ} {p : Partition κ σ} (h : uf.Stands p) (a b : κ) :
    (uf.union a b).1.Stands (p.step (a, b)) ∧ OutcomeOf p a b (uf.union a b).2 := by
  obtain ⟨root, hf, hrel, hseed⟩ := h
  obtain ⟨ha, hf₁, hs₁⟩ := find_spec hf a
  obtain ⟨hb, hf₂, hs₂⟩ := find_spec hf₁ b
  have hseed₂ : ∀ x, ((uf.find a).1.find b).1.seed (root x) = p.seed x := fun x => by rw [hs₂, hs₁, hseed]
  have hstands : ((uf.find a).1.find b).1.Stands p := ⟨root, hf₂, hrel, hseed₂⟩
  unfold union
  dsimp only
  rw [ha, hb]
  split
  · rename_i he
    have hab : p.rel a b := (hrel a b).2 he
    rw [Partition.step, if_pos (.inl hab)]
    exact ⟨hstands, hab⟩
  · rename_i he
    have hab : ¬ p.rel a b := fun hr => he ((hrel a b).1 hr)
    have merged : ¬ p.Conflict a b → ∀ s, s = (p.seed a).or (p.seed b) →
        (((uf.find a).1.find b).1.link (root a) (root b) s).Stands (p.step (a, b)) ∧ OutcomeOf p a b .merged := by
      intro hc s hs
      rw [Partition.step, if_neg (not_or.2 ⟨hab, hc⟩)]
      exact ⟨link_stands hf₂ hrel hseed₂ hab hs, hab, hc⟩
    rw [hseed₂, hseed₂]
    cases hsa : p.seed a with
    | none =>
      exact merged (by rintro ⟨s, t, h1, -⟩; rw [hsa] at h1; cases h1) _ (by rw [hsa]; rfl)
    | some s =>
      cases hsb : p.seed b with
      | none => exact merged (by rintro ⟨s, t, -, h2, -⟩; rw [hsb] at h2; cases h2) _ (by rw [hsa]; rfl)
      | some t =>
        dsimp only
        split
        · rename_i hst
          refine merged ?_ _ (by rw [hsa]; rfl)
          rintro ⟨s', t', h1, h2, hne⟩
          rw [hsa] at h1
          rw [hsb] at h2
          cases h1
          cases h2
          exact hne hst
        · rename_i hst
          rw [Partition.step, if_pos (.inr ⟨s, t, hsa, hsb, hst⟩)]
          exact ⟨hstands, hsa, hsb, hst⟩

end UnionFind

end Umd.Lib
