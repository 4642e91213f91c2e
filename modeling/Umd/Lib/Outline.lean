import Mathlib
/-!
# Outlines

Entries that are listed with their paths, each under its parent: no path is listed twice,
and each parent stands before its children. Both are put together from the blocks of an
outline: an entry with what is under it (`nodup_node`, `Rooted.node`), and numbered blocks
one after the other (`nodup_numbered`, `Rooted.numbered`).
-/

namespace Umd.Lib.Outline

variable {ε σ α : Type} (path : ε → List σ) (parent : ε → Option (List σ))

/-- Every parent is known, or stands before. -/
def Rooted : List (List σ) → List ε → Prop
  | _, [] => True
  | known, e :: es => (∀ p ∈ parent e, p ∈ known) ∧ Rooted (path e :: known) es

/-- All entries lie under a path. -/
def Under (p : List σ) (es : List ε) : Prop := ∀ e ∈ es, ∃ step, p ++ [step] <+: path e

/-- Blocks, counted from one. -/
def numbered (block : Nat → α → List ε) (xs : List α) : List ε := (xs.zipIdx 1).flatMap fun x => block x.2 x.1

variable {path parent}

theorem Rooted.mono {known known' : List (List σ)} {es : List ε} (h : Rooted path parent known es) (hsub : known ⊆ known') :
    Rooted path parent known' es := by
  induction es generalizing known known' with
  | nil => trivial
  | cons e es ih =>
    exact ⟨fun p hp => hsub (h.1 p hp), ih h.2 (List.cons_subset_cons _ hsub)⟩

theorem Rooted.append {known : List (List σ)} {es es' : List ε} (h : Rooted path parent known es)
    (h' : Rooted path parent known es') : Rooted path parent known (es ++ es') := by
  induction es generalizing known with
  | nil => exact h'
  | cons e es ih => exact ⟨h.1, ih h.2 (h'.mono (List.subset_cons_self ..))⟩

/-- A parent that is not known from the start stands before. -/
theorem Rooted.before {known : List (List σ)} {pre post : List ε} {e : ε} (h : Rooted path parent known (pre ++ e :: post)) :
    ∀ p ∈ parent e, p ∈ known ∨ p ∈ pre.map path := by
  induction pre generalizing known with
  | nil => exact fun p hp => .inl (h.1 p hp)
  | cons d pre ih =>
    intro p hp
    rcases ih h.2 p hp with hmem | hmem
    · rcases List.mem_cons.1 hmem with rfl | hmem
      · exact .inr (List.mem_cons_self ..)
      · exact .inl hmem
    · exact .inr (List.mem_cons_of_mem _ hmem)

/-- An entry, with what is under it. -/
theorem Rooted.node {known : List (List σ)} {e : ε} {es : List ε} (hparent : ∀ p ∈ parent e, p ∈ known)
    (h : ∀ known', path e ∈ known' → Rooted path parent known' es) : Rooted path parent known (e :: es) :=
  ⟨hparent, h _ (List.mem_cons_self ..)⟩

theorem Rooted.numbered {known : List (List σ)} {block : Nat → α → List ε} {xs : List α}
    (h : ∀ i x, Rooted path parent known (block i x)) : Rooted path parent known (numbered block xs) := by
  unfold Outline.numbered
  induction xs.zipIdx 1 with
  | nil => trivial
  | cons x xs ih => exact (h x.2 x.1).append ih

theorem Under.numbered {p : List σ} (step : Nat → σ) {block : Nat → α → List ε} {xs : List α}
    (h : ∀ i x, ∀ e ∈ block i x, p ++ [step i] <+: path e) : Under path p (numbered block xs) := by
  intro e he
  obtain ⟨x, -, he⟩ := List.mem_flatMap.1 he
  exact ⟨step x.2, h x.2 x.1 e he⟩

theorem nodup_node {e : ε} {es : List ε} (hunder : Under path (path e) es) (h : (es.map path).Nodup) :
    ((e :: es).map path).Nodup := by
  rw [List.map_cons, List.nodup_cons]
  refine ⟨fun hmem => ?_, h⟩
  obtain ⟨d, hd, heq⟩ := List.mem_map.1 hmem
  obtain ⟨step, hprefix⟩ := hunder d hd
  have hlen := hprefix.length_le
  rw [heq, List.length_append, List.length_singleton] at hlen
  omega

/-- What is under the path of a node is not the node, and begins with its path. -/
theorem prefix_node {p : List σ} {e : ε} {es : List ε} (hpath : path e = p) (hunder : Under path p es) :
    ∀ d ∈ e :: es, p <+: path d := by
  intro d hd
  rcases List.mem_cons.1 hd with rfl | hd
  · rw [hpath]
  · obtain ⟨step, hprefix⟩ := hunder d hd
    exact (List.prefix_append ..).trans hprefix

theorem nodup_numbered {p : List σ} {step : Nat → σ} (hstep : Function.Injective step) {block : Nat → α → List ε} {xs : List α}
    (hunder : ∀ i x, ∀ e ∈ block i x, p ++ [step i] <+: path e) (h : ∀ i x, ((block i x).map path).Nodup) :
    ((numbered block xs).map path).Nodup := by
  unfold numbered
  rw [List.map_flatMap, List.nodup_flatMap]
  refine ⟨fun x _ => h x.2 x.1, ?_⟩
  have hindices : (xs.zipIdx 1).Pairwise fun x y => x.2 ≠ y.2 := by
    rw [← List.pairwise_map (f := Prod.snd) (R := (· ≠ ·)), List.zipIdx_map_snd]
    exact List.nodup_range' ..
  refine hindices.imp fun {x y} hne => ?_
  intro q hq hq'
  obtain ⟨e, he, rfl⟩ := List.mem_map.1 hq
  obtain ⟨e', he', heq⟩ := List.mem_map.1 hq'
  have h1 := hunder x.2 x.1 e he
  have h2 := hunder y.2 y.1 e' he'
  rw [heq] at h2
  have hsame := (List.prefix_of_prefix_length_le h1 h2 (by simp)).eq_of_length (by simp)
  exact hne (hstep (List.singleton_inj.1 (List.append_cancel_left hsame)))

end Umd.Lib.Outline
