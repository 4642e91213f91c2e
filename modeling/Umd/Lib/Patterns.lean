import Mathlib
/-!
# Patterns and first occurrences

A regular expression as what may be left of a text after a match of it, and the
split of a text at the first occurrence of another (`splitFirst_append`).
-/

namespace Umd.Lib

variable {α : Type}

/-- What may be left after a match. -/
abbrev Pattern (α : Type) := List α → List (List α)

namespace Pattern

def one (p : α → Bool) : Pattern α
  | c :: cs => if p c then [cs] else []
  | [] => []

def star (p : α → Bool) : Pattern α
  | c :: cs => (c :: cs) :: if p c then star p cs else []
  | [] => [[]]

def andThen (p q : Pattern α) : Pattern α := fun s => (p s).flatMap q

def opt (p : Pattern α) : Pattern α := fun s => p s ++ [s]

/-- One or more. -/
def plus (p : α → Bool) : Pattern α := andThen (one p) (star p)

/-- Whether all of the text is matched. -/
def full (p : Pattern α) (s : List α) : Bool := (p s).any List.isEmpty

theorem mem_one_iff {p : α → Bool} {s rest : List α} : rest ∈ one p s ↔ ∃ c, p c = true ∧ s = c :: rest := by
  cases s with
  | nil => simp [one]
  | cons c cs =>
    rw [one]
    split
    · rename_i hc
      rw [List.mem_singleton]
      exact ⟨fun h => ⟨c, hc, h ▸ rfl⟩, fun ⟨_, _, h⟩ => (List.cons.inj h).2.symm⟩
    · rename_i hc
      refine iff_of_false List.not_mem_nil ?_
      rintro ⟨d, hd, h⟩
      rw [(List.cons.inj h).1] at hc
      exact hc hd

theorem mem_star_iff {p : α → Bool} {s rest : List α} :
    rest ∈ star p s ↔ ∃ ds, (∀ c ∈ ds, p c = true) ∧ s = ds ++ rest := by
  induction s with
  | nil => simp [star]
  | cons c cs ih =>
    rw [star, List.mem_cons]
    constructor
    · rintro (rfl | h)
      · exact ⟨[], nofun, rfl⟩
      · split at h
        · rename_i hc
          obtain ⟨ds, hds, rfl⟩ := ih.1 h
          exact ⟨c :: ds, by simpa using ⟨hc, hds⟩, rfl⟩
        · cases h
    · rintro ⟨ds, hds, heq⟩
      cases ds with
      | nil => exact .inl heq.symm
      | cons d ds =>
        obtain ⟨rfl, rfl⟩ := List.cons.inj heq
        rw [if_pos (hds _ (.head _))]
        exact .inr (ih.2 ⟨ds, fun e he => hds e (.tail _ he), rfl⟩)

theorem mem_andThen_iff {p q : Pattern α} {s rest : List α} : rest ∈ andThen p q s ↔ ∃ mid ∈ p s, rest ∈ q mid :=
  List.mem_flatMap

theorem mem_opt_iff {p : Pattern α} {s rest : List α} : rest ∈ opt p s ↔ rest ∈ p s ∨ rest = s := by
  simp [opt]

theorem mem_plus_iff {p : α → Bool} {s rest : List α} :
    rest ∈ plus p s ↔ ∃ ds, ds ≠ [] ∧ (∀ c ∈ ds, p c = true) ∧ s = ds ++ rest := by
  unfold plus
  simp only [mem_andThen_iff, mem_one_iff, mem_star_iff]
  constructor
  · rintro ⟨mid, ⟨c, hc, rfl⟩, ds, hds, rfl⟩
    exact ⟨c :: ds, List.cons_ne_nil _ _, by simpa using ⟨hc, hds⟩, rfl⟩
  · rintro ⟨ds, hne, hds, rfl⟩
    obtain ⟨c, ds, rfl⟩ := List.exists_cons_of_ne_nil hne
    exact ⟨ds ++ rest, ⟨c, hds c (.head _), rfl⟩, ds, fun e he => hds e (.tail _ he), rfl⟩

end Pattern

/-- What begins a text and lacks a character of it is before that character. -/
theorem prefix_append_cons {y : α} {sep a b : List α} (hy : y ∉ sep) (h : sep <+: a ++ y :: b) : sep <+: a := by
  induction a generalizing sep with
  | nil =>
    cases sep with
    | nil => exact List.nil_prefix
    | cons d sep =>
      obtain ⟨rfl, -⟩ := List.cons_prefix_cons.1 h
      exact absurd (List.mem_cons_self ..) hy
  | cons c a ih =>
    cases sep with
    | nil => exact List.nil_prefix
    | cons d sep =>
      obtain ⟨rfl, hrest⟩ := List.cons_prefix_cons.1 h
      exact List.cons_prefix_cons.2 ⟨rfl, ih (fun hm => hy (List.mem_cons_of_mem _ hm)) hrest⟩

/-- What occurs in a text and lacks a character of it is before that character or after it. -/
theorem infix_append_cons {y : α} {sep a b : List α} (hy : y ∉ sep) (h : sep <:+: a ++ y :: b) : sep <:+: a ∨ sep <:+: b := by
  induction a with
  | nil =>
    rcases List.infix_cons_iff.1 h with h | h
    · exact .inl (prefix_append_cons (a := []) hy h).isInfix
    · exact .inr h
  | cons c a ih =>
    rcases List.infix_cons_iff.1 h with h | h
    · exact .inl (prefix_append_cons (a := c :: a) hy h).isInfix
    · exact (ih h).imp_left fun h => h.trans (List.suffix_cons c a).isInfix

/-- The texts before and after a mark that comes in neither of the texts before. -/
theorem append_mark_inj {y : α} {a a' b b' : List α} (ha : y ∉ a) (ha' : y ∉ a') (h : a ++ y :: b = a' ++ y :: b') :
    a = a' ∧ b = b' := by
  have hle : a <+: a' := prefix_append_cons ha ⟨y :: b, h⟩
  have hle' : a' <+: a := prefix_append_cons ha' ⟨y :: b', h.symm⟩
  obtain rfl := hle.eq_of_length_le hle'.length_le
  exact ⟨rfl, (List.cons.inj (List.append_cancel_left h)).2⟩

variable [DecidableEq α]

/-- The texts before and after the first occurrence of a separator. -/
def splitFirst (sep : List α) : List α → Option (List α × List α)
  | [] => if sep = [] then some ([], []) else none
  | c :: cs =>
    if sep <+: c :: cs then some ([], (c :: cs).drop sep.length)
    else (splitFirst sep cs).map fun p => (c :: p.1, p.2)

theorem splitFirst_cons (sep : List α) (c : α) (cs : List α) : splitFirst sep (c :: cs) =
    if sep <+: c :: cs then some ([], (c :: cs).drop sep.length) else (splitFirst sep cs).map fun p => (c :: p.1, p.2) := rfl

theorem splitFirst_none {sep s : List α} (h : ¬ sep <:+: s) : splitFirst sep s = none := by
  induction s with
  | nil =>
    refine if_neg ?_
    rintro rfl
    exact h List.infix_rfl
  | cons c cs ih =>
    rw [splitFirst_cons, if_neg fun hp => h hp.isInfix, ih fun hi => h (hi.trans (List.suffix_cons c cs).isInfix)]
    rfl

/-- The first occurrence is the one that is written, if the separator's first character comes only once in it
and there is none before. -/
theorem splitFirst_append {x : α} {sep a b : List α} (hx : x ∉ sep) (h : ¬ (x :: sep) <:+: a) :
    splitFirst (x :: sep) (a ++ x :: sep ++ b) = some (a, b) := by
  induction a with
  | nil =>
    rw [List.nil_append, List.cons_append, splitFirst_cons, ← List.cons_append, if_pos (List.prefix_append ..), List.drop_left]
  | cons c cs ih =>
    have hcs : ¬ (x :: sep) <:+: cs := fun hi => h (hi.trans (List.suffix_cons c cs).isInfix)
    have hne : ¬ (x :: sep) <+: c :: (cs ++ x :: sep ++ b) := by
      intro hp
      obtain ⟨rfl, hrest⟩ := List.cons_prefix_cons.1 hp
      rw [List.append_assoc, List.cons_append] at hrest
      exact h (List.cons_prefix_cons.2 ⟨rfl, prefix_append_cons hx hrest⟩).isInfix
    rw [List.cons_append, List.cons_append, splitFirst_cons, if_neg hne, ih hcs]
    rfl

end Umd.Lib
