import Mathlib
/-!
# Splitting and stripping texts

Texts over any alphabet with a set of spaces: `strip`, the lines of a text that are not
blank, and `re.split` at what a pattern matches. Stripping a text changes none of its lines
(`lines_trim`), lines that are joined are read back (`lines_intercalate`), and a split at
spaces keeps all that is no space (`solid_splitAll`).
-/

namespace Umd.Lib.Splits

variable {α : Type} (space : α → Bool)

/-- `strip()` -/
def trim (cs : List α) : List α := ((cs.dropWhile space).reverse.dropWhile space).reverse

/-- What is no space. -/
def solid (cs : List α) : List α := cs.filter fun c => !space c

/-- `not cs.strip()` -/
def blank (cs : List α) : Bool := cs.all space

/-- The lines of a text that are not blank, stripped. -/
def lines [DecidableEq α] (nl : α) (cs : List α) : List (List α) := ((cs.splitOn nl).filter fun line => !blank space line).map (trim space)

/-- `re.split`: `m` is how much is matched after a character, if anything is; `skip` is what is left of a match, and `part` the
part that has begun, from its end. -/
def splitFrom (m : Option α → List α → Option Nat) : Option α → Nat → List α → List α → List (List α)
  | _, _, part, [] => [part.reverse]
  | _, skip + 1, part, c :: cs => splitFrom m (some c) skip part cs
  | prev, 0, part, c :: cs =>
    match m prev (c :: cs) with
    | some (n + 1) => part.reverse :: splitFrom m (some c) n [] cs
    | _ => splitFrom m (some c) 0 (c :: part) cs

def splitAll (m : Option α → List α → Option Nat) (cs : List α) : List (List α) := splitFrom m none 0 [] cs

/-- A pattern that matches spaces only. -/
def MatchesSpace (m : Option α → List α → Option Nat) : Prop :=
  ∀ prev cs n, m prev cs = some n → ∀ c ∈ cs.take n, space c = true

/-- `split()` -/
def words (cs : List α) : List (List α) := (cs.splitOnP space).filter (· ≠ [])

variable {space}

/-! ## Stripping -/

theorem trim_cons {c : α} (hc : space c = true) (cs : List α) : trim space (c :: cs) = trim space cs := by
  unfold trim
  rw [List.dropWhile_cons, hc, if_pos rfl]

theorem trim_snoc {c : α} (hc : space c = true) (cs : List α) : trim space (cs ++ [c]) = trim space cs := by
  unfold trim
  rw [List.dropWhile_append]
  split
  · rename_i hempty
    rw [List.isEmpty_iff] at hempty
    rw [hempty, List.dropWhile_cons, hc, if_pos rfl]
    rfl
  · rw [List.reverse_append, List.reverse_singleton, List.singleton_append, List.dropWhile_cons, hc, if_pos rfl]

theorem trim_eq_nil {cs : List α} : trim space cs = [] ↔ blank space cs = true := by
  unfold trim blank
  rw [List.reverse_eq_nil_iff, List.dropWhile_eq_nil_iff, List.all_eq_true]
  constructor
  · intro h c hc
    by_contra hns
    have hmem : c ∈ cs.dropWhile space := by
      rw [← List.takeWhile_append_dropWhile (p := space) (l := cs), List.mem_append] at hc
      exact hc.resolve_left fun hin => hns (List.mem_takeWhile_imp hin)
    exact hns (h c (List.mem_reverse.2 hmem))
  · intro h c hc
    exact h c (List.dropWhile_subset _ (List.mem_reverse.1 hc))

theorem solid_dropWhile (cs : List α) : solid space (cs.dropWhile space) = solid space cs := by
  induction cs with
  | nil => rfl
  | cons c cs ih =>
    rw [List.dropWhile_cons]
    split
    · rename_i hc
      rw [ih, solid, solid, List.filter_cons_of_neg (by simp [hc])]
    · rfl

theorem solid_trim (cs : List α) : solid space (trim space cs) = solid space cs := by
  have hreverse : ∀ ds : List α, solid space ds.reverse = (solid space ds).reverse := fun ds => List.filter_reverse ..
  unfold trim
  rw [hreverse, solid_dropWhile, hreverse, List.reverse_reverse, solid_dropWhile]

/-- Parts that are stripped, and left out where they are blank, keep what is no space. -/
theorem solid_parts (parts : List (List α)) :
    solid space ((parts.map (trim space)).filter (· ≠ [])).flatten = solid space parts.flatten := by
  induction parts with
  | nil => rfl
  | cons part parts ih =>
    have happend : ∀ ds es : List α, solid space (ds ++ es) = solid space ds ++ solid space es := fun ds es => List.filter_append ..
    rw [List.map_cons, List.flatten_cons, happend, ← ih]
    by_cases hempty : trim space part = []
    · rw [List.filter_cons_of_neg (by simp [hempty]), ← solid_trim part, hempty]
      rfl
    · rw [List.filter_cons_of_pos (by simp [hempty]), List.flatten_cons, happend, solid_trim]

/-! ## Words -/

theorem solid_append (cs ds : List α) : solid space (cs ++ ds) = solid space cs ++ solid space ds := List.filter_append ..

theorem solid_eq_nil {cs : List α} : solid space cs = [] ↔ blank space cs = true := by
  rw [solid, List.filter_eq_nil_iff, blank, List.all_eq_true]
  simp

/-- The words are all that is no space. -/
theorem flatten_words (cs : List α) : (words space cs).flatten = solid space cs := by
  rw [words, List.flatten_filter_ne_nil]
  induction cs with
  | nil => rfl
  | cons c cs ih =>
    rw [List.splitOnP_cons_eq_if_modifyHead, solid]
    cases hc : space c with
    | true =>
      rw [if_pos rfl, List.flatten_cons, List.nil_append, ih, List.filter_cons_of_neg (by simp [hc])]
      rfl
    | false =>
      obtain ⟨word, rest, hsplit⟩ := List.exists_cons_of_ne_nil (List.splitOnP_ne_nil space cs)
      rw [hsplit] at ih ⊢
      rw [if_neg Bool.false_ne_true, List.filter_cons_of_pos (by simp [hc])]
      exact congrArg (c :: ·) ih

theorem solid_intercalate {sep : α} (hsep : space sep = true) (parts : List (List α)) :
    solid space ([sep].intercalate parts) = solid space parts.flatten := by
  induction parts with
  | nil => rfl
  | cons part parts ih =>
    cases parts with
    | nil => simp
    | cons next parts =>
      have hsolid : solid space [sep] = [] := solid_eq_nil.2 (by simp [blank, hsep])
      rw [List.intercalate_cons_cons, List.flatten_cons, solid_append, solid_append, solid_append, ih, hsolid, List.append_nil]

/-- Words that are joined keep all that is no space. -/
theorem solid_join_words {sep : α} (hsep : space sep = true) (cs : List α) :
    solid space ([sep].intercalate (words space cs)) = solid space cs := by
  rw [solid_intercalate hsep, flatten_words]
  unfold solid
  rw [List.filter_filter]
  exact List.filter_congr fun c _ => Bool.and_self _

/-- There are no words in a text of spaces only. -/
theorem join_words_eq_nil {sep : α} (hsep : space sep = true) (cs : List α) :
    [sep].intercalate (words space cs) = [] ↔ blank space cs = true := by
  rw [← solid_eq_nil]
  constructor
  · intro h
    rw [← solid_join_words hsep, h]
    rfl
  · intro h
    rw [← flatten_words, List.flatten_eq_nil_iff] at h
    have hwords : words space cs = [] := by
      refine List.eq_nil_iff_forall_not_mem.2 fun word hword => ?_
      have hne := (List.mem_filter.1 hword).2
      rw [h word hword] at hne
      simp at hne
    rw [hwords]
    rfl

section

variable [DecidableEq α] {nl : α}

/-! ## Lines -/

theorem splitOn_cons_split (c : α) (cs : List α) : ∃ first rest, cs.splitOn nl = first :: rest ∧
    (c :: cs).splitOn nl = if c = nl then [] :: first :: rest else (c :: first) :: rest := by
  obtain ⟨first, rest, hsplit⟩ := List.exists_cons_of_ne_nil (List.splitOn_ne_nil nl cs)
  refine ⟨first, rest, hsplit, ?_⟩
  rw [List.splitOn_cons_eq_if_modifyHead, hsplit]
  by_cases hc : c = nl
  · simp [hc]
  · simp [hc]

/-- No line has a newline. -/
theorem not_mem_splitOn {cs line : List α} (h : line ∈ cs.splitOn nl) : nl ∉ line := by
  induction cs generalizing line with
  | nil =>
    rw [List.splitOn_nil, List.mem_singleton] at h
    rw [h]
    exact List.not_mem_nil
  | cons c cs ih =>
    obtain ⟨first, rest, hsplit, hcons⟩ := @splitOn_cons_split α _ nl c cs
    rw [hcons] at h
    rw [hsplit] at ih
    split at h
    · rcases List.mem_cons.1 h with rfl | h
      · exact List.not_mem_nil
      · exact ih h
    · rename_i hc
      rcases List.mem_cons.1 h with rfl | h
      · rw [List.mem_cons, not_or]
        exact ⟨fun he => hc he.symm, ih (List.mem_cons_self ..)⟩
      · exact ih (List.mem_cons_of_mem _ h)

theorem splitOn_snoc (c : α) (cs : List α) : ∃ init last, cs.splitOn nl = init ++ [last] ∧
    (cs ++ [c]).splitOn nl = if c = nl then init ++ [last, []] else init ++ [last ++ [c]] := by
  induction cs with
  | nil =>
    obtain ⟨first, rest, hsplit, hcons⟩ := @splitOn_cons_split α _ nl c []
    rw [List.splitOn_nil] at hsplit
    cases hsplit
    exact ⟨[], [], List.splitOn_nil .., hcons⟩
  | cons d cs ih =>
    obtain ⟨init, last, hsplit, hsnoc⟩ := ih
    obtain ⟨first, rest, hfirst, hcons⟩ := @splitOn_cons_split α _ nl d cs
    obtain ⟨first', rest', hfirst', hcons'⟩ := @splitOn_cons_split α _ nl d (cs ++ [c])
    rw [List.cons_append, hcons, hcons']
    by_cases hd : d = nl
    · rw [if_pos hd, if_pos hd, ← hfirst, ← hfirst', hsplit, hsnoc]
      refine ⟨[] :: init, last, rfl, ?_⟩
      split <;> rfl
    · rw [if_neg hd, if_neg hd]
      rw [hsplit] at hfirst
      rw [hsnoc] at hfirst'
      cases init with
      | nil =>
        obtain ⟨rfl, rfl⟩ := List.cons.inj hfirst
        refine ⟨[], d :: last, rfl, ?_⟩
        split at hfirst' <;> (obtain ⟨rfl, rfl⟩ := List.cons.inj hfirst'; simp_all)
      | cons i init =>
        obtain ⟨rfl, rfl⟩ := List.cons.inj hfirst
        refine ⟨(d :: i) :: init, last, rfl, ?_⟩
        split at hfirst' <;> (obtain ⟨rfl, rfl⟩ := List.cons.inj hfirst'; simp_all)

theorem lines_cons {c : α} (hc : space c = true) (cs : List α) : lines space nl (c :: cs) = lines space nl cs := by
  obtain ⟨first, rest, hsplit, hcons⟩ := @splitOn_cons_split α _ nl c cs
  unfold lines
  rw [hsplit, hcons]
  split
  · rfl
  · have hblank : blank space (c :: first) = blank space first := by simp [blank, hc]
    rw [List.filter_cons, List.filter_cons, hblank]
    split
    · rw [List.map_cons, List.map_cons, trim_cons hc]
    · rfl

theorem lines_snoc {c : α} (hc : space c = true) (cs : List α) : lines space nl (cs ++ [c]) = lines space nl cs := by
  obtain ⟨init, last, hsplit, hsnoc⟩ := @splitOn_snoc α _ nl c cs
  unfold lines
  rw [hsplit, hsnoc]
  split
  · rw [List.filter_append, List.filter_append]
    congr 2
  · have hblank : blank space (last ++ [c]) = blank space last := by simp [blank, hc]
    rw [List.filter_append, List.filter_append, List.map_append, List.map_append, List.filter_cons, List.filter_cons, hblank]
    congr 1
    split
    · rw [List.map_cons, List.map_cons, trim_snoc hc]
    · rfl

/-- A text that is stripped has the same lines. -/
theorem lines_trim (cs : List α) : lines space nl (trim space cs) = lines space nl cs := by
  have hfront : ∀ ds : List α, lines space nl (ds.dropWhile space) = lines space nl ds := by
    intro ds
    induction ds with
    | nil => rfl
    | cons d ds ih =>
      rw [List.dropWhile_cons]
      cases hd : space d with
      | true => rw [if_pos rfl, ih, lines_cons hd]
      | false => rw [if_neg Bool.false_ne_true]
  have hback : ∀ ds : List α, lines space nl (ds.dropWhile space).reverse = lines space nl ds.reverse := by
    intro ds
    induction ds with
    | nil => rfl
    | cons d ds ih =>
      rw [List.dropWhile_cons]
      cases hd : space d with
      | true => rw [if_pos rfl, ih, List.reverse_cons, lines_snoc hd]
      | false => rw [if_neg Bool.false_ne_true]
  unfold trim
  rw [hback, List.reverse_reverse, hfront]

/-- Lines that are joined are read back. -/
theorem lines_intercalate {ls : List (List α)} (h : ∀ line ∈ ls, nl ∉ line) :
    lines space nl ([nl].intercalate ls) = (ls.filter fun line => !blank space line).map (trim space) := by
  cases ls with
  | nil => rfl
  | cons line ls =>
    unfold lines
    rw [List.splitOn_intercalate nl h (List.cons_ne_nil _ _)]

end

/-! ## Splits -/

theorem solid_splitFrom {m : Option α → List α → Option Nat} (hm : MatchesSpace space m) (prev : Option α) (skip : Nat)
    (part cs : List α) (hskip : ∀ c ∈ cs.take skip, space c = true) :
    solid space (splitFrom m prev skip part cs).flatten = solid space (part.reverse ++ cs) := by
  have happend : ∀ ds es : List α, solid space (ds ++ es) = solid space ds ++ solid space es := fun ds es => List.filter_append ..
  have hcons : ∀ {c : α} (ds : List α), space c = true → solid space (c :: ds) = solid space ds := by
    intro c ds hc
    rw [solid, solid, List.filter_cons_of_neg (by simp [hc])]
  induction cs generalizing prev skip part with
  | nil => cases skip <;> simp [splitFrom]
  | cons c cs ih =>
    cases skip with
    | succ skip =>
      have hc : space c = true := hskip c (List.mem_cons_self ..)
      rw [splitFrom, ih _ _ _ fun d hd => hskip d (List.mem_cons_of_mem _ hd), happend, happend, hcons cs hc]
    | zero =>
      rw [splitFrom]
      split
      · rename_i n hmatch
        have hall := hm _ _ _ hmatch
        rw [List.flatten_cons, happend, ih _ _ _ fun d hd => hall d (List.mem_cons_of_mem _ hd), happend part.reverse,
          hcons cs (hall c (List.mem_cons_self ..))]
        rfl
      · rw [ih _ _ _ (by simp)]
        simp

/-- A split at spaces keeps all that is no space, in order. -/
theorem solid_splitAll {m : Option α → List α → Option Nat} (hm : MatchesSpace space m) (cs : List α) :
    solid space (splitAll m cs).flatten = solid space cs := solid_splitFrom hm none 0 [] cs (by simp)

end Umd.Lib.Splits
