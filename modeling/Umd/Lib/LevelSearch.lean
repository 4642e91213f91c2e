import Mathlib
/-!
# Level-by-level search over keyed edges

A search that goes from a start node along edges, level by level, and takes an edge once for
each key. An edge may lead nowhere; it then names its own source. If edges of one key name
one node, every key is taken, at the least level that has an edge of it (`levels_spec`).
-/

namespace Umd.Lib.LevelSearch

variable {ρ ν κ : Type} [DecidableEq κ]

/-- Between two levels: the keys taken, the nodes to go on from, and the edges taken with their levels. -/
structure Level (ρ ν κ : Type) where
  seen : List κ := []
  frontier : List ν
  found : List (ρ × ℕ) := []

section

variable (src : ρ → ν) (dst : ρ → Option ν) (key : ρ → κ)

/-- An edge is taken, unless one of its key was. -/
def visit (d : ℕ) (s : Level ρ ν κ) (r : ρ) : Level ρ ν κ :=
  if key r ∈ s.seen then s
  else { seen := key r :: s.seen, frontier := s.frontier ++ (dst r).toList, found := s.found ++ [(r, d)] }

/-- A level, over the edges that leave its nodes. -/
def level (d : ℕ) (s : Level ρ ν κ) (edges : List ρ) : Level ρ ν κ := edges.foldl (visit dst key d) { s with frontier := [] }

/-- So many levels from a node; `answer` lists the edges of a level. -/
def levels (answer : ℕ → List ν → List ρ) (start : ν) : ℕ → Level ρ ν κ
  | 0 => { frontier := [start] }
  | d + 1 =>
    let s := levels answer start d
    level dst key d s (answer d s.frontier)

/-- What is reached in so many steps or fewer. -/
def Reach (rows : List ρ) (start : ν) : ℕ → ν → Prop
  | 0, x => x = start
  | k + 1, x => Reach rows start k x ∨ ∃ r ∈ rows, Reach rows start k (src r) ∧ dst r = some x

/-- The node that an edge names. -/
def named (r : ρ) : ν := (dst r).getD (src r)

/-- Edges of one key name one node, among those that so many levels come to. -/
def KeysName (rows : List ρ) (start : ν) (depth : ℕ) : Prop :=
  ∀ r ∈ rows, ∀ r' ∈ rows, (∃ k < depth, Reach src dst rows start k (src r)) → (∃ k < depth, Reach src dst rows start k (src r')) →
    key r = key r' → named src dst r = named src dst r'

end

variable {src : ρ → ν} {dst : ρ → Option ν} {key : ρ → κ} {rows : List ρ} {start : ν}

theorem Reach.mono {k k' : ℕ} (h : k ≤ k') {x : ν} (hx : Reach src dst rows start k x) : Reach src dst rows start k' x := by
  induction h with
  | refl => exact hx
  | step _ ih => exact .inl ih

/-- What one level adds: the first edge of each key that was not taken before. -/
theorem level_new (dst : ρ → Option ν) (key : ρ → κ) (d : ℕ) (s : Level ρ ν κ) (edges : List ρ) : ∃ new : List ρ,
    (level dst key d s edges).found = s.found ++ new.map (·, d) ∧ (level dst key d s edges).frontier = new.flatMap (dst · |>.toList) ∧
      (∀ x, x ∈ (level dst key d s edges).seen ↔ x ∈ s.seen ∨ ∃ r ∈ new, key r = x) ∧
      (∀ r ∈ new, r ∈ edges ∧ key r ∉ s.seen) ∧ (new.map key).Nodup ∧ ∀ r ∈ edges, key r ∈ s.seen ∨ ∃ r' ∈ new, key r' = key r := by
  unfold level
  suffices hfold : ∀ s : Level ρ ν κ, ∃ new : List ρ, (edges.foldl (visit dst key d) s).found = s.found ++ new.map (·, d) ∧
      (edges.foldl (visit dst key d) s).frontier = s.frontier ++ new.flatMap (dst · |>.toList) ∧
      (∀ x, x ∈ (edges.foldl (visit dst key d) s).seen ↔ x ∈ s.seen ∨ ∃ r ∈ new, key r = x) ∧
      (∀ r ∈ new, r ∈ edges ∧ key r ∉ s.seen) ∧ (new.map key).Nodup ∧ ∀ r ∈ edges, key r ∈ s.seen ∨ ∃ r' ∈ new, key r' = key r from
    hfold { s with frontier := [] }
  induction edges with
  | nil => exact fun s => ⟨[], by simp, by simp, by simp, nofun, List.nodup_nil, nofun⟩
  | cons e edges ih =>
    intro s
    rw [List.foldl_cons]
    by_cases he : key e ∈ s.seen
    · have hvisit : visit dst key d s e = s := if_pos he
      obtain ⟨new, hfound, hfrontier, hseen, hnew, hnodup, hall⟩ := ih s
      rw [hvisit]
      refine ⟨new, hfound, hfrontier, hseen, fun r hr => ⟨List.mem_cons_of_mem _ (hnew r hr).1, (hnew r hr).2⟩, hnodup, ?_⟩
      exact List.forall_mem_cons.2 ⟨.inl he, hall⟩
    · have hvisit : visit dst key d s e = ⟨key e :: s.seen, s.frontier ++ (dst e).toList, s.found ++ [(e, d)]⟩ := if_neg he
      obtain ⟨new, hfound, hfrontier, hseen, hnew, hnodup, hall⟩ := ih (visit dst key d s e)
      rw [hvisit] at hfound hfrontier hseen hnew hall ⊢
      refine ⟨e :: new, ?_, ?_, fun x => ?_, ?_, ?_, ?_⟩
      · rw [hfound, List.append_assoc]
        rfl
      · rw [hfrontier, List.append_assoc]
        rfl
      · rw [hseen x, List.mem_cons]
        constructor
        · rintro ((rfl | hx) | ⟨r, hr, rfl⟩)
          · exact .inr ⟨e, List.mem_cons_self .., rfl⟩
          · exact .inl hx
          · exact .inr ⟨r, List.mem_cons_of_mem _ hr, rfl⟩
        · rintro (hx | ⟨r, hr, rfl⟩)
          · exact .inl (.inr hx)
          · rcases List.mem_cons.1 hr with rfl | hr
            · exact .inl (.inl rfl)
            · exact .inr ⟨r, hr, rfl⟩
      · refine List.forall_mem_cons.2 ⟨⟨List.mem_cons_self .., he⟩, fun r hr => ?_⟩
        exact ⟨List.mem_cons_of_mem _ (hnew r hr).1, fun h => (hnew r hr).2 (List.mem_cons_of_mem _ h)⟩
      · rw [List.map_cons, List.nodup_cons]
        refine ⟨fun h => ?_, hnodup⟩
        obtain ⟨r, hr, hsame⟩ := List.mem_map.1 h
        exact (hnew r hr).2 (hsame ▸ List.mem_cons_self ..)
      · refine List.forall_mem_cons.2 ⟨.inr ⟨e, List.mem_cons_self .., rfl⟩, fun r hr => ?_⟩
        rcases hall r hr with hold | ⟨r', hr', hsame⟩
        · rcases List.mem_cons.1 hold with he | hold
          · exact .inr ⟨e, List.mem_cons_self .., he.symm⟩
          · exact .inl hold
        · exact .inr ⟨r', List.mem_cons_of_mem _ hr', hsame⟩

variable {answer : ℕ → List ν → List ρ}

/-- No key is taken twice. -/
theorem levels_nodup (d : ℕ) : ((levels dst key answer start d).found.map fun x => key x.1).Nodup ∧
    ∀ x ∈ (levels dst key answer start d).found, key x.1 ∈ (levels dst key answer start d).seen := by
  induction d with
  | zero => exact ⟨List.nodup_nil, nofun⟩
  | succ d ih =>
    rw [levels]
    obtain ⟨new, hfound, -, hseen, hnew, hnodup, -⟩ := level_new dst key d (levels dst key answer start d)
      (answer d (levels dst key answer start d).frontier)
    rw [hfound]
    constructor
    · rw [List.map_append, List.map_map, List.nodup_append]
      refine ⟨ih.1, hnodup, fun a ha b hb he => ?_⟩
      obtain ⟨x, hx, rfl⟩ := List.mem_map.1 ha
      obtain ⟨r, hr, rfl⟩ := List.mem_map.1 hb
      exact (hnew r hr).2 (by have hold := ih.2 x hx; rw [he] at hold; exact hold)
    · intro x hx
      rw [hseen]
      rcases List.mem_append.1 hx with hx | hx
      · exact .inl (ih.2 x hx)
      · obtain ⟨r, hr, rfl⟩ := List.mem_map.1 hx
        exact .inr ⟨r, hr, rfl⟩

/-- The levels at which an edge of a key can be taken. -/
def keyLevels (src : ρ → ν) (dst : ρ → Option ν) (key : ρ → κ) (rows : List ρ) (start : ν) (x : κ) : Set ℕ :=
  {k | ∃ r ∈ rows, Reach src dst rows start k (src r) ∧ key r = x}

/-- After so many levels: the keys within reach are taken, each at its least level; the nodes to go on from are reached, and those
that are reached now and not before are among them. -/
structure Searched (src : ρ → ν) (dst : ρ → Option ν) (key : ρ → κ) (rows : List ρ) (start : ν) (d : ℕ) (s : Level ρ ν κ) : Prop where
  seen : ∀ x, x ∈ s.seen ↔ ∃ k < d, k ∈ keyLevels src dst key rows start x
  reached : ∀ x ∈ s.frontier, Reach src dst rows start d x
  fresh : ∀ x, Reach src dst rows start d x → (∀ k < d, ¬ Reach src dst rows start k x) → x ∈ s.frontier
  found : ∀ x k, (∃ r, (r, k) ∈ s.found ∧ key r = x) ↔ k < d ∧ IsLeast (keyLevels src dst key rows start x) k
  edges : ∀ x ∈ s.found, x.1 ∈ rows ∧ x.2 < d ∧ Reach src dst rows start x.2 (src x.1)

omit [DecidableEq κ] in
theorem searched_start : Searched src dst key rows start 0 { frontier := [start] } := by
  refine ⟨fun x => ?_, fun x hx => List.mem_singleton.1 hx, fun x hx _ => List.mem_singleton.2 hx, fun x k => ?_, nofun⟩
  · exact iff_of_false List.not_mem_nil fun ⟨k, hk, _⟩ => Nat.not_lt_zero k hk
  · exact iff_of_false (fun ⟨_, hr, _⟩ => List.not_mem_nil hr) fun h => Nat.not_lt_zero k h.1

theorem Searched.level {d depth : ℕ} {s : Level ρ ν κ} (h : Searched src dst key rows start d s)
    (hkeys : KeysName src dst key rows start depth) (hd : d < depth) {edges : List ρ}
    (hedges : ∀ r, r ∈ edges ↔ r ∈ rows ∧ src r ∈ s.frontier) :
    Searched src dst key rows start (d + 1) (LevelSearch.level dst key d s edges) := by
  obtain ⟨new, hfound, hfrontier, hseen, hnew, -, hall⟩ := level_new dst key d s edges
  have hmono : ∀ {k x}, k ∈ keyLevels src dst key rows start x → ∀ {k'}, k ≤ k' → k' ∈ keyLevels src dst key rows start x := by
    rintro k x ⟨r, hr, hreach, hx⟩ k' hle
    exact ⟨r, hr, hreach.mono hle, hx⟩
  -- an edge that was not within reach before leaves a node of the frontier
  have hedge : ∀ r ∈ rows, Reach src dst rows start d (src r) → (∀ k < d, ¬ Reach src dst rows start k (src r)) → r ∈ edges :=
    fun r hr hreach hbefore => (hedges r).2 ⟨hr, h.fresh _ hreach hbefore⟩
  have hnewLevel : ∀ r ∈ new, d ∈ keyLevels src dst key rows start (key r) ∧ ∀ k < d, k ∉ keyLevels src dst key rows start (key r) := by
    intro r hr
    obtain ⟨hmem, hunseen⟩ := hnew r hr
    obtain ⟨hrow, hfront⟩ := (hedges r).1 hmem
    refine ⟨⟨r, hrow, h.reached _ hfront, rfl⟩, fun k hk hlevel => hunseen ((h.seen _).2 ⟨k, hk, hlevel⟩)⟩
  have htaken : ∀ x, d ∈ keyLevels src dst key rows start x → (∀ k < d, k ∉ keyLevels src dst key rows start x) →
      ∃ r ∈ new, key r = x := by
    rintro x ⟨r, hr, hreach, rfl⟩ hbefore
    have hmem := hedge r hr hreach fun k hk hk' => hbefore k hk ⟨r, hr, hk', rfl⟩
    rcases hall r hmem with hold | hnow
    · obtain ⟨k, hk, hlevel⟩ := (h.seen _).1 hold
      exact absurd hlevel (hbefore k hk)
    · exact hnow
  refine ⟨fun x => ?_, fun x hx => ?_, fun x hx hbefore => ?_, fun x k => ?_, fun x hx => ?_⟩
  · rw [hseen]
    constructor
    · rintro (hold | ⟨r, hr, rfl⟩)
      · obtain ⟨k, hk, hlevel⟩ := (h.seen x).1 hold
        exact ⟨k, by omega, hlevel⟩
      · exact ⟨d, by omega, (hnewLevel r hr).1⟩
    · rintro ⟨k, hk, hlevel⟩
      by_cases hold : ∃ k < d, k ∈ keyLevels src dst key rows start x
      · exact .inl ((h.seen x).2 hold)
      · refine .inr (htaken x (hmono hlevel (by omega)) fun k' hk' hlevel' => hold ⟨k', hk', hlevel'⟩)
  · rw [hfrontier] at hx
    obtain ⟨r, hr, hx⟩ := List.mem_flatMap.1 hx
    obtain ⟨hrow, hfront⟩ := (hedges r).1 (hnew r hr).1
    exact .inr ⟨r, hrow, h.reached _ hfront, Option.mem_toList.1 hx⟩
  · rcases hx with hx | ⟨r, hr, hreach, hx⟩
    · exact absurd hx (hbefore d (by omega))
    · have hsrc : ∀ k < d, ¬ Reach src dst rows start k (src r) :=
        fun k hk hk' => hbefore (k + 1) (by omega) (.inr ⟨r, hr, hk', hx⟩)
      -- an edge of its key leads to the node itself, or leaves it, which is not reached yet
      have hname : ∀ r' ∈ rows, ∀ k ≤ d, Reach src dst rows start k (src r') → key r' = key r → dst r' = some x ∨
          Reach src dst rows start k x := by
        intro r' hr' k hk hreach' hsame
        have hnamed := hkeys r' hr' r hr ⟨k, by omega, hreach'⟩ ⟨d, hd, hreach⟩ hsame
        unfold named at hnamed
        rw [hx, Option.getD_some] at hnamed
        cases hdst : dst r' with
        | none =>
          rw [hdst, Option.getD_none] at hnamed
          exact .inr (hnamed ▸ hreach')
        | some y =>
          rw [hdst, Option.getD_some] at hnamed
          exact .inl (congrArg some hnamed)
      obtain ⟨r', hr', hsame⟩ := htaken (key r) ⟨r, hr, hreach, rfl⟩ fun k hk ⟨r', hr', hreach', hsame⟩ => by
        rcases hname r' hr' k (by omega) hreach' hsame with hlead | hown
        · exact hbefore (k + 1) (by omega) (.inr ⟨r', hr', hreach', hlead⟩)
        · exact hbefore k (by omega) hown
      obtain ⟨hrow', hfront'⟩ := (hedges r').1 (hnew r' hr').1
      rcases hname r' hrow' d le_rfl (h.reached _ hfront') hsame with hlead | hown
      · rw [hfrontier]
        exact List.mem_flatMap.2 ⟨r', hr', Option.mem_toList.2 hlead⟩
      · exact absurd hown (hbefore d (by omega))
  · rw [hfound]
    constructor
    · rintro ⟨r, hr, rfl⟩
      rcases List.mem_append.1 hr with hr | hr
      · obtain ⟨hk, hleast⟩ := (h.found _ k).1 ⟨r, hr, rfl⟩
        exact ⟨by omega, hleast⟩
      · obtain ⟨r', hr', he⟩ := List.mem_map.1 hr
        cases he
        obtain ⟨hlevel, hbefore⟩ := hnewLevel r hr'
        exact ⟨by omega, hlevel, fun k hk => not_lt.1 fun hlt => hbefore k hlt hk⟩
    · rintro ⟨hk, hleast⟩
      by_cases hold : k < d
      · obtain ⟨r, hr, hx⟩ := (h.found x k).2 ⟨hold, hleast⟩
        exact ⟨r, List.mem_append_left _ hr, hx⟩
      · obtain rfl : k = d := by omega
        obtain ⟨r, hr, hx⟩ := htaken x hleast.1 fun k' hk' hlevel => absurd (hleast.2 hlevel) (by omega)
        exact ⟨r, List.mem_append_right _ (List.mem_map_of_mem hr), hx⟩
  · rw [hfound] at hx
    rcases List.mem_append.1 hx with hx | hx
    · obtain ⟨hrow, hlt, hreach⟩ := h.edges x hx
      exact ⟨hrow, by omega, hreach⟩
    · obtain ⟨r, hr, rfl⟩ := List.mem_map.1 hx
      obtain ⟨hrow, hfront⟩ := (hedges r).1 (hnew r hr).1
      exact ⟨hrow, Nat.lt_succ_self d, h.reached _ hfront⟩

/-- **Every key within reach is taken, at its least level**, if edges of one key name one node. -/
theorem levels_spec {depth : ℕ} (hkeys : KeysName src dst key rows start depth)
    (hanswer : ∀ d < depth, ∀ r, r ∈ answer d (levels dst key answer start d).frontier ↔
      r ∈ rows ∧ src r ∈ (levels dst key answer start d).frontier) {d : ℕ} (hd : d ≤ depth) :
    Searched src dst key rows start d (levels dst key answer start d) := by
  induction d with
  | zero => exact searched_start
  | succ d ih =>
    rw [levels]
    exact (ih (by omega)).level hkeys (by omega) (hanswer d (by omega))

end Umd.Lib.LevelSearch
