import Umd.Lib.Patterns
/-!
# POSIX paths as texts

`posixpath.normpath` and `splitext` on texts over any type of characters with a
separator and a dot, and where a path leads from a directory. A normalised
relative path that does not begin with a parent step has none (`normpath_relative`).
-/

namespace Umd.Lib.PosixPath

variable {α : Type} [DecidableEq α] (slash dot : α)

/-- `path.split("/")`. -/
def components (path : List α) : List (List α) := path.splitOn slash

/-- One component in `normpath`, after those that are kept. -/
def keep (absolute : Bool) (kept : List (List α)) (comp : List α) : List (List α) :=
  if comp = [] ∨ comp = [dot] then kept
  else if comp ≠ [dot, dot] ∨ (absolute = false ∧ kept = []) ∨ kept.getLast? = some [dot, dot] then kept ++ [comp]
  else kept.dropLast

/-- Two initial slashes stay two, more are one. -/
def initialSlashes : List α → Nat
  | a :: b :: c :: _ => if a = slash then if b = slash ∧ c ≠ slash then 2 else 1 else 0
  | [a, b] => if a = slash then if b = slash then 2 else 1 else 0
  | [a] => if a = slash then 1 else 0
  | [] => 0

/-- The components that `normpath` keeps. -/
def normComponents (path : List α) : List (List α) :=
  (components slash path).foldl (keep dot (initialSlashes slash path ≠ 0)) []

/-- `posixpath.normpath`. -/
def normpath (path : List α) : List α :=
  let whole := List.replicate (initialSlashes slash path) slash ++ [slash].intercalate (normComponents slash dot path)
  if path = [] ∨ whole = [] then [dot] else whole

/-- The suffix `posixpath.splitext` splits off: from the last dot of the last component, unless only dots are before it. -/
def suffix (path : List α) : List α :=
  let name := ((components slash path).getLast?.getD []).reverse
  let stem := (name.dropWhile (· ≠ dot)).drop 1
  if stem.all (· = dot) then [] else dot :: (name.takeWhile (· ≠ dot)).reverse

/-- A step from a directory, which is the names on the way to it. -/
def enter (dir : List (List α)) (comp : List α) : List (List α) :=
  if comp = [] ∨ comp = [dot] then dir else if comp = [dot, dot] then dir.dropLast else dir ++ [comp]

/-- Where a path leads from a directory. -/
def locate (dir : List (List α)) (path : List α) : List (List α) :=
  (components slash path).foldl (enter dot) (if path.head? = some slash then [] else dir)

/-! ## Normalised relative paths -/

/-- The name of a file: not empty, no dot or parent step, one component. -/
def IsName (comp : List α) : Prop := comp ≠ [] ∧ comp ≠ [dot] ∧ comp ≠ [dot, dot] ∧ slash ∉ comp

variable {slash dot}

omit [DecidableEq α] in
theorem IsName.ne_dots {comp : List α} (h : IsName slash dot comp) : comp ≠ [] ∧ comp ≠ [dot] ∧ comp ≠ [dot, dot] :=
  ⟨h.1, h.2.1, h.2.2.1⟩

theorem mem_components {path comp : List α} (h : comp ∈ components slash path) : slash ∉ comp := by
  unfold components at h
  induction path generalizing comp with
  | nil =>
    rw [List.splitOn_nil, List.mem_singleton] at h
    rw [h]
    exact List.not_mem_nil
  | cons c path ih =>
    rw [List.splitOn_cons_eq_if_modifyHead] at h
    split at h
    · rcases List.mem_cons.1 h with rfl | h
      · exact List.not_mem_nil
      · exact ih h
    · rename_i hc
      obtain ⟨first, rest, hsplit⟩ := List.exists_cons_of_ne_nil (List.splitOn_ne_nil slash path)
      rw [hsplit, List.modifyHead_cons] at h
      rw [hsplit] at ih
      rcases List.mem_cons.1 h with rfl | h
      · rw [List.mem_cons, not_or]
        exact ⟨fun he => hc (by rw [he]; exact BEq.rfl), ih (List.mem_cons_self ..)⟩
      · exact ih (List.mem_cons_of_mem _ h)

/-- What a relative path keeps: parent steps, and then names. -/
theorem keep_shape {comps kept : List (List α)} (hcomps : ∀ c ∈ comps, slash ∉ c)
    (hkept : ∃ k names, kept = List.replicate k [dot, dot] ++ names ∧ ∀ c ∈ names, IsName slash dot c) :
    ∃ k names, comps.foldl (keep dot false) kept = List.replicate k [dot, dot] ++ names ∧ ∀ c ∈ names, IsName slash dot c := by
  induction comps generalizing kept with
  | nil => exact hkept
  | cons comp comps ih =>
    refine ih (fun c hc => hcomps c (List.mem_cons_of_mem _ hc)) ?_
    obtain ⟨k, names, rfl, hnames⟩ := hkept
    unfold keep
    by_cases hskip : comp = [] ∨ comp = [dot]
    · rw [if_pos hskip]
      exact ⟨k, names, rfl, hnames⟩
    · rw [if_neg hskip]
      rw [not_or] at hskip
      by_cases hup : comp = [dot, dot]
      · subst hup
        rcases List.eq_nil_or_concat names with rfl | ⟨init, last, rfl⟩
        · -- no name yet: one more parent step
          rw [List.append_nil, if_pos]
          · exact ⟨k + 1, [], by rw [List.append_nil, List.replicate_succ'], nofun⟩
          · cases k with
            | zero => exact .inr (.inl ⟨rfl, rfl⟩)
            | succ k => exact .inr (.inr (by rw [List.replicate_succ', List.getLast?_concat]))
        · -- the parent step takes the last name back
          have hlast := hnames last (by simp)
          rw [if_neg]
          · refine ⟨k, init, ?_, fun c hc => hnames c (by simp [hc])⟩
            rw [List.concat_eq_append, ← List.append_assoc, List.dropLast_concat]
          · rw [List.concat_eq_append, ← List.append_assoc, List.getLast?_concat]
            simp [hlast.2.2.1]
      · rw [if_pos (.inl hup)]
        refine ⟨k, names ++ [comp], (List.append_assoc ..), fun c hc => ?_⟩
        rcases List.mem_append.1 hc with hc | hc
        · exact hnames c hc
        · rw [List.mem_singleton] at hc
          rw [hc]
          exact ⟨hskip.1, hskip.2, hup, hcomps comp (List.mem_cons_self ..)⟩

theorem initialSlashes_relative {path : List α} (h : path.head? ≠ some slash) : initialSlashes slash path = 0 := by
  unfold initialSlashes
  split
  · rename_i a b c rest
    exact if_neg fun ha => h (by rw [ha]; rfl)
  · rename_i a b
    exact if_neg fun ha => h (by rw [ha]; rfl)
  · rename_i a
    exact if_neg fun ha => h (by rw [ha]; rfl)
  · rfl

/-- A relative path as `normpath` leaves it, if it does not begin with a parent step: the dot, or names. -/
theorem normpath_relative {path : List α} (h : path.head? ≠ some slash)
    (hup : normpath slash dot path ≠ [dot, dot] ∧ ¬ [dot, dot, slash] <+: normpath slash dot path) :
    normpath slash dot path = [dot] ∨
      ∃ names, names ≠ [] ∧ (∀ c ∈ names, IsName slash dot c) ∧ normpath slash dot path = [slash].intercalate names := by
  have hzero := initialSlashes_relative h
  obtain ⟨k, names, hkept, hnames⟩ := @keep_shape α _ slash dot (components slash path) [] (fun c hc => mem_components hc)
    ⟨0, [], rfl, nofun⟩
  have hnorm : normComponents slash dot path = List.replicate k [dot, dot] ++ names := by
    unfold normComponents
    rw [hzero]
    exact hkept
  by_cases hdot : normpath slash dot path = [dot]
  · exact .inl hdot
  · right
    have hpath : normpath slash dot path = [slash].intercalate (List.replicate k [dot, dot] ++ names) := by
      unfold normpath at hdot ⊢
      rw [hzero, hnorm] at hdot ⊢
      dsimp only at hdot ⊢
      rw [List.replicate_zero, List.nil_append] at hdot ⊢
      split at hdot
      · exact absurd rfl hdot
      · rename_i hne
        rw [if_neg hne]
    rw [hpath] at hup ⊢
    cases k with
    | zero =>
      rw [List.replicate_zero, List.nil_append] at hpath ⊢
      refine ⟨names, ?_, hnames, rfl⟩
      rintro rfl
      unfold normpath at hpath
      rw [hzero, hnorm] at hpath
      simp at hpath
    | succ k =>
      -- a parent step in front is what the path may not begin with
      rw [List.replicate_succ, List.cons_append] at hup
      cases hrest : List.replicate k [dot, dot] ++ names with
      | nil =>
        rw [hrest, List.intercalate_singleton] at hup
        exact absurd rfl hup.1
      | cons c rest =>
        rw [hrest, List.intercalate_cons_cons] at hup
        exact absurd ⟨_, rfl⟩ hup.2

/-- Names lead down from any directory, and there are no others in the path. -/
theorem locate_names {names : List (List α)} (hne : names ≠ []) (hnames : ∀ c ∈ names, IsName slash dot c)
    (dir : List (List α)) : components slash ([slash].intercalate names) = names ∧
      ([slash].intercalate names).head? ≠ some slash ∧ locate slash dot dir ([slash].intercalate names) = dir ++ names := by
  have hcomps : components slash ([slash].intercalate names) = names :=
    List.splitOn_intercalate slash (fun c hc => (hnames c hc).2.2.2) hne
  have hhead : ([slash].intercalate names).head? ≠ some slash := by
    obtain ⟨c, rest, rfl⟩ := List.exists_cons_of_ne_nil hne
    obtain ⟨hc, -, -, hslash⟩ := hnames c (List.mem_cons_self ..)
    obtain ⟨x, xs, rfl⟩ := List.exists_cons_of_ne_nil hc
    have hx : x ≠ slash := fun he => hslash (by rw [he]; exact List.mem_cons_self ..)
    cases rest with
    | nil => simpa using hx
    | cons c' rest => rw [List.intercalate_cons_cons]; simpa using hx
  refine ⟨hcomps, hhead, ?_⟩
  unfold locate
  rw [hcomps, if_neg hhead]
  clear hcomps hhead hne
  induction names generalizing dir with
  | nil => rw [List.append_nil]; rfl
  | cons c names ih =>
    obtain ⟨h1, h2, h3⟩ := (hnames c (List.mem_cons_self ..)).ne_dots
    have henter : enter dot dir c = dir ++ [c] := by
      unfold enter
      rw [if_neg (not_or.2 ⟨h1, h2⟩), if_neg h3]
    rw [List.foldl_cons, henter, ih (fun c' hc' => hnames c' (List.mem_cons_of_mem _ hc')), List.append_assoc]
    rfl

/-! ## Absolute paths -/

/-- The text of a place, which is the names on the way to it. -/
def absolute (slash : α) (names : List (List α)) : List α := slash :: [slash].intercalate names

/-- A place below a directory. -/
def Below (dir place : List (List α)) : Prop := dir <+: place ∧ place ≠ dir

/-- A neighbour of a directory whose name begins with the directory's own, or a place below such a neighbour. -/
def Beside (dir place : List (List α)) : Prop :=
  ∃ up last name rest, dir = up ++ [last] ∧ place = up ++ name :: rest ∧ last <+: name ∧ name ≠ last

omit [DecidableEq α] in
theorem not_below_nil {dir : List (List α)} : ¬ Below dir [] :=
  fun h => h.2 (List.prefix_nil.1 h.1).symm

omit [DecidableEq α] in
theorem not_beside_nil {dir : List (List α)} : ¬ Beside dir [] := by
  rintro ⟨up, last, name, rest, -, hplace, -⟩
  simp at hplace

omit [DecidableEq α] in
theorem below_cons {a n : List α} {dir place : List (List α)} : Below (a :: dir) (n :: place) ↔ a = n ∧ Below dir place := by
  unfold Below
  rw [List.cons_prefix_cons]
  constructor
  · rintro ⟨⟨rfl, h⟩, hne⟩
    exact ⟨rfl, h, fun he => hne (by rw [he])⟩
  · rintro ⟨rfl, h, hne⟩
    exact ⟨⟨rfl, h⟩, fun he => hne (List.cons.inj he).2⟩

omit [DecidableEq α] in
theorem beside_one {a n : List α} {place : List (List α)} : Beside [a] (n :: place) ↔ a <+: n ∧ n ≠ a := by
  constructor
  · rintro ⟨up, last, name, rest, hdir, hplace, h⟩
    obtain ⟨rfl, rfl⟩ : up = [] ∧ last = a := by
      cases up with
      | nil => simpa using hdir.symm
      | cons _ up => simp at hdir
    obtain ⟨rfl, -⟩ := List.cons.inj hplace
    exact h
  · intro h
    exact ⟨[], a, n, place, rfl, rfl, h⟩

omit [DecidableEq α] in
theorem beside_cons {a b n : List α} {dir place : List (List α)} :
    Beside (a :: b :: dir) (n :: place) ↔ a = n ∧ Beside (b :: dir) place := by
  constructor
  · rintro ⟨up, last, name, rest, hdir, hplace, h⟩
    cases up with
    | nil => simp at hdir
    | cons c up =>
      rw [List.cons_append] at hdir hplace
      obtain ⟨hac, hdown⟩ := List.cons.inj hdir
      obtain ⟨hnc, hto⟩ := List.cons.inj hplace
      exact ⟨hac.trans hnc.symm, up, last, name, rest, hdown, hto, h⟩
  · rintro ⟨rfl, up, last, name, rest, hdir, hplace, h⟩
    exact ⟨a :: up, last, name, rest, by rw [hdir]; rfl, by rw [hplace]; rfl, h⟩

omit [DecidableEq α] in
theorem Below.not_beside {dir place : List (List α)} (h : Below dir place) : ¬ Beside dir place := by
  rintro ⟨up, last, name, rest, rfl, rfl, -, hname⟩
  obtain ⟨tail, htail⟩ := h.1
  rw [List.append_assoc, List.append_cancel_left_eq] at htail
  exact hname (List.cons.inj htail).1.symm

omit [DecidableEq α] in
/-- A name begins a text of names if and only if it begins the first of them. -/
theorem prefix_intercalate {a n : List α} (ha : slash ∉ a) (place : List (List α)) :
    a <+: [slash].intercalate (n :: place) ↔ a <+: n := by
  cases place with
  | nil => rw [List.intercalate_singleton]
  | cons n' place =>
    rw [List.intercalate_cons_cons, List.append_assoc, List.singleton_append]
    exact ⟨prefix_append_cons ha, fun h => h.trans (List.prefix_append ..)⟩

omit [DecidableEq α] in
/-- One absolute path begins with another: it is the same place, one below it, or one beside it. -/
theorem absolute_prefix_iff {dir place : List (List α)} (hdir : ∀ n ∈ dir, n ≠ [] ∧ slash ∉ n) (hplace : ∀ n ∈ place, slash ∉ n) :
    absolute slash dir <+: absolute slash place ↔ Below dir place ∨ place = dir ∨ Beside dir place := by
  unfold absolute
  rw [List.cons_prefix_cons, and_iff_right rfl]
  induction dir generalizing place with
  | nil =>
    refine iff_of_true ?_ ?_
    · exact List.nil_prefix
    · by_cases h : place = []
      · exact .inr (.inl h)
      · exact .inl ⟨List.nil_prefix, h⟩
  | cons a dir ih =>
    obtain ⟨ha, hslash⟩ := hdir a (List.mem_cons_self ..)
    cases place with
    | nil =>
      refine iff_of_false (fun h => ?_) (by simp [not_below_nil, not_beside_nil])
      have hempty := List.prefix_nil.1 h
      cases dir with
      | nil => exact ha (by simpa using hempty)
      | cons b dir => rw [List.intercalate_cons_cons] at hempty; simp at hempty
    | cons n place =>
      have hn := hplace n (List.mem_cons_self ..)
      cases dir with
      | nil =>
        rw [List.intercalate_singleton, prefix_intercalate hslash, below_cons, beside_one]
        constructor
        · intro h
          by_cases hname : n = a
          · subst hname
            by_cases hrest : place = []
            · exact .inr (.inl (by rw [hrest]))
            · exact .inl ⟨rfl, List.nil_prefix, hrest⟩
          · exact .inr (.inr ⟨h, hname⟩)
        · rintro (⟨rfl, -⟩ | h | ⟨h, -⟩)
          · exact List.prefix_rfl
          · rw [(List.cons.inj h).1]
          · exact h
      | cons b dir =>
        rw [List.intercalate_cons_cons, List.append_assoc, List.singleton_append, below_cons, beside_cons, List.cons.injEq]
        cases place with
        | nil =>
          rw [List.intercalate_singleton]
          refine iff_of_false (fun h => hn ?_) (by simp [not_below_nil, not_beside_nil])
          exact h.subset (by simp)
        | cons n' place =>
          have hrest := @ih (n' :: place) (fun c hc => hdir c (List.mem_cons_of_mem _ hc)) fun c hc => hplace c (List.mem_cons_of_mem _ hc)
          rw [List.intercalate_cons_cons (l := n), List.append_assoc, List.singleton_append]
          constructor
          · rintro ⟨tail, h⟩
            rw [List.append_assoc, List.cons_append] at h
            obtain ⟨rfl, htail⟩ := append_mark_inj hslash hn h
            rcases hrest.1 ⟨tail, htail⟩ with h | h | h
            · exact .inl ⟨rfl, h⟩
            · exact .inr (.inl ⟨rfl, h⟩)
            · exact .inr (.inr ⟨rfl, h⟩)
          · intro h
            have hboth : n = a ∧ (Below (b :: dir) (n' :: place) ∨ n' :: place = b :: dir ∨ Beside (b :: dir) (n' :: place)) := by
              rcases h with ⟨rfl, h⟩ | ⟨rfl, h⟩ | ⟨rfl, h⟩
              · exact ⟨rfl, .inl h⟩
              · exact ⟨rfl, .inr (.inl h)⟩
              · exact ⟨rfl, .inr (.inr h)⟩
            obtain ⟨rfl, hone⟩ := hboth
            obtain ⟨tail, htail⟩ := hrest.2 hone
            exact ⟨tail, by rw [List.append_assoc, List.cons_append, htail]⟩

end Umd.Lib.PosixPath
