import Mathlib.Data.List.Infix
import Mathlib.Logic.Function.Basic
/-!
# Files written one after the other

A file tree says what each place holds; a place is the names on the way to it. A write
makes the directories above its place and then the file. Writes in a row all go through
if and only if their places fit: no place is above another, and the tree that was there
has room for each (`fits_concat_iff`, `Written.write`).
-/

namespace Umd.Lib.FileTree

variable {ν β : Type}

/-- What a place holds. -/
inductive Node (β : Type) where
  | dir
  | file (content : β)
deriving DecidableEq

abbrev Tree (ν β : Type) := List ν → Option (Node β)

/-- A place on the way to another. -/
def Above (q p : List ν) : Prop := q ≠ [] ∧ q <+: p ∧ q ≠ p

/-- The places on the way to a place, the top one first. -/
def parents (p : List ν) : List (List ν) := p.dropLast.inits.tail

section Operations

variable (takes : List ν → Bool)

/-- Makes a directory unless there is one. What may be made is up to the file system. -/
def mkdir [DecidableEq ν] (tree : Tree ν β) (p : List ν) : Tree ν β × Bool :=
  match tree p with
  | some .dir => (tree, true)
  | some (.file _) => (tree, false)
  | none => if takes p then (Function.update tree p (some .dir), true) else (tree, false)

/-- Makes directories in turn, until one fails. -/
def mkdirs [DecidableEq ν] (tree : Tree ν β) : List (List ν) → Tree ν β × Bool
  | [] => (tree, true)
  | p :: ps =>
    match mkdir takes tree p with
    | (tree, true) => mkdirs tree ps
    | (tree, false) => (tree, false)

/-- A file can be opened for writing. -/
def CanOpen (tree : Tree ν β) (p : List ν) : Prop := p ≠ [] ∧ tree p ≠ some .dir ∧ takes p = true

instance [DecidableEq β] (tree : Tree ν β) (p : List ν) : Decidable (CanOpen takes tree p) := inferInstanceAs (Decidable (_ ∧ _ ∧ _))

/-- There is a directory at the place, or one can be made. -/
def Roomy (tree : Tree ν β) (q : List ν) : Prop := tree q = some .dir ∨ tree q = none ∧ takes q = true

/-- Places that can all be written, from the tree that is there. -/
structure Fits (tree : Tree ν β) (ps : List (List ν)) : Prop where
  apart : ∀ p ∈ ps, ∀ p' ∈ ps, ¬ Above p p'
  dirs : ∀ p ∈ ps, ∀ q, Above q p → Roomy takes tree q
  targets : ∀ p ∈ ps, CanOpen takes tree p

end Operations

/-- A tree after directories were made. -/
structure Made (tree : Tree ν β) (ps : List (List ν)) (now : Tree ν β) : Prop where
  dirs : ∀ q ∈ ps, now q = some .dir
  rest : ∀ q, q ∉ ps → now q = tree q

/-- A tree after writes: files at the places, directories above them, and the rest as it was. -/
structure Written (tree : Tree ν β) (ps : List (List ν)) (now : Tree ν β) : Prop where
  files : ∀ p ∈ ps, ∃ content, now p = some (.file content)
  dirs : ∀ q, q ∉ ps → (∃ p ∈ ps, Above q p) → now q = some .dir
  rest : ∀ q, q ∉ ps → (¬ ∃ p ∈ ps, Above q p) → now q = tree q

/-! ## Directories -/

variable {takes : List ν → Bool} {tree now : Tree ν β}

theorem mem_parents {p q : List ν} : q ∈ parents p ↔ Above q p := by
  unfold parents Above
  have htail : ∀ l : List ν, q ∈ l.inits.tail ↔ q ≠ [] ∧ q <+: l := by
    intro l
    cases l with
    | nil => simp
    | cons a l =>
      rw [List.inits_cons, List.tail_cons, List.mem_map]
      constructor
      · rintro ⟨r, hr, rfl⟩
        exact ⟨nofun, List.cons_prefix_cons.2 ⟨rfl, (List.mem_inits _ _).1 hr⟩⟩
      · rintro ⟨hne, hq⟩
        obtain ⟨b, r, rfl⟩ := List.exists_cons_of_ne_nil hne
        obtain ⟨rfl, hr⟩ := List.cons_prefix_cons.1 hq
        exact ⟨r, (List.mem_inits _ _).2 hr, rfl⟩
  rw [htail]
  apply and_congr_right
  intro hne
  rcases List.eq_nil_or_concat p with rfl | ⟨init, last, rfl⟩
  · simp [hne]
  · rw [List.concat_eq_append, List.dropLast_concat, List.prefix_concat_iff]
    constructor
    · intro hq
      have hlen := hq.length_le
      have hshort : q ≠ init ++ [last] := by
        rintro rfl
        rw [List.length_append, List.length_singleton] at hlen
        omega
      exact ⟨.inr hq, hshort⟩
    · rintro ⟨rfl | hq, hne'⟩
      · exact absurd rfl hne'
      · exact hq

/-- Making a directory succeeds if there is room, and then it is there. -/
theorem mkdir_spec [DecidableEq ν] (p : List ν) : ((mkdir takes tree p).2 = true ↔ Roomy takes tree p) ∧
    ((mkdir takes tree p).2 = true → (mkdir takes tree p).1 = Function.update tree p (some .dir)) := by
  unfold mkdir Roomy
  cases htree : tree p with
  | none => cases htakes : takes p <;> simp
  | some node =>
    cases node with
    | dir => exact ⟨by simp, fun _ => (Function.update_eq_self_iff.2 htree.symm).symm⟩
    | file content => simp

theorem roomy_update [DecidableEq ν] {p q : List ν} (hp : Roomy takes tree p) :
    Roomy takes (Function.update tree p (some .dir)) q ↔ Roomy takes tree q := by
  by_cases hq : q = p
  · subst hq
    exact iff_of_true (.inl (Function.update_self ..)) hp
  · unfold Roomy
    rw [Function.update_of_ne hq]

/-- Directories are all made if there is room for each, and nothing else changes. -/
theorem mkdirs_spec [DecidableEq ν] (ps : List (List ν)) (tree : Tree ν β) : ((mkdirs takes tree ps).2 = true ↔ ∀ q ∈ ps, Roomy takes tree q) ∧
    ((mkdirs takes tree ps).2 = true → Made tree ps (mkdirs takes tree ps).1) := by
  induction ps generalizing tree with
  | nil => exact ⟨by simp [mkdirs], fun _ => ⟨nofun, fun _ _ => rfl⟩⟩
  | cons p ps ih =>
    have hone := @mkdir_spec ν β takes tree _ p
    unfold mkdirs
    cases hmk : mkdir takes tree p with
    | mk next ok =>
      rw [hmk] at hone
      cases ok with
      | false =>
        refine ⟨iff_of_false Bool.false_ne_true fun h => ?_, fun h => absurd h Bool.false_ne_true⟩
        exact Bool.false_ne_true (hone.1.2 (h p (List.mem_cons_self ..)))
      | true =>
        have hroom := hone.1.1 rfl
        obtain rfl : next = Function.update tree p (some .dir) := hone.2 rfl
        obtain ⟨hok, hnodes⟩ := ih (Function.update tree p (some .dir))
        dsimp only
        constructor
        · rw [hok, List.forall_mem_cons]
          simp only [roomy_update hroom, hroom, true_and]
        · intro h
          have hmade := hnodes h
          constructor
          · intro q hq
            by_cases hmem : q ∈ ps
            · exact hmade.dirs q hmem
            · obtain rfl : q = p := by simpa [hmem] using hq
              rw [hmade.rest q hmem, Function.update_self]
          · intro q hq
            rw [List.mem_cons, not_or] at hq
            rw [hmade.rest q hq.2, Function.update_of_ne hq.1]

/-! ## Writes in a row -/

theorem Written.nil (tree : Tree ν β) : Written tree [] tree := ⟨nofun, nofun, fun _ _ _ => rfl⟩

theorem Fits.nil (tree : Tree ν β) : Fits takes tree [] := ⟨nofun, nofun, nofun⟩

theorem Fits.mono {ps qs : List (List ν)} (h : Fits takes tree qs) (hsub : ps ⊆ qs) : Fits takes tree ps :=
  ⟨fun a ha b hb => h.apart a (hsub ha) b (hsub hb), fun a ha => h.dirs a (hsub ha), fun a ha => h.targets a (hsub ha)⟩

/-- What the tree shows of a place, after writes. -/
theorem Written.roomy_iff {ps : List (List ν)} (hw : Written tree ps now) (hf : Fits takes tree ps) (q : List ν) :
    Roomy takes now q ↔ q ∉ ps ∧ Roomy takes tree q := by
  by_cases hq : q ∈ ps
  · refine iff_of_false ?_ fun h => h.1 hq
    obtain ⟨content, hfile⟩ := hw.files q hq
    unfold Roomy
    rw [hfile]
    rintro (h | ⟨h, -⟩) <;> cases h
  · rw [and_iff_right hq]
    by_cases habove : ∃ p ∈ ps, Above q p
    · obtain ⟨p, hp, hqp⟩ := habove
      exact iff_of_true (.inl (hw.dirs q hq ⟨p, hp, hqp⟩)) (hf.dirs p hp q hqp)
    · unfold Roomy
      rw [hw.rest q hq habove]

/-- A place can be opened after writes unless one of them is below it. -/
theorem Written.canOpen_iff {ps : List (List ν)} (hw : Written tree ps now) (hf : Fits takes tree ps) (p : List ν) :
    CanOpen takes now p ↔ CanOpen takes tree p ∧ ∀ p' ∈ ps, ¬ Above p p' := by
  by_cases hp : p ∈ ps
  · obtain ⟨content, hfile⟩ := hw.files p hp
    have hcan := hf.targets p hp
    refine iff_of_true ⟨hcan.1, ?_, hcan.2.2⟩ ⟨hcan, hf.apart p hp⟩
    rw [hfile]
    nofun
  · by_cases habove : ∃ p' ∈ ps, Above p p'
    · refine iff_of_false (fun h => h.2.1 (hw.dirs p hp habove)) fun h => ?_
      obtain ⟨p', hp', hbelow⟩ := habove
      exact h.2 p' hp' hbelow
    · have hnone : ∀ p' ∈ ps, ¬ Above p p' := fun p' hp' hbelow => habove ⟨p', hp', hbelow⟩
      unfold CanOpen
      rw [hw.rest p hp habove, and_iff_left hnone]

/-- One more write fits if it can be made in the tree as it is now. -/
theorem fits_concat_iff {ps : List (List ν)} {p : List ν} (hw : Written tree ps now) (hf : Fits takes tree ps) :
    Fits takes tree (ps ++ [p]) ↔ (∀ q ∈ parents p, Roomy takes now q) ∧ CanOpen takes now p := by
  simp only [mem_parents, hw.roomy_iff hf, hw.canOpen_iff hf]
  constructor
  · intro h
    have hp : p ∈ ps ++ [p] := List.mem_append_right _ (List.mem_singleton_self p)
    refine ⟨fun q hq => ⟨fun hmem => ?_, h.dirs p hp q hq⟩, h.targets p hp, fun p' hp' => ?_⟩
    · exact h.apart q (List.mem_append_left _ hmem) p hp hq
    · exact h.apart p hp p' (List.mem_append_left _ hp')
  · rintro ⟨hdirs, hcan, hbelow⟩
    constructor
    · intro a ha b hb
      rw [List.mem_append, List.mem_singleton] at ha hb
      rcases ha with ha | rfl <;> rcases hb with hb | rfl
      · exact hf.apart a ha b hb
      · exact fun hab => (hdirs a hab).1 ha
      · exact hbelow b hb
      · exact fun hab => hab.2.2 rfl
    · intro a ha q hq
      rw [List.mem_append, List.mem_singleton] at ha
      rcases ha with ha | rfl
      · exact hf.dirs a ha q hq
      · exact (hdirs q hq).2
    · intro a ha
      rw [List.mem_append, List.mem_singleton] at ha
      rcases ha with ha | rfl
      · exact hf.targets a ha
      · exact hcan

/-- The tree after one more write, and that the files written at other places keep what they hold. -/
theorem Written.write [DecidableEq ν] {ps : List (List ν)} {p : List ν} {made : Tree ν β} (hw : Written tree ps now)
    (hf : Fits takes tree (ps ++ [p])) (hmade : Made now (parents p) made) (content : β) :
    Written tree (ps ++ [p]) (Function.update made p (some (.file content))) ∧
      ∀ p' ∈ ps, p' ≠ p → Function.update made p (some (.file content)) p' = now p' := by
  have hp : p ∈ ps ++ [p] := List.mem_append_right _ (List.mem_singleton_self p)
  have hkeep : ∀ p' ∈ ps, p' ≠ p → Function.update made p (some (.file content)) p' = now p' := by
    intro p' hp' hne
    rw [Function.update_of_ne hne]
    apply hmade.rest
    exact fun h => hf.apart p' (List.mem_append_left _ hp') p hp (mem_parents.1 h)
  refine ⟨⟨fun a ha => ?_, fun q hq habove => ?_, fun q hq hnone => ?_⟩, hkeep⟩
  · by_cases hap : a = p
    · subst hap
      exact ⟨content, Function.update_self ..⟩
    · have ha' : a ∈ ps := by simpa [hap] using ha
      rw [hkeep a ha' hap]
      exact hw.files a ha'
  · rw [List.mem_append, List.mem_singleton, not_or] at hq
    rw [Function.update_of_ne hq.2]
    by_cases hpar : q ∈ parents p
    · exact hmade.dirs q hpar
    · obtain ⟨a, ha, hqa⟩ := habove
      rw [hmade.rest q hpar]
      rw [List.mem_append, List.mem_singleton] at ha
      rcases ha with ha | rfl
      · exact hw.dirs q hq.1 ⟨a, ha, hqa⟩
      · exact absurd (mem_parents.2 hqa) hpar
  · rw [List.mem_append, List.mem_singleton, not_or] at hq
    rw [Function.update_of_ne hq.2, hmade.rest q]
    · exact hw.rest q hq.1 fun ⟨a, ha, hqa⟩ => hnone ⟨a, List.mem_append_left _ ha, hqa⟩
    · exact fun h => hnone ⟨p, hp, mem_parents.1 h⟩

end Umd.Lib.FileTree
