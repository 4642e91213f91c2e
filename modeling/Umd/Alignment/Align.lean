import Mathlib
/-!
# Cross-source alignment

The aligners of `align.py`. A plan is built from a path of index pairs: an
elastic DTW path, or the pairs of units that share a scene. Floats are a type
with the operations the code uses; no law is asked of them, so a comparison may
come out as it does for a NaN.
-/

namespace Umd.Alignment

/-- Python's floats. -/
class PyFloat (F : Type) where
  lit : ℚ → F
  add : F → F → F
  sub : F → F → F
  mul : F → F → F
  div : F → F → F
  abs : F → F
  sqrt : F → F
  round : F → Nat → F
  lt : F → F → Bool
  eq : F → F → Bool

open PyFloat

inductive ParallelityAssumption where
  | parallelMonotone
  | adaptation
  | temporal
  | nonparallel
deriving DecidableEq

def ParallelityAssumption.value : ParallelityAssumption → String
  | .parallelMonotone => "PARALLEL_MONOTONE"
  | .adaptation => "ADAPTATION"
  | .temporal => "TEMPORAL"
  | .nonparallel => "NONPARALLEL"

inductive AlignmentType where
  | adaptation
  | temporal
deriving DecidableEq

inductive AlignMethod where
  | vecalign
  | timecodeDtw
  | sceneOrderDtw
  | embedding
  | signalFusion
deriving DecidableEq

def AlignMethod.value : AlignMethod → String
  | .vecalign => "vecalign"
  | .timecodeDtw => "timecode-dtw"
  | .sceneOrderDtw => "scene-order-dtw"
  | .embedding => "embedding"
  | .signalFusion => "signal-fusion"

inductive AlignError where
  | indexError
deriving DecidableEq

structure AlignableUnit (F : Type) where
  ref : String
  start : F
  stop : F
  scene : String := ""
  embedding : List F := []

structure AlignedPair (F : Type) where
  leftRef : String
  rightRef : String
  alignmentType : AlignmentType
  method : AlignMethod
  assumptions : List (String × String)
  confidence : F
  metadata : List (String × String) := []

structure AlignmentPlan (F : Type) where
  pairs : List (AlignedPair F)
  /-- Right units with no left match. -/
  omissions : List String
  /-- Left units with no right match. -/
  additions : List String
  reordering : Bool
  contradictions : List (String × String)
  parallelityAssumption : ParallelityAssumption

section
variable {F : Type} [PyFloat F]

/-! ## Distances -/

/-- `min(a, b)`. -/
def pyMin (a b : F) : F := if lt b a then b else a

/-- `max(a, b)`. -/
def pyMax (a b : F) : F := if lt a b then b else a

def AlignableUnit.mid (u : AlignableUnit F) : F := div (add u.start u.stop) (lit 2)

/-- `sum(xs)`. -/
def pySum (xs : List F) : F := xs.foldl add (lit 0)

/-- `_norm`. -/
def norm (v : List F) : F := sqrt (pySum (v.map fun x => mul x x))

def cosineSimilarity (a b : List F) : F :=
  if a.isEmpty || b.isEmpty then lit 0
  else if eq (norm a) (lit 0) || eq (norm b) (lit 0) then lit 0
  else div (pySum (List.zipWith mul a b)) (mul (norm a) (norm b))

def embeddingDistance (a b : AlignableUnit F) : F := sub (lit 1) (cosineSimilarity a.embedding b.embedding)

def timecodeDistance (a b : AlignableUnit F) : F := abs (sub a.mid b.mid)

/-! ## Elastic DTW -/

/-- `d[i][j]`. -/
def cell (d : List (List F)) (i j : Nat) : Except AlignError F :=
  match d[i]?.bind (·[j]?) with
  | some x => .ok x
  | none => .error .indexError

/-- `cost[i][j]`. -/
def cost (d : List (List F)) : Nat → Nat → Except AlignError F
  | 0, 0 => .ok (lit 0)
  | i + 1, 0 => do return add (← cost d i 0) (← cell d i 0)
  | 0, j + 1 => do return add (← cost d 0 j) (← cell d 0 j)
  | i + 1, j + 1 => do
    return add (← cell d i j) (pyMin (pyMin (← cost d i j) (← cost d i (j + 1))) (← cost d (i + 1) j))
termination_by i j => i + j

/-- The way back from a cell to the corner, in front of the path so far. -/
def walk (d : List (List F)) : Nat → Nat → List (Nat × Nat) → Except AlignError (List (Nat × Nat))
  | 0, 0, path => .ok path
  | i + 1, 0, path => walk d i 0 ((i, 0) :: path)
  | 0, j + 1, path => walk d 0 j ((0, j) :: path)
  | i + 1, j + 1, path => do
    let diagonal ← cost d i j
    let up ← cost d i (j + 1)
    let side ← cost d (i + 1) j
    let next := pyMin (pyMin diagonal up) side
    if eq next diagonal then walk d i j ((i, j) :: path)
    else if eq next up then walk d i (j + 1) ((i, j) :: path)
    else walk d (i + 1) j ((i, j) :: path)
termination_by i j => i + j

/-- `dtw_path`: the borders of the table are filled in first, then the rest, then the path is read off. -/
def dtwPath (left right : List (AlignableUnit F)) (distance : AlignableUnit F → AlignableUnit F → F) :
    Except AlignError (List (Nat × Nat)) := do
  let d := left.map fun l => right.map fun r => distance l r
  let _ ← cost d left.length 0
  let _ ← cost d 0 right.length
  let _ ← cost d left.length right.length
  walk d left.length right.length []

/-! ## Plans -/

/-- `int(text)` of ASCII digits; underscores may stand between digits. -/
def pyInt (cs : List Char) : Option Int :=
  let blank (c : Char) : Bool := c = ' ' || c = '\t' || c = '\n' || c = '\r' || c = '\x0b' || c = '\x0c'
  let cs := ((cs.dropWhile blank).reverse.dropWhile blank).reverse
  let rec digits : Bool → Nat → List Char → Option Nat
    | after, n, [] => if after then some n else none
    | after, n, c :: cs =>
      if c.isDigit then digits true (10 * n + (c.toNat - 48)) cs
      else if c = '_' && after then digits false n cs else none
  match cs with
  | '-' :: cs => (digits false 0 cs).map fun n => -(n : Int)
  | '+' :: cs => (digits false 0 cs).map fun n => (n : Int)
  | cs => (digits false 0 cs).map fun n => (n : Int)

/-- `_seq`: the number after the last colon. -/
def seqOf (ref : String) : Option Int :=
  let tail := (ref.toList.reverse.dropWhile fun c => c = ']' || c = '\x7d').reverse
  if ':' ∈ tail then pyInt (tail.reverse.takeWhile (· ≠ ':')).reverse else none

/-- Two pairs whose numbers run against each other. -/
def crosses (p q : AlignedPair F) : Bool :=
  match seqOf p.leftRef, seqOf q.leftRef, seqOf p.rightRef, seqOf q.rightRef with
  | some a, some b, some c, some d => decide (a < b) != decide (c < d)
  | _, _, _, _ => false

/-- `_detect_reordering`. -/
def detectReordering : List (AlignedPair F) → Bool
  | [] => false
  | p :: ps => ps.any (crosses p) || detectReordering ps

/-- `_pair_confidence`. -/
def pairConfidence (a b : AlignableUnit F) (base : F) (method : AlignMethod) : F :=
  let sim := if a.embedding.isEmpty || b.embedding.isEmpty then lit 0 else cosineSimilarity a.embedding b.embedding
  let conf := add base (mul (lit (2 / 5)) sim)
  let conf := if method = .timecodeDtw then
      let span := mul (pyMax (abs (sub a.start b.start)) (abs (sub a.stop b.stop))) (lit (1 / 100))
      add conf (mul (pyMax (lit 0) (sub (lit 1) span)) (lit (3 / 10)))
    else conf
  round (pyMin (lit (99 / 100)) (pyMax (lit (1 / 20)) conf)) 4

/-- `xs[i]`. -/
def unitAt (units : List (AlignableUnit F)) (i : Nat) : Except AlignError (AlignableUnit F) :=
  match units[i]? with
  | some u => .ok u
  | none => .error .indexError

section
variable (left right : List (AlignableUnit F)) (method : AlignMethod) (alignmentType : AlignmentType)
  (assumption : ParallelityAssumption) (confidence threshold : F)

/-- The pair of two units. -/
def pairOf (l r : AlignableUnit F) : AlignedPair F where
  leftRef := l.ref
  rightRef := r.ref
  alignmentType := alignmentType
  method := method
  assumptions := [("method", method.value), ("parallelity_assumption", assumption.value)]
  confidence := pairConfidence l r confidence method
  metadata := if lt (cosineSimilarity l.embedding r.embedding) threshold && !l.embedding.isEmpty then
      [("contradiction", "embedding_dissimilarity")] else []

/-- The refs of the units whose indices are not used. -/
def unused (units : List (AlignableUnit F)) (used : List Nat) : List String :=
  (units.zipIdx.filter fun u => u.2 ∉ used).map (·.1.ref)

def buildPlan (path : List (Nat × Nat)) : Except AlignError (AlignmentPlan F) := do
  let pairs ← path.mapM fun (li, rj) => do
    return pairOf method alignmentType assumption confidence threshold (← unitAt left li) (← unitAt right rj)
  return {
    pairs := pairs
    omissions := unused right (path.map (·.2))
    additions := unused left (path.map (·.1))
    reordering := detectReordering pairs
    contradictions := (pairs.filter fun p => p.metadata.any (·.1 = "contradiction")).map fun p => (p.leftRef, p.rightRef)
    parallelityAssumption := assumption }

end

/-! ## The aligners -/

section
variable (left right : List (AlignableUnit F)) (assumption : ParallelityAssumption) (confidence : F)

def alignTimecode : Except AlignError (AlignmentPlan F) := do
  buildPlan left right .timecodeDtw .temporal assumption confidence (lit 0) (← dtwPath left right timecodeDistance)

/-- The index pairs of units that share a scene. -/
def scenePath : List (Nat × Nat) :=
  left.zipIdx.flatMap fun l => (right.zipIdx.filter fun r => l.1.scene = r.1.scene).map fun r => (l.2, r.2)

def alignSceneOrder : Except AlignError (AlignmentPlan F) :=
  buildPlan left right .sceneOrderDtw .adaptation assumption confidence (lit 0) (scenePath left right)

/-- `align_embeddings`, with its default threshold 0.35. -/
def alignEmbeddings : Except AlignError (AlignmentPlan F) := do
  buildPlan left right .embedding .adaptation assumption confidence (lit (7 / 20)) (← dtwPath left right embeddingDistance)

def alignMonotoneParallel : Except AlignError (AlignmentPlan F) := do
  buildPlan left right .timecodeDtw .temporal .parallelMonotone confidence (lit 0) (← dtwPath left right timecodeDistance)

def alignManyToMany (method : AlignMethod) : Except AlignError (AlignmentPlan F) :=
  if assumption = .parallelMonotone then alignMonotoneParallel left right confidence
  else if method = .sceneOrderDtw then alignSceneOrder left right assumption confidence
  else if method = .embedding then alignEmbeddings left right assumption confidence
  else alignTimecode left right assumption confidence

end

/-! ## What a path covers -/

variable {d : List (List F)} {n m : Nat}

/-- A table of `n` rows of `m` distances. -/
def IsTable (d : List (List F)) (n m : Nat) : Prop := d.length = n ∧ ∀ row ∈ d, row.length = m

omit [PyFloat F] in
theorem cell_ok (h : IsTable d n m) {i j : Nat} (hi : i < n) (hj : j < m) : ∃ x, cell d i j = .ok x := by
  obtain ⟨hlen, hrows⟩ := h
  have hrow : d[i]? = some d[i] := List.getElem?_eq_getElem (hlen ▸ hi)
  have hwidth := hrows d[i] (List.getElem_mem _)
  have hcell : d[i][j]? = some d[i][j] := List.getElem?_eq_getElem (hwidth ▸ hj)
  unfold cell
  rw [hrow, Option.bind_some, hcell]
  exact ⟨_, rfl⟩

omit [PyFloat F] in
/-- Beside a table with no rows or no columns there is no cell. -/
theorem cell_error (h : IsTable d n m) (i j : Nat) (hnone : n = 0 ∨ m = 0) : cell d i j = .error .indexError := by
  unfold cell
  cases hrow : d[i]? with
  | none => rfl
  | some row =>
    have hmem := List.mem_of_getElem? hrow
    rcases hnone with hn | hm
    · rw [List.length_eq_zero_iff.1 (h.1.trans hn)] at hmem
      cases hmem
    · rw [List.length_eq_zero_iff.1 ((h.2 row hmem).trans hm)]
      rfl

theorem cost_ok (h : IsTable d n m) (hn : 0 < n) (hm : 0 < m) : ∀ i j, i ≤ n → j ≤ m → ∃ x, cost d i j = .ok x := by
  intro i j
  fun_induction cost d i j with
  | case1 => exact fun _ _ => ⟨_, rfl⟩
  | case2 i ih =>
    intro hi hj
    obtain ⟨x, hx⟩ := ih (by omega) hj
    obtain ⟨y, hy⟩ := cell_ok h (show i < n by omega) hm
    rw [hx, hy]
    exact ⟨_, rfl⟩
  | case3 j ih =>
    intro hi hj
    obtain ⟨x, hx⟩ := ih hi (by omega)
    obtain ⟨y, hy⟩ := cell_ok h hn (show j < m by omega)
    rw [hx, hy]
    exact ⟨_, rfl⟩
  | case4 i j ih₁ ih₂ ih₃ =>
    intro hi hj
    obtain ⟨x, hx⟩ := ih₁ (by omega) (by omega)
    obtain ⟨y, hy⟩ := ih₂ (by omega) hj
    obtain ⟨z, hz⟩ := ih₃ hi (by omega)
    obtain ⟨w, hw⟩ := cell_ok h (show i < n by omega) (show j < m by omega)
    rw [hx, hy, hz, hw]
    exact ⟨_, rfl⟩

/-- Without rows or without columns the borders beyond the corner cannot be filled in. -/
theorem border_error (h : IsTable d n m) (hnone : n = 0 ∨ m = 0) (k : Nat) :
    cost d (k + 1) 0 = .error .indexError ∧ cost d 0 (k + 1) = .error .indexError := by
  constructor
  · rw [cost, cell_error h k 0 hnone]
    cases cost d k 0 with
    | error e => cases e; rfl
    | ok x => rfl
  · rw [cost, cell_error h 0 k hnone]
    cases cost d 0 k with
    | error e => cases e; rfl
    | ok x => rfl

/-- Every index on each side is in the path, and none beyond. -/
structure Covers (n m : Nat) (path : List (Nat × Nat)) : Prop where
  left : ∀ i < n, ∃ j, (i, j) ∈ path
  right : ∀ j < m, ∃ i, (i, j) ∈ path
  within : ∀ p ∈ path, p.1 < n ∧ p.2 < m

/-- The way back ends, goes through every row and column up to its cell, and keeps the path so far. -/
theorem walk_covers (h : IsTable d n m) (hn : 0 < n) (hm : 0 < m) : ∀ i j path, i ≤ n → j ≤ m →
    ∃ whole, walk d i j path = .ok whole ∧ path ⊆ whole ∧ (∀ a < i, ∃ b, (a, b) ∈ whole) ∧ (∀ b < j, ∃ a, (a, b) ∈ whole) ∧
      ∀ p ∈ whole, p ∈ path ∨ p.1 < n ∧ p.2 < m := by
  -- one more pair in front of the path, and then the way back from where it leads
  have hstep : ∀ {i j i' j' a b : Nat} {path whole : List (Nat × Nat)}, a < n → b < m → (∀ x < i, x < i' ∨ x = a) →
      (∀ y < j, y < j' ∨ y = b) → (a, b) :: path ⊆ whole → (∀ x < i', ∃ y, (x, y) ∈ whole) → (∀ y < j', ∃ x, (x, y) ∈ whole) →
      (∀ p ∈ whole, p ∈ (a, b) :: path ∨ p.1 < n ∧ p.2 < m) →
      path ⊆ whole ∧ (∀ x < i, ∃ y, (x, y) ∈ whole) ∧ (∀ y < j, ∃ x, (x, y) ∈ whole) ∧
        ∀ p ∈ whole, p ∈ path ∨ p.1 < n ∧ p.2 < m := by
    intro i j i' j' a b path whole ha hb hi hj hsub hleft hright hin
    have hab : (a, b) ∈ whole := hsub (List.mem_cons_self ..)
    refine ⟨fun p hp => hsub (List.mem_cons_of_mem _ hp), fun x hx => ?_, fun y hy => ?_, fun p hp => ?_⟩
    · rcases hi x hx with hx | rfl
      · exact hleft x hx
      · exact ⟨b, hab⟩
    · rcases hj y hy with hy | rfl
      · exact hright y hy
      · exact ⟨a, hab⟩
    · rcases hin p hp with hp | hp
      · rcases List.mem_cons.1 hp with rfl | hp
        · exact .inr ⟨ha, hb⟩
        · exact .inl hp
      · exact .inr hp
  intro i j path
  fun_induction walk d i j path with
  | case1 path => exact fun _ _ => ⟨path, rfl, fun _ hp => hp, by omega, by omega, fun _ hp => .inl hp⟩
  | case2 i path ih =>
    intro hi hj
    obtain ⟨whole, hw, hsub, hl, hr, hin⟩ := ih (by omega) hj
    exact ⟨whole, hw, hstep (by omega) hm (by omega) (by omega) hsub hl hr hin⟩
  | case3 j path ih =>
    intro hi hj
    obtain ⟨whole, hw, hsub, hl, hr, hin⟩ := ih hi (by omega)
    exact ⟨whole, hw, hstep hn (by omega) (by omega) (by omega) hsub hl hr hin⟩
  | case4 i j path ih₁ ih₂ ih₃ =>
    intro hi hj
    obtain ⟨diagonal, hd⟩ := cost_ok h hn hm i j (by omega) (by omega)
    obtain ⟨up, hu⟩ := cost_ok h hn hm i (j + 1) (by omega) hj
    obtain ⟨side, hs⟩ := cost_ok h hn hm (i + 1) j hi (by omega)
    simp only [hd, hu, hs, bind, Except.bind]
    split
    · obtain ⟨whole, hw, hsub, hl, hr, hin⟩ := ih₁ (by omega) (by omega)
      exact ⟨whole, hw, hstep (by omega) (by omega) (by omega) (by omega) hsub hl hr hin⟩
    · split
      · obtain ⟨whole, hw, hsub, hl, hr, hin⟩ := ih₂ (by omega) hj
        exact ⟨whole, hw, hstep (by omega) (by omega) (by omega) (by omega) hsub hl hr hin⟩
      · obtain ⟨whole, hw, hsub, hl, hr, hin⟩ := ih₃ hi (by omega)
        exact ⟨whole, hw, hstep (by omega) (by omega) (by omega) (by omega) hsub hl hr hin⟩

end

end Umd.Alignment
