import Mathlib
/-!
# Paging by offset

A client asks for the page at each multiple of the limit. Pages of one answer hold it
(`walk_window`). Where each page is cut from an answer of its own, in any order of the
rows, they hold every row once if and only if one page has room for all of them
(`returnsOnce_unordered_iff`).
-/

namespace Umd.Lib

variable {α β : Type}

/-- The page of an answer at the `k`-th multiple of the limit. -/
def window (limit k : ℕ) (answer : List α) : List α := (answer.drop (k * limit)).take limit

/-- The first pages, one after the other. -/
def walk (page : ℕ → List α) (n : ℕ) : List α := (List.range n).flatMap page

theorem walk_succ (page : ℕ → List α) (n : ℕ) : walk page (n + 1) = walk page n ++ page n := by
  rw [walk, List.range_succ, List.flatMap_append, List.flatMap_singleton]
  rfl

theorem mem_walk {page : ℕ → List α} {n : ℕ} {x : α} : x ∈ walk page n ↔ ∃ k < n, x ∈ page k := by
  simp [walk, List.mem_flatMap]

theorem walk_congr {page page' : ℕ → List α} (h : ∀ k, page k = page' k) (n : ℕ) : walk page n = walk page' n := by
  rw [funext h]

/-- From some page on, the pages hold every row, each once. -/
def ReturnsOnce (page : ℕ → List α) (rows : List α) : Prop := ∃ n, ∀ m ≥ n, (walk page m).Perm rows

/-- From some page on, the pages are the rows in order. -/
def ReturnsInOrder (page : ℕ → List α) (rows : List α) : Prop := ∃ n, ∀ m ≥ n, walk page m = rows

theorem walk_window (limit : ℕ) (answer : List α) (n : ℕ) : walk (fun k => window limit k answer) n = answer.take (n * limit) := by
  induction n with
  | zero => simp [walk]
  | succ n ih =>
    rw [walk_succ, ih, Nat.succ_mul, List.take_add]
    rfl

theorem returnsInOrder_window {limit : ℕ} (hlimit : 1 ≤ limit) (answer : List α) :
    ReturnsInOrder (fun k => window limit k answer) answer := by
  refine ⟨answer.length, fun m hm => ?_⟩
  rw [walk_window]
  apply List.take_of_length_le
  calc answer.length ≤ m := hm
    _ ≤ m * limit := Nat.le_mul_of_pos_right m hlimit

theorem map_window (f : α → β) (limit k : ℕ) (answer : List α) : window limit k (answer.map f) = (window limit k answer).map f := by
  rw [window, window, List.map_take, List.map_drop]

/-- Rows that fit on a page are all on the first one. -/
theorem window_zero {limit : ℕ} {answer : List α} (h : answer.length ≤ limit) : window limit 0 answer = answer := by
  rw [window, Nat.zero_mul, List.drop_zero, List.take_of_length_le h]

theorem window_later {limit k : ℕ} {answer : List α} (h : answer.length ≤ limit) : window limit (k + 1) answer = [] := by
  rw [window, List.drop_eq_nil_of_le, List.take_nil]
  rw [Nat.succ_mul]
  omega

/-- The rows in an order that has the first one where the second page begins. -/
def turned (limit : ℕ) (rows : List α) : List α := rows.rotate (rows.length - limit)

theorem turned_perm (limit : ℕ) (rows : List α) : (turned limit rows).Perm rows := List.rotate_perm ..

theorem head_mem_turned {limit : ℕ} {r : α} {rows : List α} (hlimit : 1 ≤ limit) (h : limit < (r :: rows).length) :
    r ∈ window limit 1 (turned limit (r :: rows)) := by
  obtain ⟨d, hd⟩ := Nat.exists_eq_add_of_lt h
  have hsub : (r :: rows).length - limit = d + 1 := by omega
  have hdrop : ((r :: rows).drop (d + 1)).length = 1 * limit := by
    rw [List.length_drop]
    omega
  unfold window turned
  rw [hsub, List.rotate_eq_drop_append_take (by omega), ← hdrop, List.drop_left, List.take_succ_cons]
  obtain ⟨l, rfl⟩ := Nat.exists_eq_add_of_le' hlimit
  rw [List.take_succ_cons]
  exact List.mem_cons_self ..

/-- Where every page is cut from an answer in any order, the pages hold every row once if and only if all fit on one. -/
theorem returnsOnce_unordered_iff (f : α → β) {limit : ℕ} {rows : List α} (hnodup : (rows.map f).Nodup) :
    (∀ answers : ℕ → List α, (∀ k, (answers k).Perm rows) → ReturnsOnce (fun k => (window limit k (answers k)).map f) (rows.map f)) ↔
      rows.length ≤ limit := by
  constructor
  · intro h
    by_contra hlong
    rw [not_le] at hlong
    obtain ⟨r, rest, rfl⟩ := List.exists_cons_of_length_pos (Nat.zero_lt_of_lt hlong)
    obtain ⟨n, hn⟩ := h (fun k => if k = 1 then turned limit (r :: rest) else r :: rest) fun k => by
      split
      · exact turned_perm ..
      · exact .refl _
    have hperm := hn (n + 2) (by omega)
    cases limit with
    | zero =>
      -- pages without rows
      obtain ⟨k, -, hk⟩ := mem_walk.1 (hperm.mem_iff.2 (List.mem_map_of_mem (List.mem_cons_self ..)))
      simp [window] at hk
    | succ l =>
      -- the first row is on both of the first two pages
      have hwalk := hperm.nodup_iff.2 hnodup
      have hsplit : walk (fun k => (window (l + 1) k (if k = 1 then turned (l + 1) (r :: rest) else r :: rest)).map f) (n + 2) =
          (window (l + 1) 0 (r :: rest)).map f ++ ((window (l + 1) 1 (turned (l + 1) (r :: rest))).map f ++
            (List.range n).flatMap fun k => (window (l + 1) (k + 2) (if k + 2 = 1 then turned (l + 1) (r :: rest) else r :: rest)).map f) := by
        rw [walk, List.range_succ_eq_map, List.flatMap_cons, List.range_succ_eq_map, List.map_cons, List.flatMap_cons, List.map_map,
          List.flatMap_map]
        rfl
      rw [hsplit] at hwalk
      refine (List.nodup_append.1 hwalk).2.2 (f r) ?_ (f r) ?_ rfl
      · exact List.mem_map_of_mem (by simp [window])
      · exact List.mem_append_left _ (List.mem_map_of_mem (head_mem_turned (by omega) hlong))
  · intro hfit answers hanswers
    refine ⟨1, fun m hm => ?_⟩
    obtain ⟨m, rfl⟩ := Nat.exists_eq_add_of_le' hm
    have hlength : ∀ k, (answers k).length ≤ limit := fun k => (hanswers k).length_eq ▸ hfit
    have hrest : (List.range m).flatMap (fun k => (window limit (k + 1) (answers (k + 1))).map f) = [] := by
      rw [List.flatMap_eq_nil_iff]
      intro k _
      rw [window_later (hlength (k + 1)), List.map_nil]
    have hwalk : walk (fun k => (window limit k (answers k)).map f) (m + 1) = (answers 0).map f := by
      rw [walk, List.range_succ_eq_map, List.flatMap_cons, List.flatMap_map, window_zero (hlength 0)]
      dsimp only [Nat.succ_eq_add_one]
      rw [hrest, List.append_nil]
    rw [hwalk]
    exact (hanswers 0).map f

end Umd.Lib
