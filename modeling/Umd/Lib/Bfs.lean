import Mathlib
/-!
# Breadth-first search

`bfs next n queue seen` takes at most `n` nodes off the queue and lists those it
had not seen, in the order they come off. With enough turns the nodes listed
are those reachable from the queue (`mem_bfs_iff`), each once (`bfs_nodup`), and
the loop over the queue has ended by itself (`worklist_ends`).
-/

namespace Umd.Lib

variable {α : Type} [DecidableEq α]

def bfs (next : α → List α) : Nat → List α → List α → List α
  | 0, _, _ => []
  | _ + 1, [], _ => []
  | n + 1, node :: queue, seen =>
    if node ∈ seen then bfs next n queue seen
    else node :: bfs next n (queue ++ (next node).filter (· ∉ node :: seen)) (node :: seen)

/-- The turns a search can still take: what waits in the queue, and what the nodes of `dom` not yet seen can add to it. -/
def turns (next : α → List α) (dom queue seen : List α) : Nat :=
  queue.length + ((dom.filter (· ∉ seen)).map fun a => (next a).length).sum

variable {next : α → List α}

theorem bfs_fresh {n : Nat} {queue seen : List α} : ∀ x ∈ bfs next n queue seen, x ∉ seen := by
  induction n generalizing queue seen with
  | zero => intro x hx; cases hx
  | succ n ih =>
    cases queue with
    | nil => intro x hx; cases hx
    | cons node queue =>
      intro x hx
      rw [bfs] at hx
      split at hx
      · exact ih x hx
      · rename_i hnode
        rcases List.mem_cons.1 hx with rfl | hx
        · exact hnode
        · exact fun hs => ih x hx (List.mem_cons_of_mem _ hs)

/-- No node is listed twice. -/
theorem bfs_nodup {n : Nat} {queue seen : List α} : (bfs next n queue seen).Nodup := by
  induction n generalizing queue seen with
  | zero => exact List.nodup_nil
  | succ n ih =>
    cases queue with
    | nil => exact List.nodup_nil
    | cons node queue =>
      rw [bfs]
      split
      · exact ih
      · exact List.nodup_cons.2 ⟨fun hx => bfs_fresh node hx (by simp), ih⟩

/-- Every node listed is reached from the queue. -/
theorem bfs_sound {n : Nat} {queue seen : List α} :
    ∀ x ∈ bfs next n queue seen, ∃ q ∈ queue, Relation.ReflTransGen (fun a b => b ∈ next a) q x := by
  induction n generalizing queue seen with
  | zero => intro x hx; cases hx
  | succ n ih =>
    cases queue with
    | nil => intro x hx; cases hx
    | cons node queue =>
      intro x hx
      rw [bfs] at hx
      split at hx
      · obtain ⟨q, hq, hr⟩ := ih x hx
        exact ⟨q, List.mem_cons_of_mem _ hq, hr⟩
      · rcases List.mem_cons.1 hx with rfl | hx
        · exact ⟨x, by simp, .refl⟩
        · obtain ⟨q, hq, hr⟩ := ih x hx
          rcases List.mem_append.1 hq with hq | hq
          · exact ⟨q, List.mem_cons_of_mem _ hq, hr⟩
          · exact ⟨node, by simp, .head (List.mem_filter.1 hq).1 hr⟩

/-- A node that comes off the queue for the first time takes its own turns out of the sum. -/
theorem turns_seen {dom queue seen : List α} {node : α} (hdom : ∀ a ∉ dom, next a = []) (hnode : node ∉ seen) :
    turns next dom (queue ++ (next node).filter (· ∉ node :: seen)) (node :: seen) <
      turns next dom (node :: queue) seen := by
  have hsum : (next node).length + ((dom.filter (· ∉ node :: seen)).map fun a => (next a).length).sum ≤
      ((dom.filter (· ∉ seen)).map fun a => (next a).length).sum := by
    by_cases hd : node ∈ dom
    · clear hdom
      induction dom with
      | nil => cases hd
      | cons a dom ih =>
        have hsub : ((dom.filter (· ∉ node :: seen)).map fun a => (next a).length).sum ≤
            ((dom.filter (· ∉ seen)).map fun a => (next a).length).sum :=
          List.Sublist.sum_le_sum ((List.monotone_filter_right dom fun b hb => by
            simp only [List.mem_cons, not_or, decide_eq_true_eq] at hb ⊢
            exact hb.2).map _) fun _ _ => Nat.zero_le _
        by_cases ha : a = node
        · subst ha
          simp only [List.mem_cons, true_or, not_true_eq_false, decide_false, hnode, not_false_eq_true, decide_true,
            List.filter_cons_of_pos, List.filter_cons, Bool.false_eq_true, if_false, List.map_cons, List.sum_cons]
          simp only [List.mem_cons] at hsub
          omega
        · have ih := ih ((List.mem_cons.1 hd).resolve_left (Ne.symm ha))
          by_cases hs : a ∈ seen
          · simpa [List.filter_cons, hs] using ih
          · simp only [List.mem_cons, List.filter_cons, ha, hs, or_self, not_false_eq_true, decide_true, if_true,
              List.map_cons, List.sum_cons] at ih ⊢
            omega
    · rw [hdom node hd, List.length_nil, Nat.zero_add]
      exact List.Sublist.sum_le_sum ((List.monotone_filter_right dom fun b hb => by
        simp only [List.mem_cons, not_or, decide_eq_true_eq] at hb ⊢
        exact hb.2).map _) fun _ _ => Nat.zero_le _
  have hlen := List.length_filter_le (fun b => decide (b ∉ node :: seen)) (next node)
  simp only [turns, List.length_append, List.length_cons]
  omega

/-- With enough turns every node of the queue and every child of a seen node ends up seen. -/
theorem bfs_closed {dom : List α} (hdom : ∀ a ∉ dom, next a = []) {n : Nat} {queue seen : List α}
    (hn : turns next dom queue seen ≤ n) (hseen : ∀ a ∈ seen, ∀ b ∈ next a, b ∈ seen ∨ b ∈ queue) :
    (∀ q ∈ queue, q ∈ seen ∨ q ∈ bfs next n queue seen) ∧
      ∀ a, a ∈ seen ∨ a ∈ bfs next n queue seen → ∀ b ∈ next a, b ∈ seen ∨ b ∈ bfs next n queue seen := by
  induction n generalizing queue seen with
  | zero =>
    have hq : queue = [] := List.length_eq_zero_iff.1 (by unfold turns at hn; omega)
    subst hq
    refine ⟨fun q hq => absurd hq List.not_mem_nil, fun a ha b hb => ?_⟩
    rcases ha with ha | ha
    · exact .inl ((hseen a ha b hb).resolve_right List.not_mem_nil)
    · cases ha
  | succ n ih =>
    cases queue with
    | nil =>
      refine ⟨fun q hq => absurd hq List.not_mem_nil, fun a ha b hb => ?_⟩
      rcases ha with ha | ha
      · exact .inl ((hseen a ha b hb).resolve_right List.not_mem_nil)
      · cases ha
    | cons node queue =>
      rw [bfs]
      split
      · -- a node seen before: its children are seen or wait already
        rename_i hnode
        have ih := @ih queue seen (by simp only [turns, List.length_cons] at hn ⊢; omega) fun a ha b hb => by
          rcases hseen a ha b hb with h | h
          · exact .inl h
          · rcases List.mem_cons.1 h with rfl | h
            · exact .inl hnode
            · exact .inr h
        refine ⟨fun q hq => ?_, ih.2⟩
        rcases List.mem_cons.1 hq with rfl | hq
        · exact .inl hnode
        · exact ih.1 q hq
      · rename_i hnode
        have ih := @ih (queue ++ (next node).filter (· ∉ node :: seen)) (node :: seen)
          (by have := @turns_seen _ _ _ _ queue _ _ hdom hnode; omega) fun a ha b hb => by
            by_cases hb' : b ∈ node :: seen
            · exact .inl hb'
            · rcases List.mem_cons.1 ha with rfl | ha
              · exact .inr (List.mem_append_right _ (List.mem_filter.2 ⟨hb, by simpa using hb'⟩))
              · rcases hseen a ha b hb with h | h
                · exact absurd (List.mem_cons_of_mem _ h) hb'
                · exact .inr (List.mem_append_left _ ((List.mem_cons.1 h).resolve_left fun he => hb' (by simp [he])))
        have move : ∀ a, a ∈ node :: seen ∨ a ∈ bfs next n (queue ++ (next node).filter (· ∉ node :: seen)) (node :: seen) ↔
            a ∈ seen ∨ a ∈ node :: bfs next n (queue ++ (next node).filter (· ∉ node :: seen)) (node :: seen) := fun a => by
          simp only [List.mem_cons]
          tauto
        refine ⟨fun q hq => ?_, fun a ha b hb => (move b).1 (ih.2 a ((move a).2 ha) b hb)⟩
        rcases List.mem_cons.1 hq with rfl | hq
        · exact .inr (by simp)
        · exact (move q).1 (ih.1 q (List.mem_append_left _ hq))

/-- The search lists what is reached from the queue. -/
theorem mem_bfs_iff {dom : List α} (hdom : ∀ a ∉ dom, next a = []) {n : Nat} {queue : List α}
    (hn : turns next dom queue [] ≤ n) (x : α) :
    x ∈ bfs next n queue [] ↔ ∃ q ∈ queue, Relation.ReflTransGen (fun a b => b ∈ next a) q x := by
  constructor
  · exact bfs_sound x
  rintro ⟨q, hq, hr⟩
  obtain ⟨hqueue, hclosed⟩ := bfs_closed hdom hn (by simp)
  have hx : x ∈ [] ∨ x ∈ bfs next n queue [] := by
    induction hr with
    | refl => exact hqueue q hq
    | tail _ hb ih => exact hclosed _ ih _ hb
  exact hx.resolve_left List.not_mem_nil

/-! ## The loop without a bound -/

/-- What a loop over a queue holds between two turns. -/
structure Worklist (α : Type) where
  queue : List α
  seen : List α := []
  listed : List α := []

/-- One turn of the loop; over an empty queue it has ended. -/
def Worklist.step (next : α → List α) (w : Worklist α) : Worklist α :=
  match w.queue with
  | [] => w
  | node :: queue =>
    if node ∈ w.seen then { w with queue := queue }
    else { queue := queue ++ (next node).filter (· ∉ node :: w.seen), seen := node :: w.seen, listed := w.listed ++ [node] }

/-- What the turns list is what the search lists. -/
theorem worklist_listed (n : Nat) (w : Worklist α) :
    ((Worklist.step next)^[n] w).listed = w.listed ++ bfs next n w.queue w.seen := by
  induction n generalizing w with
  | zero => exact (List.append_nil _).symm
  | succ n ih =>
    rw [Function.iterate_succ_apply, ih]
    obtain ⟨queue, seen, listed⟩ := w
    cases queue with
    | nil =>
      cases n with
      | zero => rfl
      | succ n => rfl
    | cons node queue =>
      rw [Worklist.step, bfs]
      dsimp only
      split
      · rfl
      · simp

/-- **The queue runs empty.** -/
theorem worklist_ends {dom : List α} (hdom : ∀ a ∉ dom, next a = []) {n : Nat} {w : Worklist α}
    (hn : turns next dom w.queue w.seen ≤ n) : ((Worklist.step next)^[n] w).queue = [] := by
  induction n generalizing w with
  | zero =>
    have hlen : w.queue.length = 0 := by
      unfold turns at hn
      omega
    exact List.length_eq_zero_iff.1 hlen
  | succ n ih =>
    obtain ⟨queue, seen, listed⟩ := w
    cases queue with
    | nil =>
      have hended : Worklist.step next ⟨[], seen, listed⟩ = ⟨[], seen, listed⟩ := rfl
      rw [Function.iterate_fixed hended]
    | cons node queue =>
      rw [Function.iterate_succ_apply]
      apply ih
      rw [Worklist.step]
      dsimp only at hn ⊢
      split
      · simp only [turns, List.length_cons] at hn ⊢
        omega
      · rename_i hnode
        have hless := @turns_seen _ _ _ _ queue _ _ hdom hnode
        dsimp only
        omega

end Umd.Lib
