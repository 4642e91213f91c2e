import Mathlib
/-!
# Flood fills

A flood fill marks a node when it is put into the queue, and visits it when it comes off.
From a node that the marked ones do not lead to, it marks and visits just what that node
reaches (`flood_spec`). A scan that fills from every node not yet marked lists the classes
of what reaches what, each once and in the order of their first nodes (`scan_ordered`).
-/

namespace Umd.Lib

variable {α β : Type} [DecidableEq α]

/-- What a fill holds between two turns. -/
structure Flood (α β : Type) where
  queue : List α
  visited : List α
  acc : β

namespace Flood

/-- A neighbour is marked and put into the queue, unless it was marked before. -/
def mark (s : Flood α β) (b : α) : Flood α β :=
  if b ∈ s.visited then s else { s with queue := s.queue ++ [b], visited := s.visited ++ [b] }

/-- One turn of the loop; over an empty queue it has ended. -/
def step (next : α → List α) (visit : β → α → β) (s : Flood α β) : Flood α β :=
  match s.queue with
  | [] => s
  | a :: queue => (next a).foldl mark { s with queue := queue, acc := visit s.acc a }

end Flood

/-- The fill from a node, with so many turns. -/
def flood (next : α → List α) (visit : β → α → β) (n : Nat) (visited : List α) (a : α) (acc : β) : Flood α β :=
  (Flood.step next visit)^[n] { queue := [a], visited := visited ++ [a], acc := acc }

/-- One node of a scan, over the nodes that are marked and what the fills have given: it is filled from, unless it is
marked or is not to be filled. -/
def scanStep (next : α → List α) (p : α → Bool) (visit : β → α → β) (init : α → β) (n : Nat) (s : List α × List β) (a : α) :
    List α × List β :=
  if a ∈ s.1 ∨ p a = false then s
  else
    let filled := flood next visit n s.1 a (init a)
    (filled.visited, s.2 ++ [filled.acc])

/-! ## One fill -/

section Fill

variable {next : α → List α} {visit : β → α → β}

/-- What the neighbours of one node add: those that were not marked, each once. -/
theorem marks (l : List α) (s : Flood α β) : ∃ new, (l.foldl Flood.mark s).visited = s.visited ++ new ∧
    (l.foldl Flood.mark s).queue = s.queue ++ new ∧ (l.foldl Flood.mark s).acc = s.acc ∧
    (∀ b ∈ new, b ∈ l) ∧ (∀ b ∈ l, b ∈ s.visited ++ new) ∧ (s.visited.Nodup → (s.visited ++ new).Nodup) := by
  induction l generalizing s with
  | nil => exact ⟨[], by simp, by simp, rfl, by simp, by simp, by simp⟩
  | cons b l ih =>
    obtain ⟨new, hvisited, hqueue, hacc, hin, hall, hnodup⟩ := ih (s.mark b)
    rw [List.foldl_cons, hvisited, hqueue, hacc]
    by_cases hb : b ∈ s.visited
    · have hmark : s.mark b = s := if_pos hb
      rw [hmark] at hall hnodup ⊢
      refine ⟨new, rfl, rfl, rfl, fun c hc => List.mem_cons_of_mem _ (hin c hc), fun c hc => ?_, hnodup⟩
      rcases List.mem_cons.1 hc with rfl | hc
      · exact List.mem_append_left _ hb
      · exact hall c hc
    · have hmark : s.mark b = { s with queue := s.queue ++ [b], visited := s.visited ++ [b] } := if_neg hb
      rw [hmark] at hall hnodup ⊢
      dsimp only at hall hnodup ⊢
      refine ⟨b :: new, by simp, by simp, rfl, fun c hc => ?_, fun c hc => ?_, fun hs => ?_⟩
      · rcases List.mem_cons.1 hc with rfl | hc
        · exact List.mem_cons_self ..
        · exact List.mem_cons_of_mem _ (hin c hc)
      · rcases List.mem_cons.1 hc with rfl | hc
        · simp
        · simpa using hall c hc
      · have hfresh : (s.visited ++ [b]).Nodup := by
          refine List.nodup_append.2 ⟨hs, List.nodup_singleton b, fun c hc d hd => ?_⟩
          rw [List.mem_singleton.1 hd]
          exact fun he => hb (he ▸ hc)
        simpa using hnodup hfresh

/-- What holds between two turns of the fill from `a`: the nodes that came off the queue were visited in that order,
they and those that wait are the marked ones besides those before, `a` reaches them, and where they lead is marked. -/
structure Filling (next : α → List α) (visit : β → α → β) (before : List α) (a : α) (acc : β) (s : Flood α β)
    (popped : List α) : Prop where
  visited : s.visited = before ++ popped ++ s.queue
  acc : s.acc = popped.foldl visit acc
  nodup : s.visited.Nodup
  reached : ∀ b ∈ popped ++ s.queue, Relation.ReflTransGen (fun x y => y ∈ next x) a b
  led : ∀ c ∈ popped, ∀ b ∈ next c, b ∈ s.visited
  first : a ∈ popped ++ s.queue

variable {before : List α} {a : α} {acc : β}

omit [DecidableEq α] in
theorem Filling.begin (hbefore : before.Nodup) (ha : a ∉ before) :
    Filling next visit before a acc { queue := [a], visited := before ++ [a], acc := acc } [] where
  visited := by simp
  acc := rfl
  nodup := by
    refine List.nodup_append.2 ⟨hbefore, List.nodup_singleton a, fun c hc d hd => ?_⟩
    rw [List.mem_singleton.1 hd]
    exact fun he => ha (he ▸ hc)
  reached := fun b hb => by
    rw [List.mem_singleton.1 hb]
  led := nofun
  first := by simp

/-- A turn takes one node off the queue. -/
theorem Filling.step {s : Flood α β} {popped queue : List α} {c : α} (h : Filling next visit before a acc s popped)
    (hqueue : s.queue = c :: queue) : Filling next visit before a acc (s.step next visit) (popped ++ [c]) := by
  obtain ⟨new, hvisited, hrest, hacc, hin, hall, hnodup⟩ :=
    marks (next c) { s with queue := queue, acc := visit s.acc c }
  have hstep : s.step next visit = (next c).foldl Flood.mark { s with queue := queue, acc := visit s.acc c } := by
    unfold Flood.step
    rw [hqueue]
  have hc : Relation.ReflTransGen (fun x y => y ∈ next x) a c := h.reached c (by simp [hqueue])
  dsimp only at hvisited hrest hacc hall hnodup
  rw [hstep]
  exact {
    visited := by
      rw [hvisited, hrest, h.visited, hqueue]
      simp
    acc := by
      rw [hacc, h.acc, List.foldl_append]
      rfl
    nodup := by
      rw [hvisited]
      exact hnodup h.nodup
    reached := fun b hb => by
      rw [hrest] at hb
      by_cases hold : b ∈ popped ++ s.queue
      · exact h.reached b hold
      · have hnew : b ∈ new := by
          simp only [hqueue, List.mem_append, List.mem_cons, List.not_mem_nil, or_false] at hold hb
          tauto
        exact hc.tail (hin b hnew)
    led := fun d hd b hb => by
      rw [hvisited]
      rcases List.mem_append.1 hd with hd | hd
      · exact List.mem_append_left _ (h.led d hd b hb)
      · rw [List.mem_singleton.1 hd] at hb
        exact hall b hb
    first := by
      have hfirst := h.first
      rw [hqueue] at hfirst
      rw [hrest]
      simp only [List.mem_append, List.mem_cons, List.not_mem_nil, or_false] at hfirst ⊢
      tauto }

/-- After so many turns the queue is empty, or each turn has taken a node off it. -/
theorem Filling.run (hbefore : before.Nodup) (ha : a ∉ before) (n : Nat) : ∃ popped,
    Filling next visit before a acc (flood next visit n before a acc) popped ∧
      ((flood next visit n before a acc).queue = [] ∨ popped.length = n) := by
  induction n with
  | zero => exact ⟨[], Filling.begin hbefore ha, .inr rfl⟩
  | succ n ih =>
    obtain ⟨popped, hfill, hend⟩ := ih
    have hnext : flood next visit (n + 1) before a acc = (flood next visit n before a acc).step next visit :=
      Function.iterate_succ_apply' ..
    rw [hnext]
    cases hqueue : (flood next visit n before a acc).queue with
    | nil =>
      have hended : (flood next visit n before a acc).step next visit = flood next visit n before a acc := by
        unfold Flood.step
        rw [hqueue]
      rw [hended]
      exact ⟨popped, hfill, .inl hqueue⟩
    | cons c queue =>
      refine ⟨popped ++ [c], hfill.step hqueue, .inr ?_⟩
      rw [List.length_append, hend.resolve_left (by simp [hqueue]), List.length_singleton]

omit [DecidableEq α] in
theorem reached_in {dom : List α} (hdom : ∀ x ∈ dom, ∀ y ∈ next x, y ∈ dom) {a b : α} (ha : a ∈ dom)
    (hb : Relation.ReflTransGen (fun x y => y ∈ next x) a b) : b ∈ dom := by
  induction hb with
  | refl => exact ha
  | tail _ hstep ih => exact hdom _ ih _ hstep

/-- A fill with turns enough for all the nodes marks what its first node reaches, visits it, and ends. -/
theorem flood_spec {dom : List α} (hdom : ∀ x ∈ dom, ∀ y ∈ next x, y ∈ dom) (hbefore : before.Nodup) (ha : a ∉ before)
    (hmem : a ∈ dom) (hback : ∀ x, Relation.ReflTransGen (fun x y => y ∈ next x) a x → ∀ y ∈ next x, y ∈ before → x ∈ before)
    {n : Nat} (hn : dom.length ≤ n) : ∃ popped,
    (flood next visit n before a acc).visited = before ++ popped ∧ (flood next visit n before a acc).queue = [] ∧
      (flood next visit n before a acc).acc = popped.foldl visit acc ∧ (before ++ popped).Nodup ∧
      ∀ b, b ∈ popped ↔ Relation.ReflTransGen (fun x y => y ∈ next x) a b := by
  obtain ⟨popped, hfill, hend⟩ := @Filling.run α β _ next visit before a acc hbefore ha n
  have hnodup := hfill.nodup
  rw [hfill.visited, List.append_assoc] at hnodup
  have hin : ∀ b, Relation.ReflTransGen (fun x y => y ∈ next x) a b → b ∈ dom := fun b hb => reached_in hdom hmem hb
  have hempty : (flood next visit n before a acc).queue = [] := by
    rcases hend with hempty | hlen
    · exact hempty
    · -- every node has come off the queue
      have hle := (hnodup.of_append_right.subperm fun b hb => hin b (hfill.reached b hb)).length_le
      rw [List.length_append] at hle
      exact List.length_eq_zero_iff.1 (by omega)
  have hvisited := hfill.visited
  rw [hempty, List.append_nil] at hvisited hnodup
  refine ⟨popped, hvisited, hempty, hfill.acc, hnodup, fun b => ⟨fun hb => hfill.reached b (List.mem_append_left _ hb), fun hb => ?_⟩⟩
  have hnot : ∀ c, Relation.ReflTransGen (fun x y => y ∈ next x) a c → c ∉ before := fun c hc => by
    induction hc with
    | refl => exact ha
    | tail hprev hstep ih => exact fun hc => ih (hback _ hprev _ hstep hc)
  induction hb with
  | refl =>
    have hfirst := hfill.first
    rwa [hempty, List.append_nil] at hfirst
  | tail hprev hstep ih =>
    have hmarked := hfill.led _ ih _ hstep
    rw [hvisited] at hmarked
    exact (List.mem_append.1 hmarked).resolve_left (hnot _ (hprev.tail hstep))

end Fill

/-! ## A whole scan -/

section Scan

variable {next : α → List α} {p : α → Bool} {visit : β → α → β} {init : α → β}

/-- The class of a node that is to be filled, as a fill has listed it. -/
structure IsClass (next : α → List α) (p : α → Bool) (a : α) (c : List α) : Prop where
  fills : p a = true
  nodup : c.Nodup
  mem_iff : ∀ b, b ∈ c ↔ Relation.ReflTransGen (fun x y => y ∈ next x) a b

/-- What a scan holds between two nodes: the marked nodes are those of the classes filled, which have no node in common. -/
structure Scanned (next : α → List α) (p : α → Bool) (visit : β → α → β) (init : α → β) (s : List α × List β)
    (classes : List (α × List α)) : Prop where
  visited : s.1 = (classes.map (·.2)).flatten
  filled : s.2 = classes.map fun c => c.2.foldl visit (init c.1)
  nodup : s.1.Nodup
  isClass : ∀ c ∈ classes, IsClass next p c.1 c.2

omit [DecidableEq α] in
/-- A node outside the marked ones leads to none of them. -/
theorem Scanned.back {s : List α × List β} {classes : List (α × List α)} (h : Scanned next p visit init s classes)
    {dom : List α} (hdom : ∀ x ∈ dom, ∀ y ∈ next x, y ∈ dom) (hp : ∀ x, ∀ y ∈ next x, p y = true)
    (hsymm : ∀ x ∈ dom, p x = true → ∀ y ∈ next x, x ∈ next y) {a : α} (hin : a ∈ dom) (ha : p a = true) :
    ∀ x, Relation.ReflTransGen (fun x y => y ∈ next x) a x → ∀ y ∈ next x, y ∈ s.1 → x ∈ s.1 := by
  intro x hx y hy hmarked
  have hxin : x ∈ dom := reached_in hdom hin hx
  have hpx : p x = true := by
    rcases Relation.ReflTransGen.cases_tail hx with rfl | ⟨z, -, hz⟩
    · exact ha
    · exact hp z x hz
  rw [h.visited] at hmarked ⊢
  obtain ⟨l, hl, hyl⟩ := List.mem_flatten.1 hmarked
  obtain ⟨c, hc, rfl⟩ := List.mem_map.1 hl
  have hclass := h.isClass c hc
  exact List.mem_flatten.2 ⟨c.2, hl, (hclass.mem_iff x).2 (((hclass.mem_iff y).1 hyl).tail (hsymm x hxin hpx y hy))⟩

omit [DecidableEq α] in
theorem Scanned.marked {s : List α × List β} {classes : List (α × List α)} (h : Scanned next p visit init s classes) {b : α} :
    b ∈ s.1 ↔ ∃ c ∈ classes, b ∈ c.2 := by
  rw [h.visited, List.mem_flatten]
  constructor
  · rintro ⟨l, hl, hb⟩
    obtain ⟨c, hc, rfl⟩ := List.mem_map.1 hl
    exact ⟨c, hc, hb⟩
  · rintro ⟨c, hc, hb⟩
    exact ⟨c.2, List.mem_map_of_mem hc, hb⟩

/-- A scan over some nodes in some order fills the classes of those among them that are to be filled, in the order of
their first nodes. -/
theorem scan_ordered {dom : List α} (hdom : ∀ x ∈ dom, ∀ y ∈ next x, y ∈ dom) (hp : ∀ x, ∀ y ∈ next x, p y = true)
    (hsymm : ∀ x ∈ dom, p x = true → ∀ y ∈ next x, x ∈ next y) {n : Nat} (hn : dom.length ≤ n) (cells : List α)
    (hcells : ∀ a ∈ cells, p a = true → a ∈ dom) {r : α → α → Prop} (hr : cells.Pairwise r) : ∃ classes,
    Scanned next p visit init (cells.foldl (scanStep next p visit init n) ([], [])) classes ∧
      (∀ a ∈ cells, p a = true → ∃ c ∈ classes, a ∈ c.2) ∧ (classes.map (·.1)).Sublist cells ∧
      ∀ c ∈ classes, ∀ b ∈ c.2, b ∈ cells → b = c.1 ∨ r c.1 b := by
  induction cells using List.reverseRecOn with
  | nil => exact ⟨[], ⟨rfl, rfl, List.nodup_nil, by simp⟩, by simp, List.nil_sublist _, by simp⟩
  | append_singleton cells a ih =>
    rw [List.pairwise_append] at hr
    obtain ⟨classes, hscan, hfound, hsub, hfirst⟩ := ih (fun b hb => hcells b (List.mem_append_left _ hb)) hr.1
    -- the node that is new comes after the first nodes of the classes so far
    have hold : ∀ c ∈ classes, ∀ b ∈ c.2, b ∈ cells ++ [a] → b = c.1 ∨ r c.1 b := by
      intro c hc b hb hmem
      rcases List.mem_append.1 hmem with hmem | hmem
      · exact hfirst c hc b hb hmem
      · exact .inr (hr.2.2 _ (hsub.subset (List.mem_map_of_mem hc)) _ hmem)
    rw [List.foldl_append, List.foldl_cons, List.foldl_nil]
    generalize cells.foldl (scanStep next p visit init n) ([], []) = s at hscan ⊢
    unfold scanStep
    split
    · rename_i hskip
      refine ⟨classes, hscan, fun b hb hpb => ?_, hsub.trans (List.sublist_append_left ..), hold⟩
      rcases List.mem_append.1 hb with hb | hb
      · exact hfound b hb hpb
      · rw [List.mem_singleton.1 hb] at hpb ⊢
        exact hscan.marked.1 (hskip.resolve_right (by simp [hpb]))
    · rename_i hfresh
      simp only [not_or, Bool.not_eq_false] at hfresh
      obtain ⟨popped, hvisited, -, hacc, hnodup, hmem⟩ := @flood_spec α β _ next visit _ a (init a) dom hdom hscan.nodup hfresh.1
        (hcells a (by simp) hfresh.2) (hscan.back hdom hp hsymm (hcells a (by simp) hfresh.2) hfresh.2) _ hn
      have hfills : ∀ b ∈ popped, p b = true := by
        intro b hb
        rcases Relation.ReflTransGen.cases_tail ((hmem b).1 hb) with rfl | ⟨z, -, hz⟩
        · exact hfresh.2
        · exact hp z b hz
      refine ⟨classes ++ [(a, popped)], ⟨?_, ?_, ?_, fun c hc => ?_⟩, fun b hb hpb => ?_, ?_, fun c hc b hb hin => ?_⟩
      · dsimp only
        rw [hvisited]
        conv_lhs => rw [hscan.visited]
        simp
      · dsimp only
        rw [hacc]
        conv_lhs => rw [hscan.filled]
        simp
      · dsimp only
        rw [hvisited]
        exact hnodup
      · rcases List.mem_append.1 hc with hc | hc
        · exact hscan.isClass c hc
        · rw [List.mem_singleton.1 hc]
          exact ⟨hfresh.2, hnodup.of_append_right, hmem⟩
      · rcases List.mem_append.1 hb with hb | hb
        · obtain ⟨c, hc, hbc⟩ := hfound b hb hpb
          exact ⟨c, List.mem_append_left _ hc, hbc⟩
        · rw [List.mem_singleton.1 hb]
          exact ⟨(a, popped), by simp, (hmem a).2 .refl⟩
      · rw [List.map_append]
        exact hsub.append (List.Sublist.refl [a])
      · rcases List.mem_append.1 hc with hc | hc
        · exact hold c hc b hb hin
        · rw [List.mem_singleton.1 hc] at hb ⊢
          rcases List.mem_append.1 hin with hin | hin
          · exact absurd rfl ((List.nodup_append.1 hnodup).2.2 b (hscan.marked.2 (hfound b hin (hfills b hb))) b hb)
          · exact .inl (List.mem_singleton.1 hin)

/-- Each fill of a scan ends. -/
theorem scan_ends {dom : List α} (hdom : ∀ x ∈ dom, ∀ y ∈ next x, y ∈ dom) (hp : ∀ x, ∀ y ∈ next x, p y = true)
    (hsymm : ∀ x ∈ dom, p x = true → ∀ y ∈ next x, x ∈ next y) {n : Nat} (hn : dom.length ≤ n) {cells : List α}
    (hcells : ∀ a ∈ cells, p a = true → a ∈ dom) {a : α} (ha : a ∈ dom) (hpa : p a = true)
    (hfresh : a ∉ (cells.foldl (scanStep next p visit init n) ([], [])).1) :
    (flood next visit n (cells.foldl (scanStep next p visit init n) ([], [])).1 a (init a)).queue = [] := by
  have htrue : cells.Pairwise fun _ _ => True := List.pairwise_of_forall fun _ _ => trivial
  obtain ⟨classes, hscan, -⟩ := @scan_ordered _ _ _ next p visit init dom hdom hp hsymm n hn cells hcells _ htrue
  obtain ⟨popped, -, hempty, -⟩ := @flood_spec α β _ next visit _ a (init a) dom hdom hscan.nodup hfresh ha (hscan.back hdom hp hsymm ha hpa) _ hn
  exact hempty

end Scan

end Umd.Lib
