import Umd.Lib.Orders
import Umd.Projections.EntityQuery
/-!
# Pages of entity queries

What walking the pages of an entity query returns. By name the pages are exact unless the
scope in the statement and the scope in Python disagree; in general the two have to agree;
by alias without a scope the rows fetched for the first page have to hold every ref
(`entities_exact_iff`).
-/

namespace Umd.Query

open Umd.Lib Umd.Events Umd.Reducer Umd.Projections

/-- For every listing of each call, the pages at the multiples of the limit return the refs in order, each with their number. -/
def WalkExact (call : Listing → ℕ → Except PyError ProvenanceBearingPage) (limit : ℕ) (refs : List String) : Prop :=
  ∀ listings : ℕ → Listing, ∃ pages : ℕ → ProvenanceBearingPage, (∀ k, call (listings k) (k * limit) = .ok (pages k)) ∧
    (∀ k, (pages k).total = refs.length) ∧ ReturnsInOrder (fun k => (pages k).results.map (·.ref)) refs

section Walks

variable {call : Listing → ℕ → Except PyError ProvenanceBearingPage} {limit : ℕ} {refs : List String}

theorem WalkExact.of_pages (hlimit : 1 ≤ limit) (h : ∀ listing k, ∃ page, call listing (k * limit) = .ok page ∧
    page.total = refs.length ∧ page.results.map (·.ref) = window limit k refs) : WalkExact call limit refs := by
  intro listings
  choose pages hcall htotal hrefs using fun k => h (listings k) k
  refine ⟨pages, hcall, htotal, ?_⟩
  rw [funext hrefs]
  exact returnsInOrder_window hlimit refs

theorem WalkExact.page (h : WalkExact call limit refs) (listing : Listing) (k : ℕ) :
    ∃ page, call listing (k * limit) = .ok page ∧ page.total = refs.length := by
  obtain ⟨pages, hcall, htotal, -⟩ := h fun _ => listing
  exact ⟨pages k, hcall k, htotal k⟩

theorem WalkExact.found (h : WalkExact call limit refs) (listing : Listing) {ref : String} (href : ref ∈ refs) :
    ∃ k page, call listing (k * limit) = .ok page ∧ ref ∈ page.results.map (·.ref) := by
  obtain ⟨pages, hcall, -, n, hn⟩ := h fun _ => listing
  rw [← hn n (le_refl n)] at href
  obtain ⟨k, -, hk⟩ := mem_walk.1 href
  exact ⟨k, pages k, hcall k, hk⟩

end Walks

/-- The rows as they are. -/
def plainListing : Listing := ⟨id, fun _ => .refl _⟩

/-! ## Selected rows -/

section Selected

variable {Row : Type} {conds : List (Cond Row)} {table rows : List Row}

theorem Statement.mem_select (h : Statement.select conds table = .ok rows) {r : Row} :
    r ∈ rows ↔ r ∈ table ∧ conds.allM (fun c => c r) = .ok true := by
  induction table generalizing rows with
  | nil =>
    cases h
    simp
  | cons x table ih =>
    unfold Statement.select at h
    obtain ⟨keep, hkeep, h⟩ := bind_ok h
    obtain ⟨rest, hrest, h⟩ := bind_ok h
    obtain rfl := Except.ok.inj h
    cases keep with
    | true =>
      rw [if_pos rfl, List.mem_cons, List.mem_cons, ih hrest, or_and_right]
      refine or_congr_left ⟨fun he => ⟨he, ?_⟩, And.left⟩
      rw [he, hkeep]
    | false =>
      rw [if_neg (by decide), ih hrest, List.mem_cons, or_and_right]
      refine ⟨.inr, fun h => h.resolve_left ?_⟩
      rintro ⟨rfl, htrue⟩
      rw [hkeep] at htrue
      cases htrue

theorem Statement.select_evaluates (h : Statement.select conds table = .ok rows) :
    ∀ r ∈ table, ∃ b, conds.allM (fun c => c r) = .ok b := by
  induction table generalizing rows with
  | nil => exact fun r hr => absurd hr List.not_mem_nil
  | cons x table ih =>
    unfold Statement.select at h
    obtain ⟨keep, hkeep, h⟩ := bind_ok h
    obtain ⟨rest, hrest, -⟩ := bind_ok h
    intro r hr
    rcases List.mem_cons.1 hr with rfl | hr
    · exact ⟨keep, hkeep⟩
    · exact ih hrest r hr

theorem Statement.select_total (h : ∀ r ∈ table, ∃ b, conds.allM (fun c => c r) = .ok b) :
    ∃ rows, Statement.select conds table = .ok rows := by
  induction table with
  | nil => exact ⟨[], rfl⟩
  | cons x table ih =>
    obtain ⟨b, hb⟩ := h x (List.mem_cons_self ..)
    obtain ⟨rest, hrest⟩ := ih fun r hr => h r (List.mem_cons_of_mem _ hr)
    unfold Statement.select
    rw [hb, hrest]
    exact ⟨_, rfl⟩

theorem Statement.select_filter {p : Row → Bool} (h : ∀ r ∈ table, conds.allM (fun c : Cond Row => c r) = .ok (p r)) :
    Statement.select conds table = .ok (table.filter p) := by
  induction table with
  | nil => rfl
  | cons r rows ih =>
    unfold Statement.select
    rw [h r (List.mem_cons_self ..), ih fun r' hr' => h r' (List.mem_cons_of_mem _ hr')]
    cases hp : p r with
    | true => rw [List.filter_cons_of_pos hp]; rfl
    | false => rw [List.filter_cons_of_neg (by rw [hp]; decide)]; rfl

/-- Rows that all meet the conditions. -/
theorem Statement.select_all (h : ∀ r ∈ table, conds.allM (fun c : Cond Row => c r) = .ok true) :
    Statement.select conds table = .ok table := by
  rw [@Statement.select_filter _ _ _ (fun _ => true) h, List.filter_eq_self.2 fun _ _ => rfl]

theorem allM_cons (c : Cond Row) (cs : List (Cond Row)) (r : Row) : (c :: cs).allM (fun c : Cond Row => c r) =
    (c r).bind fun b => if b then cs.allM (fun c : Cond Row => c r) else .ok false := by
  have hstep : (c :: cs).allM (fun c : Cond Row => c r) =
      (c r).bind fun b => match b with
        | true => cs.allM (fun c : Cond Row => c r)
        | false => .ok false := rfl
  rw [hstep]
  congr 1
  funext b
  cases b <;> rfl

theorem allM_append (cs ds : List (Cond Row)) (r : Row) : (cs ++ ds).allM (fun c : Cond Row => c r) =
    (cs.allM fun c : Cond Row => c r).bind fun b => if b then ds.allM (fun c : Cond Row => c r) else .ok false := by
  induction cs with
  | nil => rfl
  | cons c cs ih =>
    rw [List.cons_append, allM_cons, allM_cons]
    cases c r with
    | error e => rfl
    | ok b =>
      cases b with
      | false => rfl
      | true => exact ih

theorem allM_test (p : Row → Bool) (cs : List (Cond Row)) (r : Row) : (test p :: cs).allM (fun c : Cond Row => c r) =
    if p r then cs.allM (fun c : Cond Row => c r) else .ok false := allM_cons (test p) cs r

end Selected

/-! ## Distinct refs and the rows that stand for them -/

theorem mem_refsOf {rows : List ScalarRow} {ref : String} : ref ∈ refsOf rows ↔ ∃ r ∈ rows, r.entityRef = ref := List.mem_map

theorem mem_distinctRefs {rows : List ScalarRow} {ref : String} : ref ∈ distinctRefs rows ↔ ∃ r ∈ rows, r.entityRef = ref := by
  rw [distinctRefs, List.mem_insertionSort, List.mem_dedup, mem_refsOf]

theorem nodup_distinctRefs (rows : List ScalarRow) : (distinctRefs rows).Nodup :=
  (List.perm_insertionSort (· ≤ ·) _).nodup_iff.2 (List.nodup_dedup _)

theorem sorted_distinctRefs (rows : List ScalarRow) : (distinctRefs rows).Pairwise (· ≤ ·) := List.pairwise_insertionSort (· ≤ ·) _

/-- Lists in order without repetition that have the same members. -/
theorem sorted_ext {refs refs' : List String} (h : refs.Nodup) (h' : refs'.Nodup) (hs : refs.Pairwise (· ≤ ·))
    (hs' : refs'.Pairwise (· ≤ ·)) (hmem : ∀ ref, ref ∈ refs ↔ ref ∈ refs') : refs = refs' :=
  ((List.perm_ext_iff_of_nodup h h').2 hmem).eq_of_pairwise' hs hs'

theorem distinctRefs_congr {rows rows' : List ScalarRow} (h : ∀ ref, (∃ r ∈ rows, r.entityRef = ref) ↔ ∃ r ∈ rows', r.entityRef = ref) :
    distinctRefs rows = distinctRefs rows' :=
  sorted_ext (nodup_distinctRefs _) (nodup_distinctRefs _) (sorted_distinctRefs _) (sorted_distinctRefs _) fun ref => by
    rw [mem_distinctRefs, mem_distinctRefs, h]

/-- Identity rows and entity rows, each once. -/
structure Paired (rows : List ScalarRow) : Prop where
  keys : (rows.map fun r => (r.entityRef, r.predicate)).Nodup
  kinds : ∀ r ∈ rows, isIdentity r = true ∨ isEntityRow r = true

theorem Paired.sublist {rows rows' : List ScalarRow} (h : Paired rows) (hs : rows'.Sublist rows) : Paired rows' :=
  ⟨h.keys.sublist (hs.map _), fun r hr => h.kinds r (hs.subset hr)⟩

theorem Paired.perm {rows rows' : List ScalarRow} (h : Paired rows) (hp : rows'.Perm rows) : Paired rows' :=
  ⟨(hp.map _).nodup_iff.2 h.keys, fun r hr => h.kinds r (hp.mem_iff.1 hr)⟩

theorem Paired.eq_of {rows : List ScalarRow} (h : Paired rows) {r r' : ScalarRow} (hr : r ∈ rows) (hr' : r' ∈ rows)
    (href : r.entityRef = r'.entityRef) (hkind : isIdentity r = isIdentity r') : r = r' := by
  refine eq_of_key h.keys hr hr' (Prod.ext href ?_)
  rcases h.kinds r hr with hk | hk <;> rcases h.kinds r' hr' with hk' | hk'
  · rw [of_decide_eq_true hk, of_decide_eq_true hk']
  · rw [hk] at hkind
    have hboth : r'.predicate = canonicalIdentity := of_decide_eq_true hkind.symm
    rw [of_decide_eq_true hk, hboth]
  · rw [hk'] at hkind
    have hboth : r.predicate = canonicalIdentity := of_decide_eq_true hkind
    rw [of_decide_eq_true hk', hboth]
  · rw [of_decide_eq_true hk, of_decide_eq_true hk']

theorem mem_of_winner {rows : List ScalarRow} {ref : String} {r : ScalarRow} (h : winner rows ref = some r) : r ∈ rows ∧ r.entityRef = ref := by
  have hown : r ∈ rows.filter fun r => decide (r.entityRef = ref) := by
    rcases Option.or_eq_some_iff.1 h with hfind | ⟨-, hhead⟩
    · exact List.mem_of_find?_eq_some hfind
    · exact List.mem_of_head? hhead
  rwa [List.mem_filter, decide_eq_true_iff] at hown

theorem winner_eq_some {rows : List ScalarRow} (h : Paired rows) {ref : String} {r : ScalarRow} : winner rows ref = some r ↔
    r ∈ rows ∧ r.entityRef = ref ∧ (isIdentity r = true ∨ ∀ r' ∈ rows, r'.entityRef = ref → isIdentity r' = false) := by
  unfold winner
  have hown : ∀ r', r' ∈ rows.filter (fun r => decide (r.entityRef = ref)) ↔ r' ∈ rows ∧ r'.entityRef = ref := fun r' => by
    rw [List.mem_filter, decide_eq_true_iff]
  cases hfind : (rows.filter fun r => decide (r.entityRef = ref)).find? isIdentity with
  | some w =>
    have hw := (hown w).1 (List.mem_of_find?_eq_some hfind)
    have hwi := List.find?_some hfind
    dsimp only
    rw [hfind, Option.some_or, Option.some.injEq]
    constructor
    · rintro rfl
      exact ⟨hw.1, hw.2, .inl hwi⟩
    · rintro ⟨hr, href, hk | hk⟩
      · exact h.eq_of hw.1 hr (hw.2.trans href.symm) (by rw [hwi, hk])
      · rw [hk w hw.1 hw.2] at hwi
        cases hwi
  | none =>
    have hnone : ∀ r' ∈ rows, r'.entityRef = ref → isIdentity r' = false := fun r' hr' href' => by
      simpa using List.find?_eq_none.1 hfind r' ((hown r').2 ⟨hr', href'⟩)
    dsimp only
    rw [hfind, Option.none_or]
    constructor
    · intro hhead
      have hr := (hown r).1 (List.mem_of_head? hhead)
      exact ⟨hr.1, hr.2, .inr hnone⟩
    · rintro ⟨hr, href, -⟩
      cases hlist : rows.filter fun r => decide (r.entityRef = ref) with
      | nil =>
        have hmem := (hown r).2 ⟨hr, href⟩
        rw [hlist] at hmem
        cases hmem
      | cons w rest =>
        have hw := (hown w).1 (hlist ▸ List.mem_cons_self ..)
        rw [List.head?_cons, h.eq_of hw.1 hr (hw.2.trans href.symm) (by rw [hnone w hw.1 hw.2, hnone r hr href])]

theorem winner_isSome {rows : List ScalarRow} {ref : String} (h : ∃ r ∈ rows, r.entityRef = ref) : ∃ r, winner rows ref = some r := by
  obtain ⟨r, hr, href⟩ := h
  apply Option.isSome_iff_exists.1
  unfold winner
  cases hlist : rows.filter fun r => decide (r.entityRef = ref) with
  | nil =>
    have hmem : r ∈ rows.filter fun r => decide (r.entityRef = ref) := List.mem_filter.2 ⟨hr, decide_eq_true href⟩
    rw [hlist] at hmem
    cases hmem
  | cons w rest =>
    rw [Option.isSome_or, List.head?_cons, Option.isSome_some, Bool.or_true]

theorem winner_congr {rows rows' : List ScalarRow} (h : Paired rows) (h' : Paired rows') {ref : String}
    (hmem : ∀ r, r.entityRef = ref → (r ∈ rows ↔ r ∈ rows')) : winner rows ref = winner rows' ref := by
  apply Option.ext
  intro r
  rw [winner_eq_some h, winner_eq_some h']
  constructor
  · rintro ⟨hr, href, hk⟩
    exact ⟨(hmem r href).1 hr, href, hk.imp_right fun hn r' hr' href' => hn r' ((hmem r' href').2 hr') href'⟩
  · rintro ⟨hr, href, hk⟩
    exact ⟨(hmem r href).2 hr, href, hk.imp_right fun hn r' hr' href' => hn r' ((hmem r' href').1 hr') href'⟩

/-- The rows that stand for refs of the list. -/
theorem refs_winners {rows : List ScalarRow} (h : Paired rows) {refs : List String} (hrefs : ∀ ref ∈ refs, ∃ r ∈ rows, r.entityRef = ref) :
    refsOf (refs.filterMap (winner rows)) = refs := by
  induction refs with
  | nil => rfl
  | cons ref refs ih =>
    obtain ⟨r, hr⟩ := winner_isSome (hrefs ref (List.mem_cons_self ..))
    rw [List.filterMap_cons_some hr, refsOf, List.map_cons, ((winner_eq_some h).1 hr).2.1]
    congr 1
    exact ih fun ref' href' => hrefs ref' (List.mem_cons_of_mem _ href')

/-! ## Hits -/

theorem identityHit_ref {r : ScalarRow} {hit : QueryResultHit} (h : identityHit r = .ok hit) : hit.ref = r.entityRef := by
  unfold identityHit at h
  obtain ⟨_, -, h⟩ := bind_ok h
  obtain ⟨_, -, h⟩ := bind_ok h
  obtain ⟨_, -, h⟩ := bind_ok h
  obtain ⟨_, -, h⟩ := bind_ok h
  obtain ⟨_, -, h⟩ := bind_ok h
  obtain ⟨_, -, h⟩ := bind_ok h
  obtain ⟨_, -, h⟩ := bind_ok h
  obtain rfl := Except.ok.inj h
  rfl

theorem entityHit_ref {r : ScalarRow} {hit : QueryResultHit} (h : entityHit r = .ok hit) : hit.ref = r.entityRef := by
  unfold entityHit at h
  split at h
  · exact identityHit_ref h
  · obtain rfl := Except.ok.inj h
    rfl

/-- A row that can be shown. -/
def Shown (r : ScalarRow) : Prop := ∃ hit, entityHit r = .ok hit

theorem hits_of {rows : List ScalarRow} (h : ∀ r ∈ rows, Shown r) :
    ∃ hits, rows.mapM entityHit = .ok hits ∧ hits.map (·.ref) = refsOf rows := by
  obtain ⟨hits, hhits⟩ := mapM_succeeds h
  exact ⟨hits, hhits, mapM_map (fun hf => entityHit_ref hf) hhits⟩

/-- A hit on a page is of a row that is shown. -/
theorem of_hits {rows : List ScalarRow} {hits : List QueryResultHit} (h : rows.mapM entityHit = .ok hits) {ref : String}
    (href : ref ∈ hits.map (·.ref)) : ∃ r ∈ rows, r.entityRef = ref ∧ Shown r := by
  obtain ⟨hit, hhit, rfl⟩ := List.mem_map.1 href
  obtain ⟨r, hr, hok⟩ := mapM_mem h hit hhit
  exact ⟨r, hr, (entityHit_ref hok).symm, hit, hok⟩

/-! ## Rows in the order of their refs -/

/-- What is closed downwards in a list in order is a prefix of it. -/
theorem filter_prefix {refs : List String} {p : String → Bool} (hs : refs.Pairwise (· ≤ ·))
    (hdown : ∀ a ∈ refs, ∀ b ∈ refs, a ≤ b → p b = true → p a = true) : refs.filter p <+: refs := by
  induction refs with
  | nil => exact List.prefix_rfl
  | cons a refs ih =>
    rw [List.pairwise_cons] at hs
    cases ha : p a with
    | true =>
      rw [List.filter_cons_of_pos ha, List.cons_prefix_cons]
      exact ⟨rfl, ih hs.2 fun b hb c hc => hdown b (List.mem_cons_of_mem _ hb) c (List.mem_cons_of_mem _ hc)⟩
    | false =>
      rw [List.filter_cons_of_neg (by rw [ha]; decide), List.filter_eq_nil_iff.2]
      · exact List.nil_prefix
      · intro b hb htrue
        have hpa := hdown a (List.mem_cons_self ..) b (List.mem_cons_of_mem _ hb) (hs.1 b hb) htrue
        rw [ha] at hpa
        cases hpa

section Fetched

variable {rows : List ScalarRow} (listing : Listing) (n : ℕ)

/-- The first rows in the order of their refs. -/
def fetched (rows : List ScalarRow) : List ScalarRow := (byRef listing rows).take n

theorem byRef_perm (rows : List ScalarRow) : (byRef listing rows).Perm rows :=
  (List.perm_insertionSort _ _).trans (listing.perm rows)

theorem byRef_sorted (rows : List ScalarRow) : (byRef listing rows).Pairwise fun r r' => r.entityRef ≤ r'.entityRef := by
  have htotal : Std.Total fun r r' : ScalarRow => r.entityRef ≤ r'.entityRef := ⟨fun r r' => le_total ..⟩
  have htrans : IsTrans ScalarRow fun r r' => r.entityRef ≤ r'.entityRef := ⟨fun _ _ _ h h' => le_trans h h'⟩
  exact List.pairwise_insertionSort ..

theorem refs_byRef (rows : List ScalarRow) : refsOf (byRef listing rows) = (refsOf rows).insertionSort (· ≤ ·) := by
  refine List.Perm.eq_of_pairwise' (List.pairwise_map.2 (byRef_sorted listing rows)) (List.pairwise_insertionSort (· ≤ ·) _) ?_
  exact ((byRef_perm listing rows).map _).trans (List.perm_insertionSort (· ≤ ·) _).symm

variable {listing n}

theorem mem_of_fetched {r : ScalarRow} (h : r ∈ fetched listing n rows) : r ∈ rows :=
  (byRef_perm listing rows).mem_iff.1 (List.mem_of_mem_take h)

/-- A row that is not fetched has no lesser ref than one that is. -/
theorem fetched_le {r r' : ScalarRow} (h : r ∈ fetched listing n rows) (hr' : r' ∈ rows) (h' : r' ∉ fetched listing n rows) :
    r.entityRef ≤ r'.entityRef := by
  have hsplit := List.take_append_drop n (byRef listing rows)
  have hdrop : r' ∈ (byRef listing rows).drop n := by
    have hmem := (byRef_perm listing rows).mem_iff.2 hr'
    rw [← hsplit] at hmem
    exact (List.mem_append.1 hmem).resolve_left h'
  have hsorted := byRef_sorted listing rows
  rw [← hsplit] at hsorted
  exact (List.pairwise_append.1 hsorted).2.2 r h r' hdrop

theorem distinctRefs_fetched : distinctRefs (fetched listing n rows) <+: distinctRefs rows := by
  have heq : distinctRefs (fetched listing n rows) = (distinctRefs rows).filter fun ref => decide (ref ∈ distinctRefs (fetched listing n rows)) := by
    refine sorted_ext (nodup_distinctRefs _) ((nodup_distinctRefs _).filter _) (sorted_distinctRefs _) ((sorted_distinctRefs _).filter _) fun ref => ?_
    rw [List.mem_filter, decide_eq_true_iff]
    refine ⟨fun h => ⟨?_, h⟩, And.right⟩
    obtain ⟨r, hr, href⟩ := mem_distinctRefs.1 h
    exact mem_distinctRefs.2 ⟨r, mem_of_fetched hr, href⟩
  rw [heq]
  refine filter_prefix (sorted_distinctRefs _) fun a ha b _ hab hb => ?_
  rw [decide_eq_true_iff] at hb ⊢
  obtain ⟨r, hr, rfl⟩ := mem_distinctRefs.1 hb
  obtain ⟨r', hr', rfl⟩ := mem_distinctRefs.1 ha
  by_cases hin : r' ∈ fetched listing n rows
  · exact mem_distinctRefs.2 ⟨r', hin, rfl⟩
  · rw [le_antisymm hab (fetched_le hr hr' hin)]
    exact hb

/-- A ref has two rows at most. -/
theorem length_le_refs (h : Paired rows) : rows.length ≤ 2 * (distinctRefs rows).length := by
  have hpart : ∀ b, (rows.filter fun r => isIdentity r == b).length ≤ (distinctRefs rows).length := by
    intro b
    have hnodup : (refsOf (rows.filter fun r => isIdentity r == b)).Nodup := by
      refine List.Nodup.map_on (fun r hr r' hr' href => ?_) ((List.Nodup.of_map _ h.keys).filter _)
      rw [List.mem_filter, beq_iff_eq] at hr hr'
      exact h.eq_of hr.1 hr'.1 href (hr.2.trans hr'.2.symm)
    rw [← List.length_map (·.entityRef)]
    refine (hnodup.subperm fun ref href => ?_).length_le
    obtain ⟨r, hr, hre⟩ := List.mem_map.1 href
    exact mem_distinctRefs.2 ⟨r, (List.mem_filter.1 hr).1, hre⟩
  have hsum : rows.length = (rows.filter fun r => isIdentity r == true).length + (rows.filter fun r => isIdentity r == false).length := by
    rw [List.length_eq_length_filter_add fun r => isIdentity r == true]
    congr 3
    funext r
    cases isIdentity r <;> rfl
  have htrue := hpart true
  have hfalse := hpart false
  omega

/-- Among two rows for each of `m` refs, and two more, are `m` refs, if there are so many. -/
theorem refs_fetched (h : Paired rows) {m : ℕ} (hm : 2 * m ≤ n) : m ≤ (distinctRefs (fetched listing n rows)).length ∨
    distinctRefs (fetched listing n rows) = distinctRefs rows := by
  by_cases hn : n ≤ rows.length
  · left
    have hlength : (fetched listing n rows).length = n := by
      rw [fetched, List.length_take, (byRef_perm listing rows).length_eq]
      omega
    have hle := length_le_refs ((h.perm (byRef_perm listing rows)).sublist (List.take_sublist n _))
    rw [← fetched, hlength] at hle
    omega
  · right
    have hall : fetched listing n rows = byRef listing rows := by
      rw [fetched, List.take_of_length_le]
      rw [(byRef_perm listing rows).length_eq]
      omega
    rw [hall]
    refine distinctRefs_congr fun ref => ?_
    simp only [(byRef_perm listing rows).mem_iff]

/-- The page of the fetched refs is that of all refs. -/
theorem window_fetched (h : Paired rows) {limit k : ℕ} (hn : 2 * (limit + k * limit) ≤ n) :
    window limit k (distinctRefs (fetched listing n rows)) = window limit k (distinctRefs rows) := by
  rcases @refs_fetched _ listing _ h _ hn with hlength | heq
  · obtain ⟨tail, htail⟩ := @distinctRefs_fetched rows listing n
    rw [← htail, window, window, List.drop_append_of_le_length (by omega), List.take_append_of_le_length]
    rw [List.length_drop]
    omega
  · rw [heq]

end Fetched

/-! ## What the statements select -/

/-- `base` of a row. -/
def active (q : StructuredQuery) (r : ScalarRow) : Bool :=
  r.objectRef.isSome && (!r.state.isStr "INVALIDATED" && ((q.confidenceMin.all fun least => atLeast least r.confidence) &&
    (q.filter "ref").all fun ref => some r.entityRef = some ref))

/-- The scope as Python reads it; a row that fails there is not in scope. -/
def reallyInScope (sc : Scope) (r : ScalarRow) : Bool :=
  match inMembershipScope sc r with
  | .ok b => b
  | .error _ => false

theorem reallyInScope_iff {sc : Scope} {r : ScalarRow} : reallyInScope sc r = true ↔ inMembershipScope sc r = .ok true := by
  unfold reallyInScope
  split
  · rename_i b hb
    rw [hb, Except.ok.injEq]
  · rename_i e he
    rw [he]
    exact ⟨fun h => absurd h (by decide), fun h => absurd h (by simp)⟩

theorem allM_option {Row α : Type} (o : Option α) (p : α → Row → Bool) (r : Row) :
    (o.map fun a => test (p a)).toList.allM (fun c : Cond Row => c r) = .ok (o.all fun a => p a r) := by
  cases o with
  | none => rfl
  | some a =>
    rw [Option.map_some, Option.toList_some, allM_test, Option.all_some]
    cases p a r <;> rfl

theorem base_eval (q : StructuredQuery) (r : ScalarRow) : (base q).allM (fun c : Cond ScalarRow => c r) = .ok (active q r) := by
  have hconfidence : (confidencePred (·.confidence) q).allM (fun c : Cond ScalarRow => c r) =
      .ok (q.confidenceMin.all fun least => atLeast least r.confidence) :=
    allM_option q.confidenceMin (fun least (x : ScalarRow) => atLeast least x.confidence) r
  have href : (textFilter (some ·.entityRef) (q.filter "ref")).allM (fun c : Cond ScalarRow => c r) =
      .ok ((q.filter "ref").all fun ref => some r.entityRef = some ref) :=
    allM_option (q.filter "ref") (fun ref (x : ScalarRow) => some x.entityRef = some ref) r
  unfold base active
  rw [List.append_assoc, List.cons_append, List.singleton_append, allM_test, allM_test, allM_append, hconfidence, href]
  cases r.objectRef.isSome with
  | false => rfl
  | true =>
    cases r.state.isStr "INVALIDATED" with
    | true => rfl
    | false =>
      cases q.confidenceMin.all fun least => atLeast least r.confidence <;> rfl

/-- A condition of a query for canonicals: base, the kind of the row or the scope, and what else is asked. -/
def verdict (sc : Scope) (q : StructuredQuery) (kind post : ScalarRow → Bool) (r : ScalarRow) : Except PyError Bool :=
  if active q r then
    if sc = [] then .ok (kind r && post r)
    else if isIdentity r then (membershipScopePred sc r).map (· && post r)
    else .ok false
  else .ok false

theorem conds_eval (sc : Scope) (q : StructuredQuery) (kind : ScalarRow → Bool) {posts : List (Cond ScalarRow)} {post : ScalarRow → Bool}
    (hposts : ∀ r, posts.allM (fun c : Cond ScalarRow => c r) = .ok (post r)) (r : ScalarRow) :
    (base q ++ (if sc = [] then [test kind] else scopeConds sc) ++ posts).allM (fun c : Cond ScalarRow => c r) = verdict sc q kind post r := by
  rw [List.append_assoc, allM_append, base_eval]
  unfold verdict
  cases active q r with
  | false => rfl
  | true =>
    dsimp only [Except.bind]
    rw [if_pos rfl, if_pos rfl]
    by_cases hsc : sc = []
    · rw [if_pos hsc, if_pos hsc, List.singleton_append, allM_test, hposts]
      cases kind r <;> rfl
    · rw [if_neg hsc, if_neg hsc]
      unfold scopeConds
      rw [List.cons_append, allM_test]
      cases isIdentity r with
      | false => rfl
      | true =>
        rw [if_pos rfl, if_pos rfl, List.singleton_append, allM_cons, hposts]
        cases membershipScopePred sc r with
        | error e => rfl
        | ok b => cases b <;> rfl

/-! ## Matching canonicals -/

/-- What a query for canonicals asks of a row. -/
def asked (sc : Scope) (q : StructuredQuery) (kind post : ScalarRow → Bool) (r : ScalarRow) : Bool :=
  active q r && ((if sc = [] then kind r else isIdentity r && reallyInScope sc r) && post r)

/-- The scope in the statement can be evaluated, and is the scope in Python where the rest of the query is met. -/
def Agrees (db : EntityTables) (sc : Scope) (q : StructuredQuery) (post : ScalarRow → Bool) : Prop :=
  sc = [] ∨ ∀ r ∈ db.states, active q r = true → isIdentity r = true → (∃ b, membershipScopePred sc r = .ok b) ∧
    (post r = true → membershipScopePred sc r = .ok (reallyInScope sc r))

section Branches

variable {db : EntityTables} {sc : Scope} {q : StructuredQuery} {kind post : ScalarRow → Bool}

/-- The matching rows. -/
def askedRows (db : EntityTables) (sc : Scope) (q : StructuredQuery) (kind post : ScalarRow → Bool) : List ScalarRow :=
  db.states.filter (asked sc q kind post)

theorem mem_askedRows {r : ScalarRow} : r ∈ askedRows db sc q kind post ↔ r ∈ db.states ∧ asked sc q kind post r = true := List.mem_filter

theorem verdict_of_agrees (h : Agrees db sc q post) {r : ScalarRow} (hr : r ∈ db.states) :
    verdict sc q kind post r = .ok (asked sc q kind post r) := by
  unfold verdict asked
  cases hactive : active q r with
  | false => rfl
  | true =>
    rw [if_pos rfl, Bool.true_and]
    by_cases hsc : sc = []
    · rw [if_pos hsc, if_pos hsc]
    · rw [if_neg hsc, if_neg hsc]
      cases hidentity : isIdentity r with
      | false => rfl
      | true =>
        obtain ⟨⟨b, hb⟩, hagree⟩ := h.resolve_left hsc r hr hactive hidentity
        rw [if_pos rfl, Bool.true_and]
        cases hpost : post r with
        | false => rw [hb, Bool.and_false]; exact congrArg Except.ok (Bool.and_false b)
        | true => rw [hagree hpost]; rfl

theorem paired_asked (hkind : ∀ r, kind r = true → isIdentity r = true ∨ isEntityRow r = true) :
    Paired (askedRows db sc q kind post) := by
  refine ⟨db.stateKeys.sublist (List.filter_sublist.map _), fun r hr => ?_⟩
  have hasked := (mem_askedRows.1 hr).2
  unfold asked at hasked
  rw [Bool.and_eq_true, Bool.and_eq_true] at hasked
  split at hasked
  · exact hkind r hasked.2.1
  · rw [Bool.and_eq_true] at hasked
    exact .inl hasked.2.1.1

theorem asked_inScope {r : ScalarRow} (h : asked sc q kind post r = true) : inMembershipScope sc r = .ok true := by
  unfold asked at h
  rw [Bool.and_eq_true, Bool.and_eq_true] at h
  by_cases hsc : sc = []
  · rw [inMembershipScope, if_pos hsc]
  · rw [if_neg hsc, Bool.and_eq_true] at h
    exact reallyInScope_iff.1 h.2.1.2

theorem asked_active {r : ScalarRow} (h : asked sc q kind post r = true) : active q r = true := by
  unfold asked at h
  rw [Bool.and_eq_true] at h
  exact h.1

theorem asked_post {r : ScalarRow} (h : asked sc q kind post r = true) : post r = true := by
  unfold asked at h
  rw [Bool.and_eq_true, Bool.and_eq_true] at h
  exact h.2.2

theorem asked_identity {r : ScalarRow} (h : asked sc q isIdentity post r = true) : isIdentity r = true := by
  unfold asked at h
  rw [Bool.and_eq_true, Bool.and_eq_true] at h
  split at h
  · exact h.2.1
  · exact (Bool.and_eq_true _ _ ▸ h.2.1).1

theorem allM_inScope (r : ScalarRow) : [inMembershipScope sc].allM (fun c : Cond ScalarRow => c r) = inMembershipScope sc r := by
  rw [allM_cons]
  cases inMembershipScope sc r with
  | error e => rfl
  | ok b => cases b <;> rfl

theorem keep_asked {rows : List ScalarRow} (h : ∀ r ∈ rows, asked sc q kind post r = true) : keepInScope sc rows = .ok rows := by
  exact Statement.select_all fun r hr => (allM_inScope r).trans (asked_inScope (h r hr))

theorem keep_unscoped (rows : List ScalarRow) : keepInScope [] rows = .ok rows := Statement.select_all fun _ _ => rfl

/-- A row that is no identity row is shown as it is. -/
theorem shown_entity {r : ScalarRow} (h : isIdentity r = false) : Shown r := by
  unfold Shown entityHit
  rw [if_neg (by rw [h]; decide)]
  exact ⟨_, rfl⟩

/-- Under a scope, a walk that is exact shows that the statement and Python agree. -/
theorem agrees_of_walk {call : Listing → ℕ → Except PyError ProvenanceBearingPage} {conds : List (Cond ScalarRow)} (hsc : sc ≠ [])
    (hconds : ∀ r, conds.allM (fun c : Cond ScalarRow => c r) = verdict sc q kind post r)
    (hcall : ∀ offset page, call plainListing offset = .ok page → ∃ rows, db.rows conds = .ok rows ∧
      page.total = (distinctRefs rows).length ∧ ∀ ref ∈ page.results.map (·.ref), ∃ r ∈ rows, r.entityRef = ref ∧ Shown r)
    {limit : ℕ} (h : WalkExact call limit (distinctRefs (askedRows db sc q kind post))) :
    (∀ r ∈ askedRows db sc q kind post, Shown r) ∧ Agrees db sc q post := by
  obtain ⟨page, hpage, htotal⟩ := h.page plainListing 0
  obtain ⟨rows, hrows, hcount, -⟩ := hcall _ _ hpage
  have hrow : ∀ r, r ∈ rows ↔ r ∈ db.states ∧ active q r = true ∧ isIdentity r = true ∧
      membershipScopePred sc r = .ok true ∧ post r = true := by
    intro r
    rw [Statement.mem_select hrows, hconds, verdict, if_neg hsc]
    refine and_congr_right fun _ => ?_
    cases active q r <;> cases isIdentity r <;> simp [map_eq_ok]
  have hone : ∀ r ∈ db.states, isIdentity r = true → ∀ r' ∈ rows, r'.entityRef = r.entityRef → r' = r := by
    intro r hr hidentity r' hr' href
    have hr'' := (hrow r').1 hr'
    exact eq_of_key db.stateKeys hr''.1 hr (Prod.ext href (by rw [of_decide_eq_true hr''.2.2.1, of_decide_eq_true hidentity]))
  have hasked : ∀ r ∈ askedRows db sc q kind post, r ∈ db.states ∧ isIdentity r = true ∧ r ∈ rows ∧ Shown r := by
    intro r hr
    obtain ⟨hstate, hask⟩ := mem_askedRows.1 hr
    unfold asked at hask
    rw [if_neg hsc, Bool.and_eq_true, Bool.and_eq_true, Bool.and_eq_true] at hask
    obtain ⟨k, page', hpage', hfound⟩ := h.found plainListing (mem_distinctRefs.2 ⟨r, hr, rfl⟩)
    obtain ⟨rows', hrows', -, hshown⟩ := hcall _ _ hpage'
    rw [hrows] at hrows'
    obtain rfl := Except.ok.inj hrows'
    obtain ⟨r', hr', href, hs⟩ := hshown _ hfound
    obtain rfl := hone r hstate hask.2.1.1 r' hr' href
    exact ⟨hstate, hask.2.1.1, hr', hs⟩
  have hsame : ∀ ref, ref ∈ distinctRefs (askedRows db sc q kind post) ↔ ref ∈ distinctRefs rows := by
    have hsub : (distinctRefs (askedRows db sc q kind post)).Subperm (distinctRefs rows) := by
      refine (nodup_distinctRefs _).subperm fun ref href => ?_
      obtain ⟨r, hr, hre⟩ := mem_distinctRefs.1 href
      exact mem_distinctRefs.2 ⟨r, (hasked r hr).2.2.1, hre⟩
    have hperm := hsub.perm_of_length_le (by rw [← hcount, htotal])
    exact fun ref => hperm.mem_iff
  refine ⟨fun r hr => (hasked r hr).2.2.2, .inr fun r hr hactive hidentity => ?_⟩
  obtain ⟨b, hb⟩ := Statement.select_evaluates hrows r hr
  rw [hconds, verdict, if_neg hsc, if_pos hactive, if_pos hidentity] at hb
  obtain ⟨b', hb', -⟩ := map_eq_ok.1 hb
  refine ⟨⟨b', hb'⟩, fun hpost => ?_⟩
  rw [hb']
  congr 1
  rw [Bool.eq_iff_iff]
  constructor
  · rintro rfl
    obtain ⟨r', hr', href⟩ := mem_distinctRefs.1 ((hsame _).2 (mem_distinctRefs.2 ⟨r, (hrow r).2 ⟨hr, hactive, hidentity, hb', hpost⟩, rfl⟩))
    obtain ⟨hstate, hid', hin, -⟩ := hasked r' hr'
    obtain rfl := hone r hr hidentity r' hin href
    have hask := (mem_askedRows.1 hr').2
    unfold asked at hask
    rw [if_neg hsc, Bool.and_eq_true, Bool.and_eq_true, Bool.and_eq_true] at hask
    exact hask.2.1.2
  · intro hreally
    have hmem : r ∈ askedRows db sc q kind post := by
      refine mem_askedRows.2 ⟨hr, ?_⟩
      unfold asked
      rw [hactive, if_neg hsc, hidentity, hreally, hpost]
      rfl
    have hpred := ((hrow r).1 (hasked r hmem).2.2.1).2.2.2.1
    rw [hb'] at hpred
    exact Except.ok.inj hpred

/-! ## In general -/

/-- The rows of canonicals: identities, and entity rows of a ref with a colon. -/
def generalKind (r : ScalarRow) : Bool := isIdentity r || (isEntityRow r && r.entityRef.toList.contains ':')

theorem generalKind_paired (r : ScalarRow) (h : generalKind r = true) : isIdentity r = true ∨ isEntityRow r = true := by
  unfold generalKind at h
  rw [Bool.or_eq_true, Bool.and_eq_true] at h
  exact h.imp_right And.left

theorem generalConds_eval (r : ScalarRow) : (generalConds sc q).allM (fun c : Cond ScalarRow => c r) =
    verdict sc q generalKind (fun _ => true) r := by
  rw [← List.append_nil (generalConds sc q)]
  exact conds_eval sc q generalKind (fun _ => rfl) r

/-- A call in general: its results are of rows that stand for refs of the selected rows. -/
theorem general_ok {listing : Listing} {page : ProvenanceBearingPage} (h : general db listing sc q = .ok page) :
    ∃ rows, db.rows (generalConds sc q) = .ok rows ∧ page.total = (distinctRefs rows).length ∧
      ∀ ref ∈ page.results.map (·.ref), ∃ r, winner (byRef listing (rows.filter fun r =>
        (((distinctRefs rows).drop q.offset).take q.limit).contains r.entityRef)) ref = some r ∧
          ref ∈ ((distinctRefs rows).drop q.offset).take q.limit ∧ r ∈ rows ∧ r.entityRef = ref ∧ Shown r := by
  obtain ⟨rows, hrows, h⟩ := bind_ok h
  obtain ⟨kept, hkept, h⟩ := bind_ok h
  obtain ⟨results, hresults, h⟩ := bind_ok h
  obtain rfl := Except.ok.inj h
  refine ⟨rows, hrows, rfl, fun ref href => ?_⟩
  obtain ⟨r, hr, hre, hshown⟩ := of_hits hresults href
  obtain ⟨ref', hrefs, hwinner⟩ := List.mem_filterMap.1 ((Statement.mem_select hkept).1 (List.mem_of_mem_take hr)).1
  obtain ⟨hmem, href'⟩ := mem_of_winner hwinner
  rw [(byRef_perm listing _).mem_iff, List.mem_filter] at hmem
  obtain rfl : ref' = ref := href'.symm.trans hre
  exact ⟨r, hwinner, hrefs, hmem.1, href', hshown⟩

/-- A page in general, where the statement selects the matching rows. -/
theorem general_page (hrows : db.rows (generalConds sc q) = .ok (askedRows db sc q generalKind fun _ => true))
    (hshown : ∀ r ∈ askedRows db sc q generalKind fun _ => true, Shown r) (listing : Listing) (k : ℕ) :
    ∃ page, general db listing sc { q with offset := k * q.limit } = .ok page ∧
      page.total = (distinctRefs (askedRows db sc q generalKind fun _ => true)).length ∧
      page.results.map (·.ref) = window q.limit k (distinctRefs (askedRows db sc q generalKind fun _ => true)) := by
  generalize hlist : askedRows db sc q generalKind (fun _ => true) = rows at hrows hshown ⊢
  have hasked : ∀ r ∈ rows, asked sc q generalKind (fun _ => true) r = true := fun r hr => (mem_askedRows.1 (hlist ▸ hr)).2
  have hpaired : Paired rows := hlist ▸ paired_asked generalKind_paired
  let refs := window q.limit k (distinctRefs rows)
  let own := byRef listing (rows.filter fun r => refs.contains r.entityRef)
  have hown : ∀ r, r ∈ own ↔ r ∈ rows ∧ r.entityRef ∈ refs := by
    intro r
    rw [(byRef_perm listing _).mem_iff, List.mem_filter, List.contains_iff_mem]
  have hpairedOwn : Paired own := (hpaired.sublist List.filter_sublist).perm (byRef_perm listing _)
  have hrefs : refsOf (refs.filterMap (winner own)) = refs := by
    refine refs_winners hpairedOwn fun ref href => ?_
    obtain ⟨r, hr, hre⟩ := mem_distinctRefs.1 (List.mem_of_mem_drop (List.mem_of_mem_take href))
    exact ⟨r, (hown r).2 ⟨hr, hre ▸ href⟩, hre⟩
  have hmem : ∀ r ∈ refs.filterMap (winner own), r ∈ rows := by
    intro r hr
    obtain ⟨ref, -, hwinner⟩ := List.mem_filterMap.1 hr
    exact ((hown r).1 ((winner_eq_some hpairedOwn).1 hwinner).1).1
  have htake : (refs.filterMap (winner own)).take q.limit = refs.filterMap (winner own) := by
    apply List.take_of_length_le
    rw [← List.length_map (·.entityRef)]
    change (refsOf (refs.filterMap (winner own))).length ≤ q.limit
    rw [hrefs]
    exact List.length_take_le ..
  obtain ⟨hits, hhits, hhitRefs⟩ := hits_of fun r hr => hshown r (hmem r hr)
  refine ⟨entityPage { q with offset := k * q.limit } hits (distinctRefs rows).length, ?_, rfl, ?_⟩
  · unfold general
    have hconds : db.rows (generalConds sc { q with offset := k * q.limit }) = .ok rows := hrows
    have hkeep : keepInScope sc (refs.filterMap (winner own)) = .ok (refs.filterMap (winner own)) :=
      keep_asked fun r hr => hasked r (hmem r hr)
    refine of_bind hconds (of_bind hkeep ?_)
    rw [htake]
    exact of_bind hhits rfl
  · exact hhitRefs.trans hrefs

/-- In general, a walk is exact if and only if every matching row can be shown and the statement agrees with Python. -/
theorem general_exact_iff (hlimit : 1 ≤ q.limit) :
    WalkExact (fun listing offset => general db listing sc { q with offset := offset }) q.limit
        (distinctRefs (askedRows db sc q generalKind fun _ => true)) ↔
      (∀ r ∈ askedRows db sc q generalKind fun _ => true, Shown r) ∧ Agrees db sc q fun _ => true := by
  constructor
  · intro h
    by_cases hsc : sc = []
    · refine ⟨fun r hr => ?_, .inl hsc⟩
      cases hidentity : isIdentity r with
      | false => exact shown_entity hidentity
      | true =>
        obtain ⟨k, page, hpage, hfound⟩ := h.found plainListing (mem_distinctRefs.2 ⟨r, hr, rfl⟩)
        obtain ⟨rows, hrows, -, hhits⟩ := general_ok hpage
        have hsame : db.rows (generalConds sc q) = .ok (askedRows db sc q generalKind fun _ => true) :=
          Statement.select_filter fun r' hr' => by rw [generalConds_eval, verdict_of_agrees (.inl hsc) hr']
        have hrows' : db.rows (generalConds sc q) = .ok rows := hrows
        rw [hsame] at hrows'
        obtain rfl := Except.ok.inj hrows'
        obtain ⟨r', hwinner, hin, hr', href, hshown⟩ := hhits _ hfound
        obtain ⟨-, -, hk⟩ := (winner_eq_some (((paired_asked generalKind_paired).sublist List.filter_sublist).perm
          (byRef_perm plainListing _))).1 hwinner
        have hown := hk.resolve_right fun hnone => by
          have hnot := hnone r ((byRef_perm plainListing _).mem_iff.2 (List.mem_filter.2 ⟨hr, List.contains_iff_mem.2 hin⟩)) rfl
          rw [hidentity] at hnot
          cases hnot
        rwa [(paired_asked generalKind_paired).eq_of hr hr' href.symm (hidentity.trans hown.symm)]
    · exact agrees_of_walk hsc generalConds_eval (fun offset page hpage => by
        obtain ⟨rows, hrows, htotal, hhits⟩ := general_ok hpage
        refine ⟨rows, hrows, htotal, fun ref href => ?_⟩
        obtain ⟨r, -, -, hr, hre, hs⟩ := hhits ref href
        exact ⟨r, hr, hre, hs⟩) h
  · rintro ⟨hshown, hagree⟩
    refine .of_pages hlimit fun listing k => general_page ?_ hshown listing k
    exact Statement.select_filter fun r hr => by rw [generalConds_eval, verdict_of_agrees hagree hr]

/-! ## By alias -/

/-- The rows of canonicals that an alias is asked of. -/
def aliasKind (r : ScalarRow) : Bool := isEntityRow r || isIdentity r

/-- A row of a canonical with the alias. -/
def hasAlias (db : EntityTables) (aliasText : String) (r : ScalarRow) : Bool :=
  match aliasRefs db aliasText with
  | .ok refs => refs.contains r.entityRef
  | .error _ => false

theorem hasAlias_eq {aliasText : String} {refs : List String} (h : aliasRefs db aliasText = .ok refs) :
    hasAlias db aliasText = fun r => refs.contains r.entityRef := by
  funext r
  rw [hasAlias, h]

/-- Every ref of the rows is among the first ones. -/
def Fetches (n : ℕ) (rows : List ScalarRow) : Prop := ∀ ref ∈ refsOf rows, ref ∈ ((refsOf rows).insertionSort (· ≤ ·)).take n

theorem refsOf_fetched {listing : Listing} {n : ℕ} {rows : List ScalarRow} :
    refsOf (fetched listing n rows) = ((refsOf rows).insertionSort (· ≤ ·)).take n := by
  rw [fetched, ← refs_byRef listing rows]
  exact List.map_take

theorem fetches_iff {listing : Listing} {n : ℕ} {rows : List ScalarRow} :
    Fetches n rows ↔ distinctRefs (fetched listing n rows) = distinctRefs rows := by
  unfold Fetches
  rw [← @refsOf_fetched listing]
  constructor
  · intro h
    refine distinctRefs_congr fun ref => ⟨fun ⟨r, hr, href⟩ => ⟨r, mem_of_fetched hr, href⟩, fun hrow => ?_⟩
    exact mem_refsOf.1 (h ref (mem_refsOf.2 hrow))
  · intro h ref href
    rw [mem_refsOf, ← mem_distinctRefs, h, mem_distinctRefs, ← mem_refsOf]
    exact href

theorem Fetches.mono {m n : ℕ} {rows : List ScalarRow} (h : Fetches m rows) (hmn : m ≤ n) : Fetches n rows :=
  fun ref href => List.take_subset_take_left _ hmn (h ref href)

theorem aliasConds_eval (refs : List String) (r : ScalarRow) : (aliasConds sc q refs).allM (fun c : Cond ScalarRow => c r) =
    verdict sc q aliasKind (fun r => refs.contains r.entityRef) r :=
  conds_eval sc q aliasKind (fun r => by rw [allM_test]; cases refs.contains r.entityRef <;> rfl) r

theorem aliasKind_paired (r : ScalarRow) (h : aliasKind r = true) : isIdentity r = true ∨ isEntityRow r = true := by
  rw [aliasKind, Bool.or_eq_true] at h
  exact h.symm

/-- In a list in order, what is no greater than a member of the first ones is among them. -/
theorem mem_take_of_le {refs : List String} (hs : refs.Pairwise (· ≤ ·)) {m : ℕ} {a b : String} (ha : a ∈ refs) (hb : b ∈ refs.take m)
    (hle : a ≤ b) : a ∈ refs.take m := by
  rw [← List.take_append_drop m refs] at ha hs
  rcases List.mem_append.1 ha with ha | ha
  · exact ha
  · rwa [le_antisymm hle ((List.pairwise_append.1 hs).2.2 b hb a ha)]

/-- The rows of a ref on the page of the fetched rows are all fetched. -/
theorem mem_fetched_of_window {rows : List ScalarRow} (h : Paired rows) {listing : Listing} {n limit k : ℕ} (hn : 2 * (limit + k * limit) ≤ n)
    {r : ScalarRow} (hr : r ∈ rows) (hpage : r.entityRef ∈ window limit k (distinctRefs rows)) : r ∈ fetched listing n rows := by
  by_contra hout
  have hlength : (fetched listing n rows).length = n := by
    rw [fetched, List.length_take, min_eq_left]
    by_contra hshort
    apply hout
    rw [fetched, List.take_of_length_le (by omega)]
    exact (byRef_perm listing rows).mem_iff.2 hr
  -- with the row, there are more rows than the refs up to its own can have
  have hsub : (fetched listing n rows ++ [r]).Sublist (byRef listing rows) := by
    have hsplit := List.take_append_drop n (byRef listing rows)
    have hdrop : r ∈ (byRef listing rows).drop n := by
      have hmem := (byRef_perm listing rows).mem_iff.2 hr
      rw [← hsplit] at hmem
      exact (List.mem_append.1 hmem).resolve_left hout
    conv_rhs => rw [← hsplit]
    exact List.Sublist.append (List.Sublist.refl _) (List.singleton_sublist.2 hdrop)
  have hmany := length_le_refs ((h.perm (byRef_perm listing rows)).sublist hsub)
  have hfew : (distinctRefs (fetched listing n rows ++ [r])).length ≤ limit + k * limit := by
    have hfirst : r.entityRef ∈ (distinctRefs rows).take (limit + k * limit) := by
      rw [Nat.add_comm, List.take_add]
      exact List.mem_append_right _ hpage
    have hsubset : distinctRefs (fetched listing n rows ++ [r]) ⊆ (distinctRefs rows).take (limit + k * limit) := by
      intro ref href
      obtain ⟨r', hr', rfl⟩ := mem_distinctRefs.1 href
      rcases List.mem_append.1 hr' with hin | hlast
      · exact mem_take_of_le (sorted_distinctRefs _) (mem_distinctRefs.2 ⟨r', mem_of_fetched hin, rfl⟩) hfirst (fetched_le hin hr hout)
      · rw [List.mem_singleton.1 hlast]
        exact hfirst
    exact ((nodup_distinctRefs _).subperm hsubset).length_le.trans (List.length_take_le ..)
  rw [List.length_append, hlength, List.length_singleton] at hmany
  omega

/-- What the statement by alias selects is known; a call keeps and shows the rows that stand for the fetched refs. -/
theorem byAlias_ok {listing : Listing} {aliasText : String} {page : ProvenanceBearingPage} (h : byAlias db listing sc q aliasText = .ok page) :
    ∃ refs rows kept, aliasRefs db aliasText = .ok refs ∧ db.rows (aliasConds sc q refs) = .ok rows ∧
      keepInScope sc ((distinctRefs (fetched listing ((q.limit + q.offset) * 2 + 4) rows)).filterMap
        (winner (fetched listing ((q.limit + q.offset) * 2 + 4) rows))) = .ok kept ∧
      page.total = (if sc = [] then kept.length else (distinctRefs rows).length) ∧
      ∀ ref ∈ page.results.map (·.ref), ∃ r ∈ (kept.drop q.offset).take q.limit, r.entityRef = ref ∧ Shown r := by
  obtain ⟨refs, hrefs, h⟩ := bind_ok h
  obtain ⟨rows, hrows, h⟩ := bind_ok h
  obtain ⟨kept, hkept, h⟩ := bind_ok h
  obtain ⟨results, hresults, h⟩ := bind_ok h
  obtain rfl := Except.ok.inj h
  exact ⟨refs, rows, kept, hrefs, hrows, hkept, rfl, fun ref href => of_hits hresults href⟩

/-- A page by alias, where the statement selects the matching rows, and the fetched ones have every ref or are counted by the statement. -/
theorem byAlias_page {aliasText : String} {refs : List String} (hrefs : aliasRefs db aliasText = .ok refs)
    (hrows : db.rows (aliasConds sc q refs) = .ok (askedRows db sc q aliasKind fun r => refs.contains r.entityRef))
    (hshown : ∀ r ∈ askedRows db sc q aliasKind fun r => refs.contains r.entityRef, Shown r)
    (hfetch : sc = [] → Fetches (2 * q.limit + 4) (askedRows db sc q aliasKind fun r => refs.contains r.entityRef)) (listing : Listing) (k : ℕ) :
    ∃ page, byAlias db listing sc { q with offset := k * q.limit } aliasText = .ok page ∧
      page.total = (distinctRefs (askedRows db sc q aliasKind fun r => refs.contains r.entityRef)).length ∧
      page.results.map (·.ref) = window q.limit k (distinctRefs (askedRows db sc q aliasKind fun r => refs.contains r.entityRef)) := by
  generalize hlist : askedRows db sc q aliasKind (fun r => refs.contains r.entityRef) = rows at hrows hshown hfetch ⊢
  have hasked : ∀ r ∈ rows, asked sc q aliasKind (fun r => refs.contains r.entityRef) r = true := fun r hr => (mem_askedRows.1 (hlist ▸ hr)).2
  have hpaired : Paired rows := hlist ▸ paired_asked aliasKind_paired
  let n := (q.limit + k * q.limit) * 2 + 4
  let own := fetched listing n rows
  have hpairedOwn : Paired own := (hpaired.perm (byRef_perm listing rows)).sublist (List.take_sublist ..)
  have hbest : refsOf ((distinctRefs own).filterMap (winner own)) = distinctRefs own :=
    refs_winners hpairedOwn fun ref href => mem_distinctRefs.1 href
  have hmem : ∀ r ∈ (distinctRefs own).filterMap (winner own), r ∈ rows := by
    intro r hr
    obtain ⟨ref, -, hwinner⟩ := List.mem_filterMap.1 hr
    exact mem_of_fetched ((winner_eq_some hpairedOwn).1 hwinner).1
  have hkeep : keepInScope sc ((distinctRefs own).filterMap (winner own)) = .ok ((distinctRefs own).filterMap (winner own)) :=
    keep_asked fun r hr => hasked r (hmem r hr)
  obtain ⟨hits, hhits, hhitRefs⟩ := @hits_of (window q.limit k ((distinctRefs own).filterMap (winner own)))
    fun r hr => hshown r (hmem r (List.mem_of_mem_drop (List.mem_of_mem_take hr)))
  have hcount : (refsOf ((distinctRefs own).filterMap (winner own))).length = ((distinctRefs own).filterMap (winner own)).length :=
    List.length_map ..
  refine ⟨_, of_bind hrefs (of_bind hrows (of_bind hkeep (of_bind hhits rfl))), ?_, ?_⟩
  · change (if sc = [] then ((distinctRefs own).filterMap (winner own)).length else (distinctRefs rows).length) = (distinctRefs rows).length
    split
    · rename_i hsc
      rw [← hcount, hbest, fetches_iff.1 ((hfetch hsc).mono _)]
      omega
    · rfl
  · change hits.map (·.ref) = _
    rw [hhitRefs, refsOf, ← map_window]
    change window q.limit k (refsOf ((distinctRefs own).filterMap (winner own))) = _
    rw [hbest]
    exact window_fetched hpaired (by omega)

/-- A page by alias without a scope: the fetched refs are counted, and the results are of rows that stand for refs of the page. -/
theorem byAlias_unscoped {listing : Listing} {aliasText : String} {refs : List String} (hrefs : aliasRefs db aliasText = .ok refs)
    {rows : List ScalarRow} (hlist : askedRows db [] q aliasKind (fun r => refs.contains r.entityRef) = rows) {k : ℕ}
    {page : ProvenanceBearingPage} (h : byAlias db listing [] { q with offset := k * q.limit } aliasText = .ok page) :
    page.total = (distinctRefs (fetched listing ((q.limit + k * q.limit) * 2 + 4) rows)).length ∧
      ∀ ref ∈ page.results.map (·.ref), ref ∈ window q.limit k (distinctRefs rows) ∧
        ∃ r, winner (fetched listing ((q.limit + k * q.limit) * 2 + 4) rows) ref = some r ∧ Shown r := by
  have hpaired : Paired rows := hlist ▸ paired_asked aliasKind_paired
  obtain ⟨refs', rows', kept, hrefs', hrows', hkept, hcount, hhits⟩ := byAlias_ok h
  obtain rfl : refs = refs' := Except.ok.inj (hrefs.symm.trans hrefs')
  have hsame : db.rows (aliasConds [] q refs) = .ok rows :=
    hlist ▸ Statement.select_filter fun r hr => by rw [aliasConds_eval, verdict_of_agrees (.inl rfl) hr]
  obtain rfl : rows = rows' := Except.ok.inj (hsame.symm.trans hrows')
  obtain rfl := Except.ok.inj ((keep_unscoped _).symm.trans hkept)
  have hpairedOwn : Paired (fetched listing ((q.limit + k * q.limit) * 2 + 4) rows) :=
    (hpaired.perm (byRef_perm listing rows)).sublist (List.take_sublist ..)
  have hbest : refsOf ((distinctRefs (fetched listing ((q.limit + k * q.limit) * 2 + 4) rows)).filterMap
      (winner (fetched listing ((q.limit + k * q.limit) * 2 + 4) rows))) =
        distinctRefs (fetched listing ((q.limit + k * q.limit) * 2 + 4) rows) :=
    refs_winners hpairedOwn fun ref href => mem_distinctRefs.1 href
  constructor
  · rw [hcount, if_pos rfl, ← List.length_map (·.entityRef)]
    exact congrArg List.length hbest
  · intro ref href
    obtain ⟨r, hr, rfl, hshown⟩ := hhits ref href
    constructor
    · rw [← @window_fetched _ listing ((q.limit + k * q.limit) * 2 + 4) hpaired _ _ (by omega), ← hbest, refsOf, map_window]
      exact List.mem_map_of_mem hr
    · obtain ⟨ref', -, hwinner⟩ := List.mem_filterMap.1 (List.mem_of_mem_drop (List.mem_of_mem_take hr))
      obtain rfl := (mem_of_winner hwinner).2
      exact ⟨r, hwinner, hshown⟩

/-- By alias, a walk is exact if and only if the alias can be looked up, every matching row can be shown, the statement agrees with
Python, and without a scope the rows fetched for the first page have every ref. -/
theorem byAlias_exact_iff (hlimit : 1 ≤ q.limit) (aliasText : String) :
    WalkExact (fun listing offset => byAlias db listing sc { q with offset := offset } aliasText) q.limit
        (distinctRefs (askedRows db sc q aliasKind (hasAlias db aliasText))) ↔
      (∃ refs, aliasRefs db aliasText = .ok refs) ∧ (∀ r ∈ askedRows db sc q aliasKind (hasAlias db aliasText), Shown r) ∧
        Agrees db sc q (hasAlias db aliasText) ∧
        (sc = [] → Fetches (2 * q.limit + 4) (askedRows db sc q aliasKind (hasAlias db aliasText))) := by
  constructor
  · intro h
    obtain ⟨page, hpage, htotal⟩ := h.page plainListing 0
    obtain ⟨refs, rows, kept, hrefs, hrows, hkept, hcount, -⟩ := byAlias_ok hpage
    refine ⟨⟨refs, hrefs⟩, ?_⟩
    rw [hasAlias_eq hrefs] at h htotal ⊢
    by_cases hsc : sc = []
    · subst hsc
      have hpaired : Paired (askedRows db [] q aliasKind fun r => refs.contains r.entityRef) := paired_asked aliasKind_paired
      refine ⟨fun r hr => ?_, .inl rfl, fun _ => ?_⟩
      · cases hidentity : isIdentity r with
        | false => exact shown_entity hidentity
        | true =>
          obtain ⟨k, page, hpage, hfound⟩ := h.found plainListing (mem_distinctRefs.2 ⟨r, hr, rfl⟩)
          obtain ⟨hin, r', hwinner, hshown⟩ := (byAlias_unscoped hrefs rfl hpage).2 _ hfound
          obtain ⟨hr', href', hk⟩ := (winner_eq_some ((hpaired.perm (byRef_perm plainListing _)).sublist (List.take_sublist ..))).1 hwinner
          -- the identity row is fetched too, so it is the one that stands for the ref
          have hfetched := @mem_fetched_of_window _ hpaired plainListing ((q.limit + k * q.limit) * 2 + 4) _ _ (by omega) _ hr hin
          have hown := hk.resolve_right fun hnone => by
            rw [hnone r hfetched rfl] at hidentity
            cases hidentity
          rwa [hpaired.eq_of hr (mem_of_fetched hr') href'.symm (hidentity.trans hown.symm)]
      · have hlength := (byAlias_unscoped hrefs rfl hpage).1
        rw [htotal, show (q.limit + 0 * q.limit) * 2 + 4 = 2 * q.limit + 4 by omega] at hlength
        exact fetches_iff.2 (distinctRefs_fetched.eq_of_length hlength.symm)
    · obtain ⟨hshown, hagree⟩ := agrees_of_walk hsc (aliasConds_eval refs) (fun offset page hpage => by
        obtain ⟨refs', rows, kept, hrefs', hrows, hkept, htotal, hhits⟩ := byAlias_ok hpage
        rw [hrefs] at hrefs'
        obtain rfl := Except.ok.inj hrefs'
        rw [if_neg hsc] at htotal
        refine ⟨rows, hrows, htotal, fun ref href => ?_⟩
        obtain ⟨r, hr, hre, hs⟩ := hhits ref href
        obtain ⟨ref', -, hwinner⟩ := List.mem_filterMap.1 ((Statement.mem_select hkept).1 (List.mem_of_mem_drop (List.mem_of_mem_take hr))).1
        exact ⟨r, mem_of_fetched (mem_of_winner hwinner).1, hre, hs⟩) h
      exact ⟨hshown, hagree, fun hnil => absurd hnil hsc⟩
  · rintro ⟨⟨refs, hrefs⟩, hshown, hagree, hfetch⟩
    rw [hasAlias_eq hrefs] at hshown hagree hfetch ⊢
    refine .of_pages hlimit fun listing k => byAlias_page hrefs ?_ hshown hfetch listing k
    exact Statement.select_filter fun r hr => by rw [aliasConds_eval, verdict_of_agrees hagree hr]

/-! ## By name -/

variable {lower : String → String}

/-- The scope in the statement can be evaluated for the active identities, and that in Python for those it lets through; it lets
through every identity of the label that is in scope. -/
def LetsThrough (lower : String → String) (db : EntityTables) (sc : Scope) (q : StructuredQuery) : Prop :=
  sc = [] ∨ ∀ r ∈ db.states, active q r = true → isIdentity r = true → ∃ b, membershipScopePred sc r = .ok b ∧
    (b = true → ∃ b', inMembershipScope sc r = .ok b') ∧ (labelled lower q r = true → reallyInScope sc r = true → b = true)

/-- The conditions by name. -/
def nameConds (sc : Scope) (q : StructuredQuery) : List (Cond ScalarRow) :=
  base q ++ test isIdentity :: (if sc = [] then [] else scopeConds sc)

theorem nameConds_eval (r : ScalarRow) : (nameConds sc q).allM (fun c : Cond ScalarRow => c r) = verdict sc q isIdentity (fun _ => true) r := by
  unfold nameConds verdict
  rw [allM_append, base_eval]
  cases active q r with
  | false => rfl
  | true =>
    dsimp only [Except.bind]
    rw [if_pos rfl, if_pos rfl, allM_test]
    by_cases hsc : sc = []
    · rw [if_pos hsc, if_pos hsc]
      cases isIdentity r <;> rfl
    · rw [if_neg hsc, if_neg hsc]
      unfold scopeConds
      rw [allM_test]
      cases isIdentity r with
      | false => rfl
      | true =>
        rw [if_pos rfl, if_pos rfl, if_pos rfl, allM_cons]
        cases membershipScopePred sc r with
        | error e => rfl
        | ok b => cases b <;> rfl

/-- The identities of a call by name, in the order of their refs. -/
def namedRows (lower : String → String) (q : StructuredQuery) (rows : List ScalarRow) : List ScalarRow :=
  (rows.filter (labelled lower q)).insertionSort fun r r' => r.entityRef ≤ r'.entityRef

theorem byName_ok {listing : Listing} {page : ProvenanceBearingPage} (h : byName lower db listing sc q = .ok page) :
    ∃ rows kept, db.rows (nameConds sc q) = .ok rows ∧ keepInScope sc (listing.list rows) = .ok kept ∧
      page.total = (namedRows lower q kept).length ∧
      ∀ ref ∈ page.results.map (·.ref), ∃ r ∈ namedRows lower q kept, r.entityRef = ref ∧ Shown r := by
  obtain ⟨rows, hrows, h⟩ := bind_ok h
  obtain ⟨kept, hkept, h⟩ := bind_ok h
  obtain ⟨results, hresults, h⟩ := bind_ok h
  obtain rfl := Except.ok.inj h
  refine ⟨rows, kept, hrows, hkept, rfl, fun ref href => ?_⟩
  obtain ⟨r, hr, hre⟩ := of_hits hresults href
  exact ⟨r, List.mem_of_mem_drop (List.mem_of_mem_take hr), hre⟩

theorem identity_of_verdict {r : ScalarRow} (h : verdict sc q isIdentity (fun _ => true) r = .ok true) :
    active q r = true ∧ isIdentity r = true := by
  unfold verdict at h
  cases hactive : active q r <;> cases hidentity : isIdentity r <;> simp_all

/-- What a call by name keeps are the matching rows that the statement lets through. -/
theorem mem_namedRows {listing : Listing} {rows kept : List ScalarRow} (hrows : db.rows (nameConds sc q) = .ok rows)
    (hkept : keepInScope sc (listing.list rows) = .ok kept) {r : ScalarRow} :
    r ∈ namedRows lower q kept ↔ r ∈ askedRows db sc q isIdentity (labelled lower q) ∧ r ∈ rows := by
  unfold namedRows
  rw [List.mem_insertionSort, List.mem_filter, Statement.mem_select hkept, (listing.perm rows).mem_iff, mem_askedRows,
    Statement.mem_select hrows, nameConds_eval, allM_inScope]
  constructor
  · rintro ⟨⟨⟨hr, hverdict⟩, hscope⟩, hlabel⟩
    obtain ⟨hactive, hidentity⟩ := identity_of_verdict hverdict
    refine ⟨⟨hr, ?_⟩, hr, hverdict⟩
    unfold asked
    rw [hactive, hidentity, hlabel, reallyInScope_iff.2 hscope]
    split <;> rfl
  · rintro ⟨⟨hr, hasked⟩, -, hverdict⟩
    exact ⟨⟨⟨hr, hverdict⟩, asked_inScope hasked⟩, asked_post hasked⟩

/-- The refs of the identities of a call, in order and without repetition. -/
theorem refs_namedRows {listing : Listing} {rows kept : List ScalarRow} (hrows : db.rows (nameConds sc q) = .ok rows)
    (hkept : keepInScope sc (listing.list rows) = .ok kept) :
    refsOf (namedRows lower q kept) = distinctRefs (namedRows lower q kept) := by
  have hkeys : ((namedRows lower q kept).map fun r => (r.entityRef, r.predicate)).Nodup := by
    refine ((List.perm_insertionSort _ _).map _).nodup_iff.2 (List.Nodup.sublist (List.filter_sublist.map _) ?_)
    refine List.Nodup.sublist ((Statement.select_sublist hkept).map _) (((listing.perm rows).map _).nodup_iff.2 ?_)
    exact db.stateKeys.sublist ((Statement.select_sublist hrows).map _)
  have hnodup : (refsOf (namedRows lower q kept)).Nodup := by
    refine List.Nodup.map_on (fun r hr r' hr' href => eq_of_key hkeys hr hr' (Prod.ext href ?_)) (List.Nodup.of_map _ hkeys)
    have hidentity : ∀ r ∈ namedRows lower q kept, r.predicate = canonicalIdentity := by
      intro r hr
      have hverdict := ((Statement.mem_select hrows).1 ((mem_namedRows hrows hkept).1 hr).2).2
      rw [nameConds_eval] at hverdict
      exact of_decide_eq_true (identity_of_verdict hverdict).2
    rw [hidentity r hr, hidentity r' hr']
  have hsorted : (refsOf (namedRows lower q kept)).Pairwise (· ≤ ·) := by
    have htotal : Std.Total fun r r' : ScalarRow => r.entityRef ≤ r'.entityRef := ⟨fun r r' => le_total ..⟩
    have htrans : IsTrans ScalarRow fun r r' => r.entityRef ≤ r'.entityRef := ⟨fun _ _ _ h h' => le_trans h h'⟩
    exact List.pairwise_map.2 (List.pairwise_insertionSort ..)
  exact sorted_ext hnodup (nodup_distinctRefs _) hsorted (sorted_distinctRefs _) fun ref => mem_refsOf.trans mem_distinctRefs.symm

/-- A page by name, where every identity the statement lets through can be tested. -/
theorem byName_page {rows : List ScalarRow} (hrows : db.rows (nameConds sc q) = .ok rows) (htested : ∀ r ∈ rows, ∃ b, inMembershipScope sc r = .ok b)
    (hall : ∀ r ∈ askedRows db sc q isIdentity (labelled lower q), r ∈ rows)
    (hshown : ∀ r ∈ askedRows db sc q isIdentity (labelled lower q), Shown r) (listing : Listing) (k : ℕ) :
    ∃ page, byName lower db listing sc { q with offset := k * q.limit } = .ok page ∧
      page.total = (distinctRefs (askedRows db sc q isIdentity (labelled lower q))).length ∧
      page.results.map (·.ref) = window q.limit k (distinctRefs (askedRows db sc q isIdentity (labelled lower q))) := by
  obtain ⟨kept, hkept⟩ := @Statement.select_total _ [inMembershipScope sc] (listing.list rows) fun r hr => by
    rw [allM_inScope]
    exact htested r ((listing.perm rows).mem_iff.1 hr)
  have hrefs : refsOf (namedRows lower q kept) = distinctRefs (askedRows db sc q isIdentity (labelled lower q)) := by
    rw [refs_namedRows hrows hkept]
    refine distinctRefs_congr fun ref => exists_congr fun r => and_congr_left fun _ => ?_
    rw [mem_namedRows hrows hkept]
    exact and_iff_left_of_imp (hall r)
  obtain ⟨hits, hhits, hhitRefs⟩ := @hits_of (window q.limit k (namedRows lower q kept)) fun r hr =>
    hshown r ((mem_namedRows hrows hkept).1 (List.mem_of_mem_drop (List.mem_of_mem_take hr))).1
  refine ⟨_, of_bind hrows (of_bind hkept (of_bind hhits rfl)), ?_, ?_⟩
  · rw [← hrefs]
    exact (List.length_map _).symm
  · rw [← hrefs, refsOf, map_window]
    exact hhitRefs

/-- By name, a walk is exact if and only if every matching row can be shown, and the statement lets through what Python keeps. -/
theorem byName_exact_iff (hlimit : 1 ≤ q.limit) :
    WalkExact (fun listing offset => byName lower db listing sc { q with offset := offset }) q.limit
        (distinctRefs (askedRows db sc q isIdentity (labelled lower q))) ↔
      (∀ r ∈ askedRows db sc q isIdentity (labelled lower q), Shown r) ∧ LetsThrough lower db sc q := by
  constructor
  · intro h
    obtain ⟨page, hpage, -⟩ := h.page plainListing 0
    obtain ⟨rows, kept, hselect, hkept, -⟩ := byName_ok hpage
    have hrows : db.rows (nameConds sc q) = .ok rows := hselect
    have hfound : ∀ r ∈ askedRows db sc q isIdentity (labelled lower q), r ∈ rows ∧ Shown r := by
      intro r hr
      obtain ⟨k, page', hpage', href⟩ := h.found plainListing (mem_distinctRefs.2 ⟨r, hr, rfl⟩)
      obtain ⟨rows', kept', hrows', hkept', -, hresults⟩ := byName_ok hpage'
      obtain rfl : rows = rows' := Except.ok.inj (hrows.symm.trans hrows')
      obtain ⟨r', hr', href', hshown⟩ := hresults _ href
      obtain ⟨hasked, hin⟩ := (mem_namedRows hrows hkept').1 hr'
      obtain rfl := (paired_asked fun _ => .inl).eq_of hasked hr href' 
        ((asked_identity (mem_askedRows.1 hasked).2).trans (asked_identity (mem_askedRows.1 hr).2).symm)
      exact ⟨hin, hshown⟩
    refine ⟨fun r hr => (hfound r hr).2, or_iff_not_imp_left.2 fun hsc r hr hactive hidentity => ?_⟩
    obtain ⟨b, hb⟩ := Statement.select_evaluates hrows r hr
    rw [nameConds_eval, verdict, if_neg hsc, if_pos hactive, if_pos hidentity] at hb
    obtain ⟨b', hb', -⟩ := map_eq_ok.1 hb
    have hin : r ∈ rows ↔ b' = true := by
      rw [Statement.mem_select hrows, nameConds_eval, verdict, if_neg hsc, if_pos hactive, if_pos hidentity, hb', and_iff_right hr]
      cases b' <;> decide
    refine ⟨b', hb', fun htrue => ?_, fun hlabel hscope => ?_⟩
    · obtain ⟨b'', hb''⟩ := Statement.select_evaluates hkept r ((plainListing.perm rows).mem_iff.2 (hin.2 htrue))
      rw [allM_inScope] at hb''
      exact ⟨b'', hb''⟩
    · refine hin.1 (hfound r (mem_askedRows.2 ⟨hr, ?_⟩)).1
      unfold asked
      rw [hactive, if_neg hsc, hidentity, hscope, hlabel]
      rfl
  · rintro ⟨hshown, hthrough⟩
    have hevaluates : ∀ r ∈ db.states, ∃ b, (nameConds sc q).allM (fun c : Cond ScalarRow => c r) = .ok b := by
      intro r hr
      rw [nameConds_eval, verdict]
      cases hactive : active q r with
      | false => exact ⟨false, rfl⟩
      | true =>
        by_cases hsc : sc = []
        · exact ⟨isIdentity r && true, by rw [if_pos rfl, if_pos hsc]⟩
        · rw [if_pos rfl, if_neg hsc]
          cases hidentity : isIdentity r with
          | false => exact ⟨false, rfl⟩
          | true =>
            obtain ⟨b, hb, -⟩ := hthrough.resolve_left hsc r hr hactive hidentity
            exact ⟨b && true, by rw [if_pos rfl, hb]; rfl⟩
    obtain ⟨rows, hrows⟩ := Statement.select_total hevaluates
    have hpred : ∀ r ∈ db.states, active q r = true → isIdentity r = true → (r ∈ rows ↔ sc = [] ∨ membershipScopePred sc r = .ok true) := by
      intro r hr hactive hidentity
      rw [Statement.mem_select hrows, nameConds_eval, verdict, if_pos hactive, and_iff_right hr]
      by_cases hsc : sc = []
      · rw [if_pos hsc, hidentity]
        exact ⟨fun _ => .inl hsc, fun _ => rfl⟩
      · rw [if_neg hsc, if_pos hidentity, or_iff_right hsc]
        cases membershipScopePred sc r with
        | error e => exact ⟨fun h => (by cases h), fun h => (by cases h)⟩
        | ok b => cases b <;> decide
    refine .of_pages hlimit fun listing k => byName_page hrows (fun r hr => ?_) (fun r hr => ?_) hshown listing k
    · obtain ⟨hstate, hverdict⟩ := (Statement.mem_select hrows).1 hr
      rw [nameConds_eval] at hverdict
      obtain ⟨hactive, hidentity⟩ := identity_of_verdict hverdict
      by_cases hsc : sc = []
      · exact ⟨true, by rw [hsc]; rfl⟩
      · obtain ⟨b, hb, hkept, -⟩ := hthrough.resolve_left hsc r hstate hactive hidentity
        have htrue := ((hpred r hstate hactive hidentity).1 hr).resolve_left hsc
        rw [hb, Except.ok.injEq] at htrue
        exact hkept htrue
    · obtain ⟨hstate, hasked⟩ := mem_askedRows.1 hr
      have hidentity := asked_identity hasked
      have hactive := asked_active hasked
      rw [hpred r hstate hactive hidentity]
      refine or_iff_not_imp_left.2 fun hsc => ?_
      obtain ⟨b, hb, -, hlets⟩ := hthrough.resolve_left hsc r hstate hactive hidentity
      rw [hb, hlets (asked_post hasked) (reallyInScope_iff.2 (asked_inScope hasked))]

end Branches

/-! ## Entity queries -/

/-- A name or a part of one is asked for. -/
def asksName (q : StructuredQuery) : Bool := (q.filters.lookup "name").isSome || (fuzzyName q).isSome

/-- The rows that match an entity query. -/
def matchingRows (lower : String → String) (db : EntityTables) (sc : Scope) (q : StructuredQuery) : List ScalarRow :=
  if asksName q then askedRows db sc q isIdentity (labelled lower q)
  else
    match q.filters.lookup "alias" with
    | some aliasText => askedRows db sc q aliasKind (hasAlias db aliasText)
    | none => askedRows db sc q generalKind fun _ => true

/-- What an entity query rests on: every matching row can be shown, and the statement and Python read a scope the same way. By alias,
the alias can be looked up, and without a scope the rows fetched for the first page have every ref. -/
def EntitiesInStep (lower : String → String) (db : EntityTables) (sc : Scope) (q : StructuredQuery) : Prop :=
  (∀ r ∈ matchingRows lower db sc q, Shown r) ∧
    if asksName q then LetsThrough lower db sc q
    else
      match q.filters.lookup "alias" with
      | some aliasText => (∃ refs, aliasRefs db aliasText = .ok refs) ∧ Agrees db sc q (hasAlias db aliasText) ∧
          (sc = [] → Fetches (2 * q.limit + 4) (matchingRows lower db sc q))
      | none => Agrees db sc q fun _ => true

section Entities

variable {lower : String → String} {db : EntityTables} {sc : Scope} {q : StructuredQuery}

theorem entities_eq (hscope : scope q false false false = .ok ()) (hsc : membershipScope q = .ok sc) (listing : Listing) (offset : ℕ) :
    entities lower db listing { q with offset := offset } =
      if asksName q then byName lower db listing sc { q with offset := offset }
      else
        match q.filters.lookup "alias" with
        | some aliasText => byAlias db listing sc { q with offset := offset } aliasText
        | none => general db listing sc { q with offset := offset } := by
  have hscope' : scope { q with offset := offset } false false false = .ok () := hscope
  have hsc' : membershipScope { q with offset := offset } = .ok sc := hsc
  unfold entities
  rw [hscope', hsc']
  rfl

/-- The pages of an entity query return each matching ref once, in order and with the right total, if and only if the statement
and Python are in step on it. -/
theorem entities_exact_iff (hlimit : 1 ≤ q.limit) (hscope : scope q false false false = .ok ()) (hsc : membershipScope q = .ok sc) :
    WalkExact (fun listing offset => entities lower db listing { q with offset := offset }) q.limit (distinctRefs (matchingRows lower db sc q)) ↔
      EntitiesInStep lower db sc q := by
  simp only [entities_eq hscope hsc]
  unfold EntitiesInStep matchingRows
  cases asksName q with
  | true => exact byName_exact_iff hlimit
  | false =>
    cases q.filters.lookup "alias" with
    | some aliasText => exact (byAlias_exact_iff hlimit aliasText).trans and_left_comm
    | none => exact general_exact_iff hlimit

end Entities

/-- An identity of the alias. -/
def namesake (ref : String) : ScalarRow where
  entityRef := ref
  predicate := canonicalIdentity
  objectRef := some "\x7b\"aliases\": [\"Alex\"]\x7d"
  confidence := .null
  authority := .null
  state := .str "CONFIRMED"
  seq := 1

def sevenNamesakes : EntityTables where
  states := ["c:1", "c:2", "c:3", "c:4", "c:5", "c:6", "c:7"].map namesake
  entityMap := []
  events := []
  stateKeys := by decide

def byAlex (limit : ℕ) : StructuredQuery := { kind := "ENTITY", filters := [("alias", "Alex")], limit := limit }

theorem shown_of_isOk {r : ScalarRow} (h : (entityHit r).isOk = true) : Shown r := by
  unfold Shown
  cases hhit : entityHit r with
  | error e =>
    rw [hhit] at h
    cases h
  | ok hit => exact ⟨hit, rfl⟩

/-- With pages of five, the rows of all the namesakes are fetched for the first. -/
theorem entities_exact_namesakes : WalkExact (fun listing offset => entities id sevenNamesakes listing { byAlex 5 with offset := offset }) 5
    ["c:1", "c:2", "c:3", "c:4", "c:5", "c:6", "c:7"] := by
  have hrefs : distinctRefs (matchingRows id sevenNamesakes [] (byAlex 5)) = ["c:1", "c:2", "c:3", "c:4", "c:5", "c:6", "c:7"] := by
    decide +kernel
  have hshown : ∀ r ∈ matchingRows id sevenNamesakes [] (byAlex 5), (entityHit r).isOk = true := by decide +kernel
  have hfetch : Fetches 14 (matchingRows id sevenNamesakes [] (byAlex 5)) := by
    unfold Fetches
    decide +kernel
  have hlookup : (aliasRefs sevenNamesakes "Alex").isOk = true := by decide +kernel
  rw [← hrefs]
  refine (entities_exact_iff (by decide) rfl rfl).2 ⟨fun r hr => shown_of_isOk (hshown r hr), ?_, .inl rfl, fun _ => hfetch⟩
  cases hrefs : aliasRefs sevenNamesakes "Alex" with
  | error e =>
    rw [hrefs] at hlookup
    cases hlookup
  | ok refs => exact ⟨refs, rfl⟩

/-- Pages of one: the rows that are fetched for the first have six of the namesakes, which is its total. -/
theorem entities_miscount : ¬ ∀ (lower : String → String) (db : EntityTables) (sc : Scope) (q : StructuredQuery), 1 ≤ q.limit →
    scope q false false false = .ok () → membershipScope q = .ok sc →
      WalkExact (fun listing offset => entities lower db listing { q with offset := offset }) q.limit
        (distinctRefs (matchingRows lower db sc q)) := by
  intro hall
  obtain ⟨page, hpage, htotal⟩ := (hall id sevenNamesakes [] (byAlex 1) (le_refl 1) rfl rfl).page plainListing 0
  have hsix : (entities id sevenNamesakes plainListing (byAlex 1)).map (·.total) = .ok 6 := by decide +kernel
  have hseven : (distinctRefs (matchingRows id sevenNamesakes [] (byAlex 1))).length = 7 := by decide +kernel
  have hpage' : entities id sevenNamesakes plainListing (byAlex 1) = .ok page := hpage
  rw [hpage', Except.map, htotal, hseven] at hsix
  cases hsix

end Umd.Query
