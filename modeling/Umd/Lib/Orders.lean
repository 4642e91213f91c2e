import Umd.Lib.Python
/-!
# Lists in any order

What does not depend on the order a list comes in: a sort by an order that tells
its elements apart, a search that only one element answers, a dictionary whose
keys are stored once, steps that may fail.
-/

namespace Umd.Lib

/-- A sort by an order that tells the elements apart. -/
theorem insertionSort_perm {α : Type} {r : α → α → Prop} [DecidableRel r] [Std.Total r] [IsTrans α r] {xs ys : List α}
    (h : xs.Perm ys) (anti : ∀ a ∈ xs, ∀ b ∈ xs, r a b → r b a → a = b) : xs.insertionSort r = ys.insertionSort r := by
  have hperm := (xs.perm_insertionSort r).trans (h.trans (ys.perm_insertionSort r).symm)
  refine List.Perm.eq_of_pairwise (fun a b ha hb => ?_) (List.pairwise_insertionSort r xs) (List.pairwise_insertionSort r ys) hperm
  exact anti a ((List.mem_insertionSort r).1 ha) b (h.mem_iff.2 ((List.mem_insertionSort r).1 hb))

/-- A search that one element answers at most. -/
theorem find?_perm {α : Type} {p : α → Bool} {xs ys : List α} (h : xs.Perm ys)
    (one : ∀ a ∈ xs, ∀ b ∈ xs, p a = true → p b = true → a = b) : xs.find? p = ys.find? p := by
  cases hx : xs.find? p with
  | none =>
    refine (List.find?_eq_none.2 fun y hy => ?_).symm
    exact List.find?_eq_none.1 hx y (h.mem_iff.2 hy)
  | some a =>
    have ha : a ∈ xs := List.mem_of_find?_eq_some hx
    have hpa : p a = true := List.find?_some hx
    obtain ⟨b, hb⟩ := Option.isSome_iff_exists.1 (List.find?_isSome.2 ⟨a, h.mem_iff.1 ha, hpa⟩)
    have hb' : b ∈ xs := h.mem_iff.2 (List.mem_of_find?_eq_some hb)
    rw [hb, one a ha b hb' hpa (List.find?_some hb)]

/-- Elements of a list that have one key are one, where the keys are listed once. -/
theorem eq_of_key {α κ : Type} {f : α → κ} {xs : List α} (hn : (xs.map f).Nodup) {a b : α} (ha : a ∈ xs) (hb : b ∈ xs)
    (h : f a = f b) : a = b := List.inj_on_of_nodup_map hn ha hb h

theorem lastValue_perm {κ α : Type} [DecidableEq κ] {ps qs : List (κ × α)} (h : ps.Perm qs) (hn : (ps.map (·.1)).Nodup) (k : κ) :
    lastValue ps k = lastValue qs k := by
  unfold lastValue
  have hperm : ps.reverse.Perm qs.reverse := (ps.reverse_perm.trans h).trans qs.reverse_perm.symm
  rw [find?_perm hperm]
  intro a ha b hb hpa hpb
  refine eq_of_key hn (List.mem_reverse.1 ha) (List.mem_reverse.1 hb) ?_
  rw [of_decide_eq_true hpa, of_decide_eq_true hpb]

/-- The value of a key that is stored once. -/
theorem lastValue_of_mem {κ α : Type} [DecidableEq κ] {ps : List (κ × α)} (hn : (ps.map (·.1)).Nodup) {k : κ} {a : α}
    (h : (k, a) ∈ ps) : lastValue ps k = some a := by
  obtain ⟨b, hb⟩ := lastValue_isSome (List.mem_map.2 ⟨_, h, rfl⟩)
  have heq : (k, b) = (k, a) := eq_of_key hn (lastValue_mem hb) h rfl
  rw [hb, (Prod.mk.inj heq).2]

theorem firsts_perm {κ : Type} [DecidableEq κ] {ks ls : List κ} (h : ks.Perm ls) : (firsts ks).Perm (firsts ls) :=
  (List.perm_ext_iff_of_nodup (nodup_firsts ks) (nodup_firsts ls)).2 fun k => by rw [mem_firsts, mem_firsts, h.mem_iff]

theorem firsts_nodup {κ : Type} [DecidableEq κ] {ks : List κ} (h : ks.Nodup) : firsts ks = ks := by
  rw [firsts, (List.nodup_reverse.2 h).dedup, List.reverse_reverse]

theorem map_eq_ok {α β ε : Type} {f : α → β} {x : Except ε α} {b : β} : x.map f = .ok b ↔ ∃ a, x = .ok a ∧ f a = b := by
  cases x with
  | error e => exact ⟨nofun, nofun⟩
  | ok a => exact ⟨fun h => ⟨a, rfl, Except.ok.inj h⟩, fun ⟨_, ha, hb⟩ => Except.ok.inj ha ▸ congrArg _ hb⟩

/-- What a sequence of two gives where both succeed. -/
theorem of_bind {α β ε : Type} {x : Except ε α} {f : α → Except ε β} {a : α} {b : β} (hx : x = .ok a) (hf : f a = .ok b) :
    x >>= f = .ok b := by
  rw [hx]
  exact hf

theorem mapM_cons_ok {α β ε : Type} {f : α → Except ε β} {x : α} {xs : List α} {ys : List β} :
    (x :: xs).mapM f = .ok ys ↔ ∃ y zs, f x = .ok y ∧ xs.mapM f = .ok zs ∧ ys = y :: zs := by
  rw [List.mapM_cons]
  constructor
  · intro hok
    cases hx : f x with
    | error e => rw [hx] at hok; cases hok
    | ok y =>
      cases hxs : xs.mapM f with
      | error e => rw [hx, hxs] at hok; cases hok
      | ok zs =>
        rw [hx, hxs] at hok
        cases hok
        exact ⟨y, zs, rfl, rfl, rfl⟩
  · rintro ⟨y, zs, hx, hxs, rfl⟩
    rw [hx, hxs]
    rfl

/-- Steps that give the same where they do not fail. -/
theorem mapM_imp {α β ε : Type} {f g : α → Except ε β} : ∀ {xs : List α} {ys : List β},
    (∀ x ∈ xs, ∀ y, f x = .ok y → g x = .ok y) → xs.mapM f = .ok ys → xs.mapM g = .ok ys := by
  intro xs
  induction xs with
  | nil => exact fun _ hok => hok
  | cons x xs ih =>
    intro ys hfg hok
    obtain ⟨y, zs, hx, hxs, rfl⟩ := mapM_cons_ok.1 hok
    exact mapM_cons_ok.2 ⟨y, zs, hfg x (.head _) y hx, ih (fun z hz => hfg z (.tail _ hz)) hxs, rfl⟩

/-- Steps none of which fails. -/
theorem mapM_succeeds {α β ε : Type} {f : α → Except ε β} {xs : List α} (h : ∀ x ∈ xs, ∃ y, f x = .ok y) : ∃ ys, xs.mapM f = .ok ys := by
  induction xs with
  | nil => exact ⟨[], rfl⟩
  | cons x xs ih =>
    obtain ⟨y, hy⟩ := h x (.head _)
    obtain ⟨ys, hys⟩ := ih fun x' hx' => h x' (.tail _ hx')
    exact ⟨y :: ys, mapM_cons_ok.2 ⟨y, ys, hy, hys, rfl⟩⟩

/-- What each step keeps of its input, the list of the results keeps. -/
theorem mapM_map {α β γ ε : Type} {f : α → Except ε β} {g : α → γ} {k : β → γ} (hf : ∀ {x y}, f x = .ok y → k y = g x) :
    ∀ {xs : List α} {ys : List β}, xs.mapM f = .ok ys → ys.map k = xs.map g := by
  intro xs
  induction xs with
  | nil => intro ys hok; cases hok; rfl
  | cons x xs ih =>
    intro ys hok
    obtain ⟨y, zs, hx, hxs, rfl⟩ := mapM_cons_ok.1 hok
    rw [List.map_cons, List.map_cons, hf hx, ih hxs]

/-- Steps that may fail give the same in another order, if none fails. -/
theorem mapM_perm {α β ε : Type} {f : α → Except ε β} {xs xs' : List α} (h : xs.Perm xs') :
    ∀ {ys : List β}, xs.mapM f = .ok ys → ∃ ys', xs'.mapM f = .ok ys' ∧ ys.Perm ys' := by
  induction h with
  | nil => exact fun hok => ⟨_, hok, List.Perm.refl _⟩
  | cons x _ ih =>
    intro ys hok
    obtain ⟨y, zs, hx, hxs, rfl⟩ := mapM_cons_ok.1 hok
    obtain ⟨zs', hzs', hp⟩ := ih hxs
    exact ⟨y :: zs', mapM_cons_ok.2 ⟨y, zs', hx, hzs', rfl⟩, hp.cons y⟩
  | swap x x' xs =>
    intro ys hok
    obtain ⟨y', zs, hx', hrest, rfl⟩ := mapM_cons_ok.1 hok
    obtain ⟨y, zs, hx, hxs, rfl⟩ := mapM_cons_ok.1 hrest
    exact ⟨y :: y' :: zs, mapM_cons_ok.2 ⟨y, _, hx, mapM_cons_ok.2 ⟨y', zs, hx', hxs, rfl⟩, rfl⟩, List.Perm.swap ..⟩
  | trans _ _ ih ih' =>
    intro ys hok
    obtain ⟨ys', hok', hp⟩ := ih hok
    obtain ⟨ys'', hok'', hp'⟩ := ih' hok'
    exact ⟨ys'', hok'', hp.trans hp'⟩

/-- A step that may find nothing, and another with what it finds. -/
def findThen {α β γ ε : Type} (f : α → Except ε (Option β)) (g : β → Except ε (Option γ)) (x : α) : Except ε (Option γ) := do
  match ← f x with
  | none => return none
  | some y => g y

/-- The two steps one after the other over a list, or both at once for each element. -/
theorem mapM_filterMap {α β γ ε : Type} {f : α → Except ε (Option β)} {g : β → Except ε (Option γ)} : ∀ {xs : List α} {zs : List γ},
    (∃ ys ws, xs.mapM f = .ok ys ∧ (ys.filterMap id).mapM g = .ok ws ∧ ws.filterMap id = zs) ↔
      ∃ ws, xs.mapM (findThen f g) = .ok ws ∧ ws.filterMap id = zs := by
  intro xs
  induction xs with
  | nil =>
    intro zs
    constructor
    · rintro ⟨ys, ws, hys, hws, hz⟩
      cases hys
      exact ⟨ws, hws, hz⟩
    · rintro ⟨ws, hws, hz⟩
      exact ⟨[], ws, rfl, hws, hz⟩
  | cons x xs ih =>
    intro zs
    constructor
    · rintro ⟨os, ws, hos, hws, rfl⟩
      obtain ⟨o, ys, hx, hys, rfl⟩ := mapM_cons_ok.1 hos
      cases o with
      | none =>
        obtain ⟨vs, hvs, hz⟩ := ih.1 ⟨ys, ws, hys, hws, rfl⟩
        exact ⟨none :: vs, mapM_cons_ok.2 ⟨none, vs, of_bind hx rfl, hvs, rfl⟩, hz⟩
      | some y =>
        obtain ⟨w, ws, hy, hrest, rfl⟩ := mapM_cons_ok.1 hws
        obtain ⟨vs, hvs, hz⟩ := ih.1 ⟨ys, ws, hys, hrest, rfl⟩
        refine ⟨w :: vs, mapM_cons_ok.2 ⟨w, vs, of_bind hx hy, hvs, rfl⟩, ?_⟩
        rw [List.filterMap_cons, List.filterMap_cons, hz]
    · rintro ⟨os, hos, rfl⟩
      obtain ⟨w, ws, hboth, hws, rfl⟩ := mapM_cons_ok.1 hos
      obtain ⟨o, hx, hw⟩ := bind_ok hboth
      obtain ⟨ys, vs, hys, hvs, hz⟩ := ih.2 ⟨ws, hws, rfl⟩
      cases o with
      | none =>
        cases hw
        exact ⟨none :: ys, vs, mapM_cons_ok.2 ⟨none, ys, hx, hys, rfl⟩, hvs, hz⟩
      | some y =>
        refine ⟨some y :: ys, w :: vs, mapM_cons_ok.2 ⟨some y, ys, hx, hys, rfl⟩, ?_, ?_⟩
        · exact mapM_cons_ok.2 ⟨w, vs, hw, hvs, rfl⟩
        · rw [List.filterMap_cons, List.filterMap_cons, hz]

end Umd.Lib
