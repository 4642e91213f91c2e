import Mathlib
/-!
# Dictionaries, slices and rounding

A Python dictionary as the pairs that were stored in it, one after the other: a key
stands where it came in first, with the value it was given last. Slices and `round`
as Python has them, on lists and on rational numbers.
-/

namespace Umd.Lib

variable {κ α : Type} [DecidableEq κ]

/-- The keys, each where it came in first. -/
def firsts (keys : List κ) : List κ := keys.reverse.dedup.reverse

@[simp] theorem mem_firsts {keys : List κ} {k : κ} : k ∈ firsts keys ↔ k ∈ keys := by
  rw [firsts, List.mem_reverse, List.mem_dedup, List.mem_reverse]

theorem nodup_firsts (keys : List κ) : (firsts keys).Nodup :=
  List.nodup_reverse.2 (List.nodup_dedup _)

/-- The value that was stored last. -/
def lastValue (pairs : List (κ × α)) (k : κ) : Option α := (pairs.reverse.find? (·.1 = k)).map (·.2)

theorem lastValue_append (ps qs : List (κ × α)) (k : κ) :
    lastValue (ps ++ qs) k = (lastValue qs k).or (lastValue ps k) := by
  rw [lastValue, lastValue, lastValue, List.reverse_append, List.find?_append]
  cases qs.reverse.find? (·.1 = k) <;> rfl

theorem lastValue_mem {pairs : List (κ × α)} {k : κ} {a : α} (h : lastValue pairs k = some a) : (k, a) ∈ pairs := by
  obtain ⟨p, hp, rfl⟩ := Option.map_eq_some_iff.1 h
  have hk : p.1 = k := by simpa using List.find?_some hp
  rw [← hk]
  exact List.mem_reverse.1 (List.mem_of_find?_eq_some hp)

theorem lastValue_isSome {pairs : List (κ × α)} {k : κ} (h : k ∈ pairs.map (·.1)) : ∃ a, lastValue pairs k = some a := by
  obtain ⟨p, hp, rfl⟩ := List.mem_map.1 h
  have hsome : (pairs.reverse.find? fun q => q.1 = p.1).isSome :=
    List.find?_isSome.2 ⟨p, List.mem_reverse.2 hp, decide_eq_true rfl⟩
  obtain ⟨q, hq⟩ := Option.isSome_iff_exists.1 hsome
  exact ⟨q.2, by rw [lastValue, hq]; rfl⟩

theorem lastValue_none {pairs : List (κ × α)} {k : κ} (h : k ∉ pairs.map (·.1)) : lastValue pairs k = none := by
  rw [Option.eq_none_iff_forall_ne_some]
  intro a ha
  exact h (List.mem_map.2 ⟨_, lastValue_mem ha, rfl⟩)

/-- Keys that are not asked for may be left out. -/
theorem lastValue_filter {p : κ → Bool} {k : κ} (hp : p k = true) (pairs : List (κ × α)) :
    lastValue (pairs.filter fun q => p q.1) k = lastValue pairs k := by
  rw [lastValue, lastValue, ← List.filter_reverse, List.find?_filter]
  congr 2
  funext q
  by_cases hq : q.1 = k
  · simp [hq, hp]
  · simp [hq]

theorem lastValue_map {β : Type} (f : α → β) (pairs : List (κ × α)) (k : κ) :
    lastValue (pairs.map fun q => (q.1, f q.2)) k = (lastValue pairs k).map f := by
  rw [lastValue, lastValue, ← List.map_reverse, List.find?_map, Option.map_map, Option.map_map]
  rfl

/-- `xs[:n]` -/
def sliceTo {α : Type} (xs : List α) (n : ℤ) : List α :=
  if 0 ≤ n then xs.take n.toNat else xs.take (xs.length - n.natAbs)

/-- `round(q, digits)`: half to even. -/
def roundTo (digits : ℕ) (q : ℚ) : ℚ :=
  let scaled := q * 10 ^ digits
  let below := scaled.floor
  let n := if scaled - below < 1 / 2 then below else if 1 / 2 < scaled - below then below + 1
    else if below % 2 = 0 then below else below + 1
  n / 10 ^ digits

/-- `round(q)` -/
def pyRound (q : ℚ) : ℤ := (roundTo 0 q).num

theorem pyRound_nonneg {q : ℚ} (h : 0 ≤ q) : 0 ≤ pyRound q := by
  have hfloor : (0 : ℤ) ≤ q.floor := Rat.le_floor_iff.2 (by simpa using h)
  have hround : 0 ≤ roundTo 0 q := by
    unfold roundTo
    dsimp only
    rw [pow_zero, div_one, mul_one]
    split
    · exact_mod_cast hfloor
    · split
      · exact_mod_cast (by omega : 0 ≤ q.floor + 1)
      · split
        · exact_mod_cast hfloor
        · exact_mod_cast (by omega : 0 ≤ q.floor + 1)
  exact Rat.num_nonneg.2 hround

/-! ## Lists of steps that may fail -/

/-- What a sequence of two gives: the first gives what the second takes. -/
theorem bind_ok {α β ε : Type} {x : Except ε α} {f : α → Except ε β} {b : β} (h : x >>= f = .ok b) : ∃ a, x = .ok a ∧ f a = .ok b := by
  cases x with
  | error e => cases h
  | ok a => exact ⟨a, rfl, h⟩

/-- What a list of computations gives comes from one of them. -/
theorem mapM_mem {α β ε : Type} {f : α → Except ε β} : ∀ {xs : List α} {ys : List β}, xs.mapM f = .ok ys →
    ∀ y ∈ ys, ∃ x ∈ xs, f x = .ok y := by
  intro xs
  induction xs with
  | nil => intro ys h y hy; cases h; cases hy
  | cons x xs ih =>
    intro ys h y hy
    rw [List.mapM_cons] at h
    cases hx : f x with
    | error e => rw [hx] at h; cases h
    | ok b =>
      cases hxs : xs.mapM f with
      | error e => rw [hx, hxs] at h; cases h
      | ok bs =>
        rw [hx, hxs] at h
        cases h
        rcases List.mem_cons.1 hy with rfl | hy
        · exact ⟨x, by simp, hx⟩
        · obtain ⟨x', hx', hf⟩ := ih hxs y hy
          exact ⟨x', List.mem_cons_of_mem _ hx', hf⟩

/-- Each of them gives one. -/
theorem mapM_each {α β ε : Type} {f : α → Except ε β} : ∀ {xs : List α} {ys : List β}, xs.mapM f = .ok ys →
    ∀ x ∈ xs, ∃ y ∈ ys, f x = .ok y := by
  intro xs
  induction xs with
  | nil => exact fun _ => nofun
  | cons x xs ih =>
    intro ys h x' hx'
    rw [List.mapM_cons] at h
    cases hx : f x with
    | error e => rw [hx] at h; cases h
    | ok b =>
      cases hxs : xs.mapM f with
      | error e => rw [hx, hxs] at h; cases h
      | ok bs =>
        rw [hx, hxs] at h
        cases h
        rcases List.mem_cons.1 hx' with rfl | hx'
        · exact ⟨b, List.mem_cons_self, hx⟩
        · obtain ⟨y, hy, hf⟩ := ih hxs x' hx'
          exact ⟨y, List.mem_cons_of_mem _ hy, hf⟩

end Umd.Lib
