import Umd.Projections.Replay
import Umd.Projections.Driver
/-!
# Read-your-writes reads

`ProjectionFreshness.snapshot` and `ConsistencyGuard.ensure_read`. A read takes
a snapshot and polls while its deadline has not come; the polls it gets to are a
list, and what is left of it when the first loop ends is for the second.
-/

namespace Umd.Api

open Umd.Lib Umd.Events Umd.Ledger Umd.Projections

/-- `FreshnessSnapshot`. -/
structure FreshnessSnapshot where
  projectionName : String
  appliedSeq : Nat
  ledgerTail : Nat
  paused : Bool
  pauseReason : Option String := none
deriving DecidableEq

/-- `settings.consistency`, as far as the guard reads it. -/
structure ConsistencySettings where
  transientRetryAfter : ℚ := 1
  rebuildRetryAfter : ℚ := 30

/-- `ConsistencyLagError`. -/
structure ConsistencyLagError where
  detail : String
  code : String
  retryable : Bool := true
  consistency : String
  rebuildEstimate : Option ℚ := none
  retryAfter : ℚ
deriving DecidableEq

/-- `ProjectionFreshness.snapshot`. -/
def snapshot {σ : Type} (db : Projected σ) (name : String) : FreshnessSnapshot :=
  let reason := (db.checkpoints name).bind (·.pauseReason)
  { projectionName := name
    appliedSeq := db.applied name
    ledgerTail := tailOf db.events
    paused := reason.any (· ≠ "")
    pauseReason := reason }

/-- The loop that polls while `waits`: the snapshot it ends with, and the polls that are left. -/
def pollWhile (waits : FreshnessSnapshot → Bool) : FreshnessSnapshot → List FreshnessSnapshot →
    FreshnessSnapshot × List FreshnessSnapshot
  | snap, [] => (snap, [])
  | snap, next :: more => if waits snap then pollWhile waits next more else (snap, next :: more)

section
variable (settings : ConsistencySettings)

def rebuildError : ConsistencyLagError where
  detail := "projection is being rebuilt; retry after rebuild completes"
  code := "consistency_rebuild"
  consistency := "rebuild-in-progress"
  rebuildEstimate := some settings.rebuildRetryAfter
  retryAfter := settings.rebuildRetryAfter

def transientLagError : ConsistencyLagError where
  detail := "projection has not caught up to the consistency token within the lag budget; retry shortly"
  code := "consistency_transient_lag"
  consistency := "transient-lag"
  retryAfter := settings.transientRetryAfter

/-- `ensure_read`, whose polls before the deadline find `polls`. -/
def ensureRead (token : Option Nat) (first : FreshnessSnapshot) (polls : List FreshnessSnapshot) :
    Except ConsistencyLagError FreshnessSnapshot :=
  match token with
  | none => .ok first
  | some token =>
    let (snap, polls) := pollWhile (·.paused) first polls
    if snap.paused then .error (rebuildError settings)
    else
      let (snap, _) := pollWhile (·.appliedSeq < token) snap polls
      if snap.appliedSeq < token then .error (transientLagError settings) else .ok snap

end

/-- The loop ends where it need not wait, unless its deadline comes. -/
theorem pollWhile_spec (waits : FreshnessSnapshot → Bool) {first : FreshnessSnapshot} {polls : List FreshnessSnapshot} :
    (pollWhile waits first polls).1 ∈ first :: polls ∧ (∀ s ∈ (pollWhile waits first polls).2, s ∈ polls) := by
  induction polls generalizing first with
  | nil => exact ⟨by simp [pollWhile], by simp [pollWhile]⟩
  | cons next more ih =>
    rw [pollWhile]
    split
    · obtain ⟨h1, h2⟩ := @ih next
      exact ⟨List.mem_cons_of_mem _ h1, fun s hs => List.mem_cons_of_mem _ (h2 s hs)⟩
    · exact ⟨by simp, fun s hs => hs⟩

/-- **A read whose polls all find one state is let through if and only if the projection is not paused and has reached the
token.** -/
theorem ensureRead_steady (settings : ConsistencySettings) {token : Nat} {first : FreshnessSnapshot}
    {polls : List FreshnessSnapshot} (hpolls : ∀ s ∈ polls, s = first) :
    ensureRead settings (some token) first polls = .ok first ↔ first.paused = false ∧ token ≤ first.appliedSeq := by
  have hsame : ∀ (waits : FreshnessSnapshot → Bool) (left : List FreshnessSnapshot), (∀ s ∈ left, s = first) →
      (pollWhile waits first left).1 = first := by
    intro waits left hleft
    rcases List.mem_cons.1 (@pollWhile_spec waits first left).1 with h | h
    · exact h
    · exact hleft _ h
  have hleft : ∀ s ∈ (pollWhile (·.paused) first polls).2, s = first := fun s hs =>
    hpolls s ((@pollWhile_spec (·.paused) first polls).2 s hs)
  unfold ensureRead
  dsimp only
  rw [hsame _ _ hpolls, hsame _ _ hleft]
  cases hp : first.paused with
  | true => simp
  | false =>
    rw [if_neg Bool.false_ne_true]
    split
    · rename_i hlt
      simp [Nat.not_le.2 hlt]
    · rename_i hle
      simp [Nat.not_lt.1 hle]

/-- What is let through has reached the token, whatever the polls find. -/
theorem ensureRead_reached {settings : ConsistencySettings} {token : Option Nat} {first snap : FreshnessSnapshot}
    {polls : List FreshnessSnapshot} (h : ensureRead settings token first polls = .ok snap) :
    Projections.ensureRead snap.appliedSeq token = true := by
  cases token with
  | none => rfl
  | some token =>
    unfold ensureRead at h
    dsimp only at h
    split at h
    · cases h
    · split at h
      · cases h
      · rename_i hle
        cases h
        simpa [Projections.ensureRead] using hle

/-! ## Pauses while a read waits -/

/-- The loop passes the snapshots it waits at. -/
theorem pollWhile_past {waits : FreshnessSnapshot → Bool} {s : FreshnessSnapshot} {rest : List FreshnessSnapshot} :
    ∀ {passed : List FreshnessSnapshot} {first : FreshnessSnapshot} {polls : List FreshnessSnapshot},
      first :: polls = passed ++ s :: rest → (∀ u ∈ passed, waits u = true) → pollWhile waits first polls = pollWhile waits s rest := by
  intro passed
  induction passed with
  | nil =>
    intro first polls heq _
    cases heq
    rfl
  | cons u passed ih =>
    intro first polls heq hpassed
    obtain ⟨rfl, hpolls⟩ := List.cons.inj heq
    have hne : polls ≠ [] := by simp [hpolls]
    obtain ⟨next, more, rfl⟩ := List.exists_cons_of_ne_nil hne
    rw [pollWhile, if_pos (hpassed first (.head _))]
    exact ih hpolls fun v hv => hpassed v (.tail _ hv)

/-- It ends at the first snapshot it need not wait at. -/
theorem pollWhile_stop {waits : FreshnessSnapshot → Bool} {s : FreshnessSnapshot} (h : waits s = false)
    (rest : List FreshnessSnapshot) : pollWhile waits s rest = (s, rest) := by
  cases rest with
  | nil => rfl
  | cons next more => rw [pollWhile, if_neg (by rw [h]; exact Bool.false_ne_true)]

/-- The snapshots are those it passed, the one it ends with and those that are left. -/
theorem pollWhile_split (waits : FreshnessSnapshot → Bool) (first : FreshnessSnapshot) (polls : List FreshnessSnapshot) :
    ∃ passed, first :: polls = passed ++ (pollWhile waits first polls).1 :: (pollWhile waits first polls).2 ∧
      ∀ u ∈ passed, waits u = true := by
  induction polls generalizing first with
  | nil => exact ⟨[], rfl, nofun⟩
  | cons next more ih =>
    rw [pollWhile]
    split
    · rename_i hwaits
      obtain ⟨passed, heq, hpassed⟩ := ih next
      refine ⟨first :: passed, by rw [heq]; rfl, fun u hu => ?_⟩
      rcases List.mem_cons.1 hu with rfl | hu
      · exact hwaits
      · exact hpassed u hu
    · exact ⟨[], rfl, nofun⟩

/-- `while time.monotonic() < deadline and …`, where the clock reads `nows` in turn and the polls find `finds`. It has not
ended where these run out. -/
def loopUntil (deadline : ℚ) (waits : FreshnessSnapshot → Bool) :
    FreshnessSnapshot → List ℚ → List FreshnessSnapshot → Option (FreshnessSnapshot × List ℚ × List FreshnessSnapshot)
  | _, [], _ => none
  | snap, now :: nows, finds =>
    if now < deadline && waits snap then
      match finds with
      | [] => none
      | next :: finds => loopUntil deadline waits next nows finds
    else some (snap, nows, finds)

/-- What a loop polled. It stopped where it need not wait, or at the deadline. -/
theorem loopUntil_polls {deadline : ℚ} {waits : FreshnessSnapshot → Bool} : ∀ {nows nows' : List ℚ}
    {snap s : FreshnessSnapshot} {finds left : List FreshnessSnapshot},
    loopUntil deadline waits snap nows finds = some (s, nows', left) →
    ∃ polled, finds = polled ++ left ∧ pollWhile waits snap polled = (s, []) ∧
      (waits s = false → ∀ more, pollWhile waits snap (polled ++ more) = (s, more)) := by
  intro nows
  induction nows with
  | nil => intro nows' snap s finds left h; cases h
  | cons now nows ih =>
    intro nows' snap s finds left h
    unfold loopUntil at h
    split at h
    · rename_i hgo
      rw [Bool.and_eq_true] at hgo
      cases finds with
      | nil => cases h
      | cons next finds =>
        obtain ⟨polled, rfl, hend, hmore⟩ := ih h
        refine ⟨next :: polled, rfl, ?_, fun hs more => ?_⟩
        · rw [pollWhile, if_pos hgo.2, hend]
        · rw [List.cons_append, pollWhile, if_pos hgo.2, hmore hs]
    · cases h
      exact ⟨[], rfl, rfl, fun hs more => pollWhile_stop hs more⟩

/-- `ensure_read` by the clock: `budget` is the lag budget times its multiplier, `started` the first reading. -/
def ensureReadBy (settings : ConsistencySettings) (budget started : ℚ) (token : Nat) (first : FreshnessSnapshot)
    (nows : List ℚ) (finds : List FreshnessSnapshot) : Option (Except ConsistencyLagError FreshnessSnapshot) := do
  let deadline := started + max budget (1 / 20)
  let (snap, nows, finds) ← loopUntil deadline (·.paused) first nows finds
  if snap.paused then return .error (rebuildError settings)
  let (snap, _) ← loopUntil deadline (·.appliedSeq < token) snap nows finds
  return if snap.appliedSeq < token then .error (transientLagError settings) else .ok snap

/-- A read that ends, by whatever clock, is one that found what it polled. -/
theorem ensureReadBy_polls {settings : ConsistencySettings} {budget started : ℚ} {token : Nat} {first : FreshnessSnapshot}
    {nows : List ℚ} {finds : List FreshnessSnapshot} {r : Except ConsistencyLagError FreshnessSnapshot}
    (h : ensureReadBy settings budget started token first nows finds = some r) :
    ∃ polls, polls <+: finds ∧ r = ensureRead settings (some token) first polls := by
  unfold ensureReadBy at h
  obtain ⟨⟨snap, nows', left⟩, hfirst, hrest⟩ := Option.bind_eq_some_iff.1 h
  obtain ⟨polled, rfl, hend, hmore⟩ := loopUntil_polls hfirst
  unfold ensureRead
  dsimp only at hrest ⊢
  cases hp : snap.paused with
  | true =>
    rw [hp, if_pos rfl] at hrest
    cases hrest
    exact ⟨polled, List.prefix_append .., by rw [hend, hp, if_pos rfl]⟩
  | false =>
    rw [hp, if_neg Bool.false_ne_true] at hrest
    obtain ⟨⟨snap', nows'', left'⟩, hsecond, hr⟩ := Option.bind_eq_some_iff.1 hrest
    obtain ⟨polled', rfl, hend', -⟩ := loopUntil_polls hsecond
    cases hr
    refine ⟨polled ++ polled', ?_, ?_⟩
    · rw [← List.append_assoc]
      exact List.prefix_append ..
    · rw [hmore hp, hp, if_neg Bool.false_ne_true, hend']

/-- The first snapshot to reach the token, from the first unpaused one on, finds the projection paused again. -/
def PausedAgain (token : Nat) (snaps : List FreshnessSnapshot) : Prop :=
  ∃ before unpaused waited s after, snaps = before ++ unpaused :: waited ++ s :: after ∧ (∀ u ∈ before, u.paused = true) ∧
    unpaused.paused = false ∧ (∀ u ∈ unpaused :: waited, u.appliedSeq < token) ∧ token ≤ s.appliedSeq ∧ s.paused = true

/-- What the guard promises of a read: it raises, or the projection has reached the token and is not paused. -/
def Guarded (token : Nat) : Except ConsistencyLagError FreshnessSnapshot → Prop
  | .ok snap => token ≤ snap.appliedSeq ∧ snap.paused = false
  | .error _ => True

/-- **A read keeps the promise if and only if the projection is not paused again while the read waits for its token and is
then found to have reached it.** -/
theorem guarded_iff (settings : ConsistencySettings) (token : Nat) (first : FreshnessSnapshot)
    (polls : List FreshnessSnapshot) :
    Guarded token (ensureRead settings (some token) first polls) ↔ ¬ PausedAgain token (first :: polls) := by
  unfold ensureRead
  dsimp only
  constructor
  · rintro hguard ⟨before, unpaused, waited, s, after, heq, hbefore, hopen, hwaited, hreached, hpaused⟩
    have hfirst : pollWhile (·.paused) first polls = (unpaused, waited ++ s :: after) := by
      rw [pollWhile_past (heq.trans (List.append_assoc ..)) hbefore]
      exact pollWhile_stop hopen _
    have hsecond : pollWhile (·.appliedSeq < token) unpaused (waited ++ s :: after) = (s, after) := by
      have hpast : ∀ u ∈ unpaused :: waited, decide (u.appliedSeq < token) = true := fun u hu => decide_eq_true (hwaited u hu)
      have hsplit : unpaused :: (waited ++ s :: after) = (unpaused :: waited) ++ s :: after := rfl
      rw [pollWhile_past hsplit hpast]
      exact pollWhile_stop (decide_eq_false (Nat.not_lt.2 hreached)) _
    rw [hfirst, hopen, if_neg Bool.false_ne_true, hsecond, if_neg (Nat.not_lt.2 hreached)] at hguard
    rw [hguard.2] at hpaused
    cases hpaused
  · intro hnot
    split
    · exact trivial
    · rename_i hopen
      split
      · exact trivial
      · rename_i hreached
        rw [Bool.not_eq_true] at hopen
        rw [Nat.not_lt] at hreached
        refine ⟨hreached, ?_⟩
        -- what the second loop ends with is the first loop's snapshot, which is not paused, or a later one
        obtain ⟨before, heq, hbefore⟩ := pollWhile_split (·.paused) first polls
        obtain ⟨waited, hleft, hwaited⟩ := pollWhile_split (·.appliedSeq < token) (pollWhile (·.paused) first polls).1
          (pollWhile (·.paused) first polls).2
        cases waited with
        | nil =>
          rw [← (List.cons.inj hleft).1]
          exact hopen
        | cons u waited =>
          obtain ⟨hu, hrest⟩ := List.cons.inj hleft
          rw [← Bool.not_eq_true]
          intro hpaused
          subst hu
          rw [hrest] at heq
          exact hnot ⟨before, _, waited, _, _, heq.trans (List.append_assoc before (_ :: waited) _).symm, hbefore, hopen,
            fun v hv => of_decide_eq_true (hwaited v hv), hreached, hpaused⟩

/-- A read that finds the projection behind, and then caught up and paused, is served. -/
theorem served_while_paused : ¬ ∀ settings token first polls, Guarded token (ensureRead settings (some token) first polls) := by
  intro hall
  have hserved := hall {} 3 ⟨"query", 0, 5, false, none⟩ [⟨"query", 5, 5, true, some "rebuild"⟩]
  exact absurd hserved.2 (by decide)

end Umd.Api
