import Umd.Jobs.Executor
import Umd.Jobs.Hatchet
/-!
# A delivery alone

What a delivery of a task comes to while nobody else steps: it reads the
evidence of its stage at once (`selectAll`) and runs the executor to any point
of its call (`delivery_drive`).
-/

namespace Umd.Jobs

open Umd.Lib Umd.Events Umd.Ledger Umd.Reducer

/-- The rows `canonical_evidence_refs` selects where none of its look-ups raises. -/
def selectAll (runs : List StageRun) (lineage : LineageId) : List Stage → Option (List StageRun)
  | [] => some []
  | dep :: deps =>
    match select runs lineage dep, selectAll runs lineage deps with
    | .row r, some rows => some (r :: rows)
    | _, _ => none

/-- What a delivery does next when nothing interrupts it. -/
def Handler.cue (work : Nat → WorkResult) (now : Nat) : Handler → Cue
  | .running _ p => p.cue work now
  | _ => .next now

namespace Hatchet

/-- The state with a delivery where `h` says. -/
def deliver (s : Hatchet) (t : Task) (h : Handler) : Hatchet := { s with task := upd s.task t h }

/-- The state with a delivery at a point of its call. -/
def calling (s : Hatchet) (t : Task) (m : StageManifest) (read : List StageRun) (x : RunStore × Phase) : Hatchet :=
  { s with db := { s.db with tables := x.1 } }.deliver t (Handler.ofPhase m read x.2)

@[simp] theorem deliver_self (s : Hatchet) (t : Task) (h : Handler) : (s.deliver t h).task t = h := upd_self _ _ _

@[simp] theorem deliver_db (s : Hatchet) (t : Task) (h : Handler) : (s.deliver t h).db = s.db := rfl

theorem deliver_same (s : Hatchet) (t : Task) : s.deliver t (s.task t) = s := by
  rw [deliver, upd_same]

end Hatchet

section Alone

variable {registered : Stage → Bool} {max : Nat} {requests : Nat → RunRequest} {ok : Hatchet → HatchetAct → Prop}
  {work : Nat → WorkResult} {now : Nat} {t : Task}

theorem ofPhase_live {m : StageManifest} {read : List StageRun} {p : Phase} (h : p.isOver = false) :
    Handler.ofPhase m read p = .running read p := by
  cases p with
  | returned | raised | crashed => cases h
  | _ => rfl

/-- A step of the delivery, wherever it is. -/
theorem deliver_step {s : Hatchet} {h h' : Handler} {cue : Cue} {db : Database}
    (hs : h.step registered max ((requests t.run).manifest t.stage) s.db cue = some (db, h')) :
    (s.deliver t h).step registered max requests (.task t cue) = some ({ s with db := db }.deliver t h') := by
  simp only [Hatchet.step, Hatchet.deliver_self, Hatchet.deliver_db, hs, Option.map_some]
  simp only [Hatchet.deliver, upd_twice]

/-- The call of the executor, from any of its phases. -/
theorem running_drive (hok : ∀ s, s.task t ≠ .idle → ok s (.task t ((s.task t).cue work now))) {read : List StageRun}
    {m : StageManifest} (hm : m = ((requests t.run).manifest t.stage).withEvidence read) {n : Nat} {s : Hatchet}
    {x : RunStore × Phase} :
    Run (Hatchet.step registered max requests) ok (s.calling t m read x) (s.calling t m read (drive max m work now n x)) := by
  induction n generalizing x with
  | zero => exact .refl
  | succ n ih =>
    rw [drive]
    cases hstep : x.2.step max m x.1 (x.2.cue work now) with
    | none => exact .refl
    | some y =>
      have hlive := effect_live (@step_effect max m x.1 y.1 x.2 y.2 _ hstep)
      have htask : (s.calling t m read x).task t = .running read x.2 := by
        rw [Hatchet.calling, Hatchet.deliver_self, ofPhase_live hlive]
      have hadmitted := hok (s.calling t m read x) (by rw [htask]; intro h; cases h)
      rw [htask] at hadmitted
      have hone : (s.calling t m read x).step registered max requests (.task t (x.2.cue work now)) =
          some (s.calling t m read y) := by
        apply deliver_step
        rw [ofPhase_live hlive, Handler.step, ← hm, hstep]
        rfl
      exact Run.trans (.step .refl hadmitted hone) ih

/-- The look-ups of the evidence, one after another. -/
theorem reading_all (hok : ∀ s, s.task t ≠ .idle → ok s (.task t ((s.task t).cue work now))) {todo : List Stage}
    {read rows : List StageRun} {s : Hatchet}
    (h : selectAll s.db.tables.runs ((requests t.run).manifest t.stage).lineage todo = some rows) :
    Run (Hatchet.step registered max requests) ok (s.deliver t (.reading todo read))
      (s.deliver t (.reading [] (read ++ rows))) := by
  induction todo generalizing read rows with
  | nil =>
    cases h
    rw [List.append_nil]
    exact .refl
  | cons dep todo ih =>
    simp only [selectAll] at h
    split at h
    · rename_i r rest hr hrest
      cases h
      have hadmitted := hok (s.deliver t (.reading (dep :: todo) read))
      rw [Hatchet.deliver_self] at hadmitted
      have hone : Hatchet.step registered max requests (s.deliver t (.reading (dep :: todo) read)) (.task t (.next now)) =
          some (s.deliver t (.reading todo (read ++ [r]))) := by
        apply deliver_step
        simp only [Handler.step, hr]
      have hrun := @ih (read ++ [r]) rest hrest
      rw [List.append_assoc] at hrun
      exact Run.trans (.step .refl (hadmitted (by intro h; cases h)) hone) hrun
    · cases h

/-- **A delivery alone**, to any point of its call of the executor. -/
theorem delivery_drive (hok : ∀ s, s.task t ≠ .idle → ok s (.task t ((s.task t).cue work now))) {s : Hatchet}
    (hfirst : ok s (.task t (.next now))) (ht : s.task t = .idle)
    (hskip : s.db.skips ((requests t.run).manifest t.stage) = false)
    (huuids : ((requests t.run).manifest t.stage).hasUuids = true) (hregistered : registered t.stage = true)
    {read : List StageRun}
    (hread : selectAll s.db.tables.runs ((requests t.run).manifest t.stage).lineage t.stage.dependencies = some read) (n : Nat) :
    Run (Hatchet.step registered max requests) ok s
      (s.calling t (((requests t.run).manifest t.stage).withEvidence read) read
        (drive max (((requests t.run).manifest t.stage).withEvidence read) work now n (s.db.tables, .start))) := by
  have henter : s.step registered max requests (.task t (.next now)) =
      some (s.deliver t (.reading t.stage.dependencies [])) := by
    have hidle := Hatchet.deliver_same s t
    rw [ht] at hidle
    have henters := @deliver_step registered max requests t s .idle (.reading t.stage.dependencies []) (.next now) s.db
    rw [hidle] at henters
    apply henters
    simp only [Handler.step, hskip, huuids, Bool.false_eq_true, Bool.true_eq_false, and_false, if_false]
    rfl
  have hadmitted := hok (s.deliver t (.reading [] read))
  rw [Hatchet.deliver_self] at hadmitted
  have hstarted : Hatchet.step registered max requests (s.deliver t (.reading [] read)) (.task t (.next now)) =
      some (s.calling t (((requests t.run).manifest t.stage).withEvidence read) read (s.db.tables, .start)) := by
    apply deliver_step
    have hstage : registered ((requests t.run).manifest t.stage).stageName = true := hregistered
    simp only [Handler.step, hstage, if_true]
    rfl
  have hreads := @reading_all registered max requests ok work now t hok _ [] read s hread
  exact Run.trans (Run.trans (.step .refl hfirst henter) hreads)
    (Run.trans (.step .refl (hadmitted (by intro h; cases h)) hstarted) (running_drive hok rfl))

theorem drive_claim {m : StageManifest} {s : RunStore} (free : runOf s.runs m.idempotencyKey = none) :
    ∃ p, drive max m work now 1 (s, .start) = ({ s with runs := s.runs ++ [.of m.idempotencyKey m now] }, p) ∧
      p.isWorking = true := by
  let c : StageRunClaim := { won := true, idempotencyKey := m.idempotencyKey, stageName := m.stageName, jobId := m.jobId }
  refine ⟨.working c 1, ?_, rfl⟩
  simp only [drive, Phase.cue, Phase.step, claim_free free, if_true, c]

/-- Only the first step of a delivery waits for its parents. -/
theorem startsAfterParents_begun {s : Hatchet} {cue : Cue} (h : s.task t ≠ .idle) : StartsAfterParents s (.task t cue) := by
  rw [StartsAfterParents]
  split
  · rename_i hidle
    exact absurd hidle h
  · trivial

end Alone

end Umd.Jobs
