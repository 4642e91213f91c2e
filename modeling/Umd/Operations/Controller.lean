import Umd.Lib.Steps
import Umd.Projections.Parts
/-!
# Rebuilds of projections

`ProjectionController.rebuild` in any number of callers at once: what a coordinator holds is what
is being rebuilt, so no projection is rebuilt twice at a time, no more than the cap are, and a
call is refused only for one of these reasons (`rebuilds_coordinated`). A projection that is paused
stays as it is until a forced rebuild of it ends, also where a rebuild was under way when it was
paused (`paused_until_forced`).
-/

namespace Umd.Operations

open Umd.Lib Umd.Reducer Umd.Ledger Umd.Projections

structure RebuildSettings where
  concurrentRebuilds : Int := 1
  minIntervalSeconds : ℚ := 1

structure ReindexCoordinator where
  active : List (String × ℚ) := []
  lastStarted : String → Option ℚ := fun _ => none

namespace ReindexCoordinator

/-- `acquire` at the time `now`; `none` is `False`. -/
def acquire (settings : RebuildSettings) (c : ReindexCoordinator) (name : String) (scheduled : Bool) (now : ℚ) : Option ReindexCoordinator :=
  if settings.concurrentRebuilds ≤ c.active.length then none
  else if 0 < c.active.length ∧ (c.active.lookup name).isSome then none
  else if scheduled && (c.lastStarted name).any fun last => decide (now - last < settings.minIntervalSeconds) then none
  else some { active := c.active ++ [(name, now)], lastStarted := upd c.lastStarted name (some now) }

def release (c : ReindexCoordinator) (name : String) : ReindexCoordinator := { c with active := c.active.filter fun a => a.1 ≠ name }

/-- The projections that are active. -/
def names (c : ReindexCoordinator) : List String := c.active.map (·.1)

end ReindexCoordinator

/-- The store of one projection. -/
def slot (σ : Type) (name : String) : Part (String → σ) σ where
  get := fun stores => stores name
  put := fun s stores => upd stores name s
  get_put := fun s stores => upd_self stores name s
  put_get := fun stores => upd_same stores name
  put_put := fun s s' stores => upd_twice stores name s' s

/-- A call of `rebuild` that has the right to run. -/
structure Rebuilding where
  name : String
  wipe : Bool
  forceResume : Bool

inductive Caller
  | idle
  | rebuilding (r : Rebuilding)
  /-- It was answered that the projection is paused. -/
  | paused
  /-- It was answered that the cadence is busy. -/
  | busy
  /-- The run reported, or raised. -/
  | ended (reported : Bool)

structure Controller (σ : Type) where
  db : Projected (String → σ)
  coordinator : ReindexCoordinator := {}
  callers : Nat → Caller := fun _ => .idle

inductive ControllerAct
  /-- `rebuild`, up to the run. -/
  | call (caller : Nat) (name : String) (wipe forceResume : Bool) (now : ℚ)
  /-- The run of a new driver, and the release. -/
  | finish (caller : Nat)
  /-- Anything appended to the log and to the quarantine. -/
  | append (rows : List EventRow) (quarantined : List String)

section

variable {σ : Type} (settings : RebuildSettings) (builders : String → Builder σ)

/-- The projection is paused. -/
def Controller.isPaused (w : Controller σ) (name : String) : Prop := ((w.db.checkpoints name).getD {}).pauseReason ≠ none

instance (w : Controller σ) (name : String) : Decidable (w.isPaused name) := inferInstanceAs (Decidable (_ ≠ _))

/-- The run of a rebuild by its own driver. -/
def Rebuilding.run (r : Rebuilding) (db : Projected (String → σ)) : Projected (String → σ) × Driver × Except PyError BuildReport :=
  runLocked ((builders r.name).over (slot σ r.name)) r.wipe r.forceResume db {}

def Controller.step (w : Controller σ) : ControllerAct → Option (Controller σ)
  | .call i name wipe forceResume now =>
    match w.callers i with
    | .rebuilding _ => none
    | _ =>
      if w.isPaused name ∧ !forceResume then some { w with callers := upd w.callers i .paused }
      else
        match w.coordinator.acquire settings name false now with
        | none => some { w with callers := upd w.callers i .busy }
        | some c => some { w with coordinator := c, callers := upd w.callers i (.rebuilding ⟨name, wipe, forceResume⟩) }
  | .finish i =>
    match w.callers i with
    | .rebuilding r =>
      let res := r.run builders w.db
      some {
        db := res.1
        coordinator := w.coordinator.release r.name
        callers := upd w.callers i (.ended res.2.2.toBool)
      }
    | _ => none
  | .append rows quarantined => some { w with db := { w.db with events := w.db.events ++ rows, quarantined := quarantined } }

end

/-! ## What is rebuilt at a time -/

/-- The caller rebuilds the projection. -/
def Controller.Rebuilds {σ : Type} (w : Controller σ) (i : Nat) (name : String) : Prop := ∃ r, w.callers i = .rebuilding r ∧ r.name = name

/-- The coordinator holds each projection that is rebuilt, once. -/
structure Coordinated {σ : Type} (settings : RebuildSettings) (w : Controller σ) : Prop where
  held : ∀ name, name ∈ w.coordinator.names ↔ ∃ i, w.Rebuilds i name
  once : w.coordinator.names.Nodup
  alone : ∀ i j name, w.Rebuilds i name → w.Rebuilds j name → i = j
  capped : (w.coordinator.names.length : Int) ≤ max 0 settings.concurrentRebuilds

/-- A call that is not answered as paused is refused where the cap is reached or its projection is being rebuilt, and only there. -/
def RefusesAtCap {σ : Type} (settings : RebuildSettings) (builders : String → Builder σ) (w : Controller σ) : Prop :=
  ∀ i name wipe forceResume now w', (w.isPaused name → forceResume = true) →
    w.step settings builders (.call i name wipe forceResume now) = some w' →
    (w'.callers i = .busy ↔ settings.concurrentRebuilds ≤ w.coordinator.names.length ∨ ∃ j, w.Rebuilds j name)

section

variable {σ : Type} {settings : RebuildSettings} {builders : String → Builder σ} {c c' : ReindexCoordinator} {name : String} {now : ℚ}

theorem lookup_isSome : (c.active.lookup name).isSome = true ↔ name ∈ c.names := by
  unfold ReindexCoordinator.names
  induction c.active with
  | nil => simp
  | cons a as ih =>
    rw [List.lookup_cons, List.map_cons, List.mem_cons, ← ih]
    by_cases h : name = a.1
    · simp [h]
    · simp [h, beq_eq_false_iff_ne.2 h]

theorem acquire_none_iff : c.acquire settings name false now = none ↔
    settings.concurrentRebuilds ≤ c.names.length ∨ name ∈ c.names := by
  have hlen : c.names.length = c.active.length := List.length_map _
  have hpos : name ∈ c.names → 0 < c.active.length := fun h => hlen ▸ List.length_pos_of_mem h
  unfold ReindexCoordinator.acquire
  simp only [lookup_isSome, hlen]
  split
  · next hcap => simp [hcap]
  · next hcap =>
    split
    · next hheld => simp [hheld.2]
    · next hheld =>
      simp only [Bool.false_and, Bool.false_eq_true, if_false, reduceCtorEq, false_iff, not_or]
      exact ⟨hcap, fun h => hheld ⟨hpos h, h⟩⟩

theorem acquire_names (h : c.acquire settings name false now = some c') : c'.names = c.names ++ [name] := by
  unfold ReindexCoordinator.acquire at h
  split at h
  · cases h
  · split at h
    · cases h
    · cases h
      simp [ReindexCoordinator.names]

theorem release_names : (c.release name).names = c.names.filter fun n => n ≠ name := by
  simp [ReindexCoordinator.names, ReindexCoordinator.release, List.filter_map, Function.comp_def]

variable {w w' : Controller σ}

/-- A caller that does not rebuild has no part in what is rebuilt. -/
theorem rebuilds_upd {i j : Nat} {x : Caller} (hidle : ∀ r, w.callers i ≠ .rebuilding r) (hx : ∀ r, x ≠ .rebuilding r) :
    { w with callers := upd w.callers i x }.Rebuilds j name ↔ w.Rebuilds j name := by
  unfold Controller.Rebuilds
  dsimp only
  by_cases hj : j = i
  · subst hj
    rw [upd_self]
    constructor
    · rintro ⟨r, hr, -⟩
      exact absurd hr (hx r)
    · rintro ⟨r, hr, -⟩
      exact absurd hr (hidle r)
  · rw [upd_ne _ _ hj]

theorem Coordinated.answered {i : Nat} {x : Caller} (h : Coordinated settings w) (hidle : ∀ r, w.callers i ≠ .rebuilding r)
    (hx : ∀ r, x ≠ .rebuilding r) : Coordinated settings { w with callers := upd w.callers i x } where
  held := fun name => (h.held name).trans (exists_congr fun _ => (rebuilds_upd hidle hx).symm)
  once := h.once
  alone := fun _ _ name hi hj => h.alone _ _ name ((rebuilds_upd hidle hx).1 hi) ((rebuilds_upd hidle hx).1 hj)
  capped := h.capped

theorem Coordinated.acquired {i : Nat} {r : Rebuilding} (h : Coordinated settings w) (hidle : ∀ r, w.callers i ≠ .rebuilding r)
    (hc : w.coordinator.acquire settings r.name false now = some c) :
    Coordinated settings { w with coordinator := c, callers := upd w.callers i (.rebuilding r) } := by
  have hfree : ¬ (settings.concurrentRebuilds ≤ w.coordinator.names.length ∨ r.name ∈ w.coordinator.names) := by
    rw [← @acquire_none_iff settings _ _ now, hc]
    exact Option.some_ne_none _
  rw [not_or] at hfree
  have hnames := acquire_names hc
  have hrebuilds : ∀ j name, { w with coordinator := c, callers := upd w.callers i (.rebuilding r) }.Rebuilds j name ↔
      (j = i ∧ r.name = name) ∨ w.Rebuilds j name := by
    intro j name
    unfold Controller.Rebuilds
    dsimp only
    by_cases hj : j = i
    · subst hj
      rw [upd_self]
      constructor
      · rintro ⟨r', hr', hname⟩
        cases hr'
        exact .inl ⟨rfl, hname⟩
      · rintro (⟨-, hname⟩ | ⟨r', hr', -⟩)
        · exact ⟨r, rfl, hname⟩
        · exact absurd hr' (hidle r')
    · rw [upd_ne _ _ hj]
      simp [hj]
  refine ⟨fun name => ?_, ?_, fun a b name ha hb => ?_, ?_⟩
  · dsimp only
    rw [hnames, List.mem_append, List.mem_singleton, h.held name]
    constructor
    · rintro (⟨j, hj⟩ | rfl)
      · exact ⟨j, (hrebuilds j name).2 (.inr hj)⟩
      · exact ⟨i, (hrebuilds i r.name).2 (.inl ⟨rfl, rfl⟩)⟩
    · rintro ⟨j, hj⟩
      rcases (hrebuilds j name).1 hj with ⟨-, hname⟩ | hj
      · exact .inr hname.symm
      · exact .inl ⟨j, hj⟩
  · dsimp only
    rw [hnames, List.nodup_append]
    refine ⟨h.once, List.nodup_singleton _, fun n hn m hm hnm => ?_⟩
    rw [List.mem_singleton] at hm
    rw [hnm, hm] at hn
    exact hfree.2 hn
  · -- nobody else had what is acquired
    have hnot : ∀ j, ¬ w.Rebuilds j r.name := fun j hj => hfree.2 ((h.held _).2 ⟨j, hj⟩)
    rcases (hrebuilds a name).1 ha with ⟨hai, hname⟩ | hwas <;> rcases (hrebuilds b name).1 hb with ⟨hbi, hname'⟩ | hwas'
    · exact hai.trans hbi.symm
    · exact absurd (hname ▸ hwas') (hnot b)
    · exact absurd (hname' ▸ hwas) (hnot a)
    · exact h.alone a b name hwas hwas'
  · dsimp only
    rw [hnames, List.length_append, List.length_singleton]
    push_cast
    omega

theorem Coordinated.released {i : Nat} {r : Rebuilding} {db : Projected (String → σ)} {reported : Bool} (h : Coordinated settings w)
    (hr : w.callers i = .rebuilding r) :
    Coordinated settings { db := db, coordinator := w.coordinator.release r.name, callers := upd w.callers i (.ended reported) } := by
  have hrebuilds : ∀ j name, Controller.Rebuilds { db := db, coordinator := w.coordinator.release r.name, callers := upd w.callers i (.ended reported) } j name ↔
      j ≠ i ∧ w.Rebuilds j name := by
    intro j name
    unfold Controller.Rebuilds
    dsimp only
    by_cases hj : j = i
    · subst hj
      simp
    · rw [upd_ne _ _ hj]
      simp [hj]
  refine ⟨fun name => ?_, ?_, fun a b name ha hb => ?_, ?_⟩
  · dsimp only
    rw [release_names, List.mem_filter, h.held name, decide_eq_true_eq]
    constructor
    · rintro ⟨⟨j, hj⟩, hne⟩
      refine ⟨j, (hrebuilds j name).2 ⟨?_, hj⟩⟩
      rintro rfl
      obtain ⟨r', hr', hname⟩ := hj
      rw [hr] at hr'
      cases hr'
      exact hne hname.symm
    · rintro ⟨j, hj⟩
      obtain ⟨hne, hj⟩ := (hrebuilds j name).1 hj
      refine ⟨⟨j, hj⟩, ?_⟩
      rintro rfl
      exact hne (h.alone j i r.name hj ⟨r, hr, rfl⟩)
  · dsimp only
    rw [release_names]
    exact h.once.filter _
  · exact h.alone a b name ((hrebuilds a name).1 ha).2 ((hrebuilds b name).1 hb).2
  · dsimp only
    rw [release_names]
    have hle : (w.coordinator.names.filter fun n => n ≠ r.name).length ≤ w.coordinator.names.length := List.length_filter_le ..
    have := h.capped
    omega

theorem Coordinated.step {a : ControllerAct} (h : Coordinated settings w) (hs : w.step settings builders a = some w') :
    Coordinated settings w' := by
  cases a with
  | call i name wipe forceResume now =>
    rw [Controller.step] at hs
    split at hs
    · cases hs
    · next hidle =>
      split at hs
      · cases hs
        exact h.answered hidle fun r => Caller.noConfusion
      · split at hs
        · cases hs
          exact h.answered hidle fun r => Caller.noConfusion
        · next c hc =>
          cases hs
          exact @Coordinated.acquired _ _ _ _ _ _ ⟨name, wipe, forceResume⟩ h hidle hc
  | finish i =>
    rw [Controller.step] at hs
    split at hs
    · next r hr =>
      cases hs
      exact h.released hr
    · cases hs
  | append rows quarantined =>
    cases hs
    exact ⟨h.held, h.once, h.alone, h.capped⟩

theorem coordinated_start (db : Projected (String → σ)) : Coordinated settings { db := db } where
  held := fun name => ⟨fun h => absurd h List.not_mem_nil, fun h => by
    obtain ⟨i, r, hr, -⟩ := h
    cases hr⟩
  once := List.nodup_nil
  alone := fun i _ _ h _ => by
    obtain ⟨r, hr, -⟩ := h
    cases hr
  capped := le_max_left ..

/-- **Whatever callers rebuild at once**, the coordinator holds exactly the projections that are being
rebuilt, each by one caller and no more than the cap, and a call that is not answered as paused is
refused if and only if the cap is reached or its projection is being rebuilt. -/
theorem rebuilds_coordinated {db : Projected (String → σ)} (hw : Run (Controller.step settings builders) Any { db := db } w) :
    Coordinated settings w ∧ RefusesAtCap settings builders w := by
  have h : Coordinated settings w := hw.inv _ (coordinated_start db) fun _ _ _ hi _ hs => hi.step hs
  refine ⟨h, fun i name wipe forceResume now w' hrunning hs => ?_⟩
  rw [← h.held name, ← @acquire_none_iff settings _ _ now]
  rw [Controller.step] at hs
  split at hs
  · cases hs
  · split at hs
    · next hpaused =>
      rw [hrunning hpaused.1] at hpaused
      exact absurd hpaused.2 Bool.false_ne_true
    · split at hs
      · next hnone =>
        cases hs
        simp [hnone]
      · next c hc =>
        cases hs
        simp [hc]

/-- A builder that only tells whether its store was wiped. -/
def wiping (name : String) : Builder Bool where
  projectionName := name
  prepare := fun _ t => .ok t
  wipe := fun _ _ => .ok true
  apply := fun _ _ t => .ok t
  onSkip := fun _ _ t => .ok t
  onPause := fun _ _ t => .ok t
  finalize := fun _ t => .ok t

/-- One caller rebuilds, and another one is refused. -/
theorem rebuilds_coordinated_two : ∃ w : Controller Bool, w.coordinator.names = ["search"] ∧
    (∀ name, name ∈ w.coordinator.names ↔ ∃ i, w.Rebuilds i name) ∧ RefusesAtCap {} wiping w := by
  have hrun : Run (Controller.step {} wiping) Any { db := { stores := fun _ => false } } _ :=
    .step (a := .call 1 "vector" true false 1) (.step (a := .call 0 "search" true false 0) .refl trivial rfl) trivial rfl
  exact ⟨_, rfl, (rebuilds_coordinated hrun).1.held, (rebuilds_coordinated hrun).2⟩

/-! ## Paused projections -/

/-- No forced rebuild of the projection ends. -/
def Unforced {σ : Type} (name : String) (w : Controller σ) : ControllerAct → Prop
  | .finish i => ∀ r, w.callers i = .rebuilding r → r.name = name → r.forceResume = false
  | _ => True

theorem runLocked_paused {b : Builder σ} {wipe : Bool} {db : Projected σ} {d : Driver}
    (h : ((db.checkpoints b.projectionName).getD {}).pauseReason ≠ none) : (runLocked b wipe false db d).1 = db := by
  unfold runLocked
  rw [if_pos ⟨h, rfl⟩]

/-- A run writes no other checkpoint. -/
theorem runLocked_elsewhere {b : Builder σ} {wipe forceResume : Bool} {db : Projected σ} {d : Driver} (h : name ≠ b.projectionName) :
    (runLocked b wipe forceResume db d).1.checkpoints name = db.checkpoints name := by
  unfold runLocked
  dsimp only
  split
  · rfl
  · split
    · rfl
    · split
      · rfl
      · split
        · rfl
        · exact upd_ne _ _ h

theorem Rebuilding.run_elsewhere {r : Rebuilding} {db : Projected (String → σ)} (hname : (builders r.name).projectionName = r.name)
    (h : name ≠ r.name) : (r.run builders db).1.checkpoints name = db.checkpoints name ∧ (r.run builders db).1.stores name = db.stores name := by
  unfold Rebuilding.run
  rw [runLocked_over]
  refine ⟨?_, upd_ne _ _ h⟩
  exact runLocked_elsewhere (hname.symm ▸ h)

theorem Rebuilding.run_paused {r : Rebuilding} {db : Projected (String → σ)} (hname : (builders r.name).projectionName = r.name)
    (hp : ((db.checkpoints r.name).getD {}).pauseReason ≠ none) (hforce : r.forceResume = false) : (r.run builders db).1 = db := by
  unfold Rebuilding.run
  rw [hforce]
  refine runLocked_paused ?_
  change ((db.checkpoints (builders r.name).projectionName).getD {}).pauseReason ≠ none
  rwa [hname]

/-- **A paused projection stays as it is until a forced rebuild of it ends**, whatever else is
rebuilt and appended, and whatever rebuilds of it were under way when it was paused. -/
theorem paused_until_forced (hnames : ∀ n, (builders n).projectionName = n) (hp : w.isPaused name)
    (h : Run (Controller.step settings builders) (Unforced name) w w') :
    w'.db.checkpoints name = w.db.checkpoints name ∧ w'.db.stores name = w.db.stores name := by
  refine h.inv (fun v => v.db.checkpoints name = w.db.checkpoints name ∧ v.db.stores name = w.db.stores name) ⟨rfl, rfl⟩
    fun v a v' hv hok hs => ?_
  cases a with
  | call i n wipe forceResume now =>
    rw [Controller.step] at hs
    split at hs
    · cases hs
    · split at hs
      · cases hs
        exact hv
      · split at hs <;> cases hs <;> exact hv
  | append rows quarantined =>
    cases hs
    exact hv
  | finish i =>
    rw [Controller.step] at hs
    split at hs
    · next r hr =>
      cases hs
      dsimp only
      by_cases hn : name = r.name
      · have hpaused : ((v.db.checkpoints r.name).getD {}).pauseReason ≠ none := by
          rw [← hn, hv.1]
          exact hp
        rw [Rebuilding.run_paused (hnames r.name) hpaused (hok r hr hn.symm)]
        exact hv
      · obtain ⟨hcp, hstore⟩ := @Rebuilding.run_elsewhere _ builders name r v.db (hnames r.name) hn
        exact ⟨hcp.trans hv.1, hstore.trans hv.2⟩
    · cases hs

end

/-- The search projection is paused while a rebuild of it is under way, and the vectors are rebuilt. -/
def pausedSearch : Controller Bool where
  db := { checkpoints := upd (fun _ => none) "search" (some { pauseReason := some "override", pauseSeq := 1 }), stores := fun _ => false }
  coordinator := { active := [("search", 0)] }
  callers := upd (fun _ => .idle) 0 (.rebuilding ⟨"search", true, false⟩)

theorem paused_until_forced_search : ∃ w' : Controller Bool, w'.db.stores "vector" = true ∧ w'.coordinator.names = [] ∧
    w'.db.checkpoints "search" = pausedSearch.db.checkpoints "search" ∧ w'.db.stores "search" = pausedSearch.db.stores "search" := by
  have hforced : ∀ r, pausedSearch.callers 0 = .rebuilding r → r.name = "search" → r.forceResume = false := by
    intro r hr _
    cases hr
    rfl
  have hrun : Run (Controller.step {} wiping) (Unforced "search") pausedSearch _ :=
    .step (a := .finish 1)
      (.step (a := .call 1 "vector" true false 1) (.step (a := .finish 0) .refl hforced rfl) trivial rfl)
      (fun r hr hname => by cases hr; exact absurd hname (by decide)) rfl
  exact ⟨_, rfl, rfl, paused_until_forced (fun _ => rfl) (by decide) hrun⟩

end Umd.Operations
