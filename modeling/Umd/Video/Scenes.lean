import Umd.Lib.Rounding
/-!
# Scenes between cuts

`reference_scene_shots` over the times of the cuts, in exact arithmetic. The loop starts a
scene where the last one started: the scenes are the intervals between the boundaries if and
only if none of their boundaries is told from 0 (`scenes_iff`).
-/

namespace Umd.Scenes

open Umd.Lib

/-- `SceneBoundary`. -/
structure SceneBoundary where
  index : ℕ
  startPts : ℤ
  startS : ℚ
  endS : ℚ
  threshold : ℚ
  provider : String := "umd-reference-scene"

/-- `ShotBoundary`. -/
structure ShotBoundary where
  index : ℕ
  startPts : ℤ
  startS : ℚ
  endS : ℚ
  threshold : ℚ
  provider : String := "umd-reference-scene"

/-- What of `VideoConfig` is read. -/
structure VideoConfig where
  sceneThreshold : ℚ
  maxScenes : ℕ

/-- `sorted(set([0.0, *times]))` -/
def boundaries (cuts : List ℚ) : List ℚ := (0 :: cuts).dedup.insertionSort (· ≤ ·)

section

variable (cfg : VideoConfig) (total : ℚ)

/-- A scene from one time to another. -/
def sceneAt (start stop : ℚ) (index : ℕ) : SceneBoundary where
  index := index
  startPts := pyRound (start * 90000)
  startS := roundTo 4 start
  endS := roundTo 4 stop
  threshold := cfg.sceneThreshold

/-- The loop over the boundaries that are left, with `prev`. -/
def sceneLoop : List ℚ → ℚ → List SceneBoundary → List SceneBoundary
  | [], _, scenes => scenes
  | t :: rest, prev, scenes =>
    let scenes := scenes ++ [sceneAt cfg prev (rest.headD total) scenes.length]
    if cfg.maxScenes ≤ scenes.length then scenes else sceneLoop rest t scenes

/-- `reference_scene_shots`. -/
def referenceSceneShots (cuts : List ℚ) : List SceneBoundary × List ShotBoundary :=
  let scenes := sceneLoop cfg total (boundaries cuts) 0 []
  (scenes, scenes.zipIdx.map fun p => ⟨p.2, p.1.startPts, p.1.startS, p.1.endS, p.1.threshold, "umd-reference-scene"⟩)

/-! ## What is promised -/

/-- Where the interval after each boundary ends. -/
def ends : List ℚ → List ℚ
  | [] => []
  | _ :: rest => rest.headD total :: ends rest

/-- A scene for each pair of times. -/
def scenesOf (starts stops : List ℚ) (index : ℕ) : List SceneBoundary :=
  ((starts.zip stops).zipIdx index).map fun p => sceneAt cfg p.1.1 p.1.2 p.2

/-- The intervals between the boundaries, up to `max_scenes`. -/
def intervals (bs : List ℚ) : List SceneBoundary := (scenesOf cfg bs (ends total bs) 0).take cfg.maxScenes

/-- The scenes follow each other from 0 to the end. -/
structure Partition (scenes : List SceneBoundary) : Prop where
  first : scenes.head?.map (·.startS) = some 0
  chained : scenes.IsChain fun s s' => s.endS = s'.startS
  last : scenes.getLast?.map (·.endS) = some (roundTo 4 total)
  forward : ∀ s ∈ scenes, s.startS ≤ s.endS

def ShotBoundary.scene (s : ShotBoundary) : SceneBoundary := ⟨s.index, s.startPts, s.startS, s.endS, s.threshold, s.provider⟩

structure Consecutive (cuts : List ℚ) (result : List SceneBoundary × List ShotBoundary) : Prop where
  scenes : result.1 = intervals cfg total (boundaries cuts)
  partition : (boundaries cuts).length < cfg.maxScenes → Partition total result.1
  shots : result.2.map ShotBoundary.scene = result.1

end

/-- A time that is rounded to 0, as a time stamp and as seconds. -/
def RoundsToZero (t : ℚ) : Prop := pyRound (t * 90000) = 0 ∧ roundTo 4 t = 0

variable {cfg : VideoConfig} {total : ℚ}

/-- The loop takes each interval's end with the start before it. -/
theorem sceneLoop_eq (bs : List ℚ) (prev : ℚ) {scenes : List SceneBoundary} (h : scenes.length < cfg.maxScenes) :
    sceneLoop cfg total bs prev scenes =
      scenes ++ (scenesOf cfg (prev :: bs) (ends total bs) scenes.length).take (cfg.maxScenes - scenes.length) := by
  induction bs generalizing prev scenes with
  | nil => simp [sceneLoop, ends, scenesOf]
  | cons t rest ih =>
    have hscenes : scenesOf cfg (prev :: t :: rest) (ends total (t :: rest)) scenes.length =
        sceneAt cfg prev (rest.headD total) scenes.length :: scenesOf cfg (t :: rest) (ends total rest) (scenes.length + 1) := by
      simp [scenesOf, ends]
    obtain ⟨m, hm⟩ : ∃ m, cfg.maxScenes - scenes.length = m + 1 := ⟨cfg.maxScenes - scenes.length - 1, by omega⟩
    rw [sceneLoop, hscenes, hm, List.take_succ_cons]
    rw [List.length_append, List.length_singleton]
    split
    · rw [show m = 0 by omega, List.take_zero]
    · have hnext : (scenes ++ [sceneAt cfg prev (rest.headD total) scenes.length]).length = scenes.length + 1 := by simp
      rw [ih t (by omega), hnext, show cfg.maxScenes - (scenes.length + 1) = m by omega, List.append_assoc]
      rfl

theorem sceneAt_inj {start start' stop : ℚ} {i : ℕ} : sceneAt cfg start stop i = sceneAt cfg start' stop i ↔
    pyRound (start * 90000) = pyRound (start' * 90000) ∧ roundTo 4 start = roundTo 4 start' := by
  simp [sceneAt]

/-- The starts before the boundaries are those at the boundaries if all round alike. -/
theorem lag_iff (bs : List ℚ) (prev : ℚ) (index m : ℕ) :
    (scenesOf cfg (prev :: bs) (ends total bs) index).take m = (scenesOf cfg bs (ends total bs) index).take m ↔
      ∀ b ∈ bs.take m, pyRound (prev * 90000) = pyRound (b * 90000) ∧ roundTo 4 prev = roundTo 4 b := by
  induction bs generalizing prev index m with
  | nil => simp [scenesOf, ends]
  | cons t rest ih =>
    cases m with
    | zero => simp
    | succ m =>
      have hscenes : ∀ starts : List ℚ, ∀ s : ℚ, scenesOf cfg (s :: starts) (ends total (t :: rest)) index =
          sceneAt cfg s (rest.headD total) index :: scenesOf cfg starts (ends total rest) (index + 1) := by
        simp [scenesOf, ends]
      rw [hscenes, hscenes, List.take_succ_cons, List.take_succ_cons, List.cons.injEq, sceneAt_inj, ih, List.take_succ_cons,
        List.forall_mem_cons]
      refine and_congr_right fun ht => forall₂_congr fun b _ => ?_
      rw [ht.1, ht.2]

theorem scenesOf_cons (t : ℚ) (rest : List ℚ) (index : ℕ) : scenesOf cfg (t :: rest) (ends total (t :: rest)) index =
    sceneAt cfg t (rest.headD total) index :: scenesOf cfg rest (ends total rest) (index + 1) := by
  simp [scenesOf, ends]

/-- The intervals between boundaries in order follow each other up to the end. -/
theorem partition_from (rest : List ℚ) (t : ℚ) (index : ℕ) (hsorted : (t :: rest).Pairwise (· ≤ ·)) (hle : ∀ b ∈ t :: rest, b ≤ total) :
    let scenes := scenesOf cfg (t :: rest) (ends total (t :: rest)) index
    scenes.head?.map (·.startS) = some (roundTo 4 t) ∧ scenes.IsChain (fun s s' => s.endS = s'.startS) ∧
      scenes.getLast?.map (·.endS) = some (roundTo 4 total) ∧ ∀ s ∈ scenes, s.startS ≤ s.endS := by
  induction rest generalizing t index with
  | nil =>
    rw [scenesOf_cons]
    exact ⟨rfl, .singleton _, rfl, fun s hs => List.mem_singleton.1 hs ▸ roundTo_mono 4 (hle t (List.mem_singleton_self t))⟩
  | cons t' rest ih =>
    obtain ⟨hhead, hchain, hlast, hforward⟩ := ih t' (index + 1) hsorted.of_cons fun b hb => hle b (List.mem_cons_of_mem t hb)
    rw [scenesOf_cons]
    rw [scenesOf_cons] at hhead hchain hlast hforward ⊢
    refine ⟨rfl, .cons_cons rfl hchain, ?_, List.forall_mem_cons.2 ⟨?_, hforward⟩⟩
    · rw [List.getLast?_cons_cons]
      exact hlast
    · exact roundTo_mono 4 (List.rel_of_pairwise_cons hsorted (List.mem_cons_self ..))

theorem mem_boundaries {cuts : List ℚ} {b : ℚ} : b ∈ boundaries cuts ↔ b = 0 ∨ b ∈ cuts := by
  rw [boundaries, List.mem_insertionSort, List.mem_dedup, List.mem_cons]

/-- The boundaries begin at 0, in order. -/
theorem boundaries_cons {cuts : List ℚ} (h : ∀ t ∈ cuts, 0 ≤ t) : ∃ rest, boundaries cuts = 0 :: rest ∧ (0 :: rest).Pairwise (· ≤ ·) := by
  have hsorted : (boundaries cuts).Pairwise (· ≤ ·) := List.pairwise_insertionSort ..
  cases hb : boundaries cuts with
  | nil => exact absurd (mem_boundaries.2 (.inl rfl)) (hb ▸ List.not_mem_nil)
  | cons b rest =>
    rw [hb] at hsorted
    have hzero : (0 : ℚ) ∈ b :: rest := hb ▸ mem_boundaries.2 (.inl rfl)
    have hnonneg : 0 ≤ b := by
      rcases mem_boundaries.1 (hb ▸ List.mem_cons_self (a := b) (l := rest)) with rfl | hcut
      · exact le_rfl
      · exact h b hcut
    have hle : b ≤ 0 := by
      rcases List.mem_cons.1 hzero with rfl | hmem
      · exact le_rfl
      · exact List.rel_of_pairwise_cons hsorted hmem
    obtain rfl := le_antisymm hle hnonneg
    exact ⟨rest, rfl, hsorted⟩

theorem referenceSceneShots_eq (cuts : List ℚ) (hmax : 1 ≤ cfg.maxScenes) : (referenceSceneShots cfg total cuts).1 =
    (scenesOf cfg (0 :: boundaries cuts) (ends total (boundaries cuts)) 0).take cfg.maxScenes :=
  @sceneLoop_eq cfg total (boundaries cuts) 0 [] hmax

/-- Scenes numbered from `index` on give shots that equal them. -/
theorem shots_from (pairs : List (ℚ × ℚ)) (index m : ℕ) :
    let scenes := ((pairs.zipIdx index).map fun p => sceneAt cfg p.1.1 p.1.2 p.2).take m
    (scenes.zipIdx index).map (fun p => (⟨p.2, p.1.startPts, p.1.startS, p.1.endS, p.1.threshold, "umd-reference-scene"⟩ : SceneBoundary)) =
      scenes := by
  induction pairs generalizing index m with
  | nil => simp
  | cons p pairs ih =>
    cases m with
    | zero => simp
    | succ m =>
      dsimp only at ih ⊢
      rw [List.zipIdx_cons, List.map_cons, List.take_succ_cons, List.zipIdx_cons, List.map_cons, ih]
      rfl

theorem shots_eq (cuts : List ℚ) (hmax : 1 ≤ cfg.maxScenes) :
    (referenceSceneShots cfg total cuts).2.map ShotBoundary.scene = (referenceSceneShots cfg total cuts).1 := by
  have hshots : (referenceSceneShots cfg total cuts).2.map ShotBoundary.scene = ((referenceSceneShots cfg total cuts).1.zipIdx).map
      fun p => ⟨p.2, p.1.startPts, p.1.startS, p.1.endS, p.1.threshold, "umd-reference-scene"⟩ := by
    rw [referenceSceneShots, List.map_map]
    rfl
  rw [hshots, referenceSceneShots_eq cuts hmax]
  exact shots_from _ 0 cfg.maxScenes

/-- **The scenes are the intervals between the boundaries if and only if no boundary of theirs is told from 0.** -/
theorem scenes_iff (cfg : VideoConfig) (total : ℚ) (cuts : List ℚ) (hmax : 1 ≤ cfg.maxScenes) (htotal : 0 ≤ total)
    (hcuts : ∀ t ∈ cuts, 0 ≤ t ∧ t ≤ total) :
    Consecutive cfg total cuts (referenceSceneShots cfg total cuts) ↔ ∀ b ∈ (boundaries cuts).take cfg.maxScenes, RoundsToZero b := by
  have hlag : (referenceSceneShots cfg total cuts).1 = intervals cfg total (boundaries cuts) ↔
      ∀ b ∈ (boundaries cuts).take cfg.maxScenes, RoundsToZero b := by
    have hzero : pyRound (0 * 90000) = 0 := by rw [zero_mul, pyRound, roundTo_zero]; rfl
    rw [referenceSceneShots_eq cuts hmax, intervals, lag_iff]
    refine forall₂_congr fun b _ => ?_
    rw [hzero, roundTo_zero, RoundsToZero, eq_comm, @eq_comm _ 0 (roundTo 4 b)]
  refine ⟨fun h => hlag.1 h.scenes, fun h => ⟨hlag.2 h, fun hfew => ?_, shots_eq cuts hmax⟩⟩
  obtain ⟨rest, hbounds, hsorted⟩ := boundaries_cons fun t ht => (hcuts t ht).1
  have hle : ∀ b ∈ 0 :: rest, b ≤ total := by
    intro b hb
    rcases mem_boundaries.1 (hbounds ▸ hb) with rfl | hcut
    · exact htotal
    · exact (hcuts b hcut).2
  obtain ⟨hfirst, hchain, hlast, hforward⟩ := @partition_from cfg total rest 0 0 hsorted hle
  have hall : (referenceSceneShots cfg total cuts).1 = scenesOf cfg (0 :: rest) (ends total (0 :: rest)) 0 := by
    have hlength : (scenesOf cfg (0 :: rest) (ends total (0 :: rest)) 0).length ≤ cfg.maxScenes := by
      rw [scenesOf, List.length_map, List.length_zipIdx, List.length_zip]
      rw [hbounds] at hfew
      omega
    rw [hlag.2 h, intervals, hbounds, List.take_of_length_le hlength]
  rw [hall]
  exact ⟨hfirst.trans (by rw [roundTo_zero]), hchain, hlast, hforward⟩

/-- Without cuts there is one scene. -/
theorem no_cut : 1 ≤ 10 ∧ (0 : ℚ) ≤ 12 ∧ Consecutive ⟨3 / 10, 10⟩ 12 [] (referenceSceneShots ⟨3 / 10, 10⟩ 12 []) := by
  refine ⟨by decide, by norm_num, (scenes_iff ⟨3 / 10, 10⟩ 12 [] (by decide) (by norm_num) nofun).2 fun b hb => ?_⟩
  have hzero : b = 0 := (mem_boundaries.1 (List.mem_of_mem_take hb)).resolve_right List.not_mem_nil
  subst hzero
  refine ⟨?_, roundTo_zero 4⟩
  rw [zero_mul, pyRound, roundTo_zero]
  rfl

/-- Two cuts: the second scene begins at 0 again. -/
theorem second_scene_lags : (referenceSceneShots ⟨3 / 10, 10⟩ 12 [4, 8]).1.map (fun s => (s.startS, s.endS)) = [(0, 4), (0, 8), (4, 12)] ∧
    ¬ Consecutive ⟨3 / 10, 10⟩ 12 [4, 8] (referenceSceneShots ⟨3 / 10, 10⟩ 12 [4, 8]) := by
  have hscenes : (referenceSceneShots ⟨3 / 10, 10⟩ 12 [4, 8]).1.map (fun s => (s.startS, s.endS)) = [(0, 4), (0, 8), (4, 12)] := by
    decide +kernel
  refine ⟨hscenes, fun h => ?_⟩
  have hexpected : (intervals ⟨3 / 10, 10⟩ 12 (boundaries [4, 8])).map (fun s => (s.startS, s.endS)) = [(0, 4), (4, 8), (8, 12)] := by
    decide +kernel
  rw [← h.scenes, hscenes] at hexpected
  exact absurd hexpected (by decide +kernel)

end Umd.Scenes
