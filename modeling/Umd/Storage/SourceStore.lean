import Mathlib
/-!
# Ranges of stored sources

`storage/ocfl/store.py`: `get_range` finds the content of an object by its inventory and reads
a window of it, bounded by two caps. A window that starts in the content ends after its data,
one that starts past it ends with the content, and windows read one after the other hold the
whole content (`ranges_hold_content`).
-/

namespace Umd.SourceStore

/-- `StoreError`, and what the OCFL library and the file system raise. -/
inductive StoreError
  | objectNotFound (objectId : String)
  | noContentFiles
  | resolveFailed (name rel : String)
  | noContentPath (sourceRef logicalName : String)
  | unknownVersion (rel : String)
  | noFile (path : String)
  deriving DecidableEq, Repr

/-- The text of the error. -/
def StoreError.message : StoreError → String
  | objectNotFound objectId => "OCFL object not found: " ++ objectId
  | noContentFiles => "OCFL object head has no content files"
  | resolveFailed name rel => "resolve failed: " ++ name ++ " not in state of " ++ rel
  | noContentPath sourceRef logicalName => "no content path for " ++ sourceRef ++ ":" ++ logicalName
  | unknownVersion rel => "unknown version " ++ rel
  | noFile path => "no such file: " ++ path

/-- An OCFL inventory: the logical paths of each digest by version, and the content paths of each digest. -/
structure Inventory where
  head : String
  versions : List (String × List (String × List String))
  manifest : List (String × List String)

/-- An object and the files under its path. -/
structure StoredObject where
  inventory : Inventory
  files : List (String × List UInt8)

structure Store where
  objects : List (String × StoredObject)
  maxRangeBytes : Int := 1024 * 1024
  maxReadBufferBytes : Int := 1024 * 1024

/-- `NativeRepresentation`; `stop` is its `end`. -/
structure NativeRepresentation where
  objectId : String
  logicalName : String
  version : String
  sha512 : String
  sizeBytes : Int
  start : Int
  stop : Int
  data : List UInt8
  contentType : String
  truncated : Bool
  deriving Repr

/-! ## The content of an object -/

/-- `inventory.version(rel).state` -/
def Inventory.state (inventory : Inventory) (rel : String) : Except StoreError (List (String × List String)) :=
  match inventory.versions.lookup rel with
  | some state => .ok state
  | none => .error (.unknownVersion rel)

/-- `_single_logical_name` -/
def singleLogicalName (inventory : Inventory) (rel : String) : Except StoreError String := do
  match (← inventory.state rel).flatMap (·.2) with
  | [] => .error .noContentFiles
  | name :: _ => .ok name

/-- `_state_digest` -/
def stateDigest (inventory : Inventory) (rel name : String) : Except StoreError String := do
  match (← inventory.state rel).find? (fun entry => name ∈ entry.2) with
  | some (digest, _) => .ok digest
  | none => .error (.resolveFailed name rel)

/-- `_resolve_logical_content`: the content of this version, or the first there is. -/
def resolveLogicalContent (inventory : Inventory) (rel name : String) : Except StoreError (Option String) := do
  let digest ← stateDigest inventory rel name
  let content := (inventory.manifest.lookup digest).getD []
  match content.find? (fun path => (rel ++ "/").toList.isPrefixOf path.toList) with
  | some path => .ok (some path)
  | none => .ok content.head?

/-- What `get_range` knows of the content before it reads. -/
structure Located where
  logicalName : String
  version : String
  sha512 : String
  content : List UInt8
  deriving DecidableEq

/-- The first half of `get_range`: the file of the one logical name. -/
def Store.locate (store : Store) (sourceRef : String) (version : Option String) : Except StoreError Located := do
  let object ← (match store.objects.lookup sourceRef with
    | some object => .ok object
    | none => .error (.objectNotFound sourceRef))
  let inventory := object.inventory
  let rel := match version with
    | some v => if v = "" then inventory.head else v
    | none => inventory.head
  let logicalName ← singleLogicalName inventory rel
  match ← resolveLogicalContent inventory rel logicalName with
  | none => .error (.noContentPath sourceRef logicalName)
  | some path =>
    match object.files.lookup path with
    | none => .error (.noFile path)
    | some content => .ok { logicalName, version := rel, sha512 := ← stateDigest inventory rel logicalName, content }

/-! ## Windows -/

/-- The length of a read: the default or what is asked for, under both caps. -/
def Store.cappedLength (store : Store) (length : Option Int) : Int :=
  min (min (length.getD store.maxRangeBytes) store.maxRangeBytes) store.maxReadBufferBytes

/-- `_read_bounded` -/
def readBounded (content : List UInt8) (start length : Int) : List UInt8 :=
  if length ≤ 0 then [] else (content.drop start.toNat).take length.toNat

/-- `get_range` -/
def Store.getRange (store : Store) (sourceRef : String) (start : Int) (length : Option Int) (version : Option String) :
    Except StoreError NativeRepresentation := do
  let found ← store.locate sourceRef version
  let length := store.cappedLength length
  let start := max 0 start
  let total : Int := found.content.length
  let data := readBounded found.content start length
  let stop := min (start + data.length) total
  .ok {
    objectId := sourceRef, logicalName := found.logicalName, version := found.version, sha512 := found.sha512,
    sizeBytes := total, start, stop, data, contentType := "application/octet-stream",
    truncated := decide (stop < total)
  }

/-- A window of the content, as its start and the capped length cut it. -/
structure IsWindow (content : List UInt8) (start length : Int) (rep : NativeRepresentation) : Prop where
  size_eq : rep.sizeBytes = content.length
  start_eq : rep.start = max 0 start
  data_eq : rep.data = (content.drop (max 0 start).toNat).take length.toNat
  stop_inside : max 0 start ≤ content.length → rep.stop = max 0 start + rep.data.length ∧ rep.start ≤ rep.stop
  stop_past : (content.length : Int) < max 0 start → rep.data = [] ∧ rep.stop = content.length
  truncated_iff : rep.truncated = true ↔ content.drop rep.stop.toNat ≠ []

theorem readBounded_eq (content : List UInt8) (start length : Int) :
    readBounded content start length = (content.drop start.toNat).take length.toNat := by
  unfold readBounded
  split
  · next hle => rw [Int.toNat_of_nonpos hle, List.take_zero]
  · rfl

/-- Data that is read from inside the content stays in it. -/
theorem readBounded_length {content : List UInt8} {start length : Int} (hstart : 0 ≤ start) (hin : start ≤ content.length) :
    start + (readBounded content start length).length ≤ content.length := by
  rw [readBounded_eq, List.length_take, List.length_drop]
  omega

theorem getRange_window {store : Store} {sourceRef : String} {version : Option String} {found : Located}
    (hfound : store.locate sourceRef version = .ok found) (start : Int) (length : Option Int) :
    ∃ rep, store.getRange sourceRef start length version = .ok rep ∧
      IsWindow found.content start (store.cappedLength length) rep := by
  refine ⟨_, by rw [Store.getRange, hfound]; rfl, ?_⟩
  have hpos : 0 ≤ max 0 start := le_max_left 0 start
  refine ⟨rfl, rfl, readBounded_eq .., fun hin => ?_, fun hpast => ?_, ?_⟩
  · have hlen := @readBounded_length found.content _ (store.cappedLength length) hpos hin
    dsimp only
    rw [min_eq_left hlen]
    exact ⟨rfl, by omega⟩
  · have hdata : readBounded found.content (max 0 start) (store.cappedLength length) = [] := by
      rw [readBounded_eq, List.drop_eq_nil_of_le (by omega), List.take_nil]
    dsimp only
    rw [hdata, List.length_nil]
    exact ⟨rfl, min_eq_right (by omega)⟩
  · dsimp only
    rw [decide_eq_true_iff, Ne, List.drop_eq_nil_iff]
    omega

/-! ## Reading on -/

/-- Reads from the end of the previous window until one is not truncated, the `k`-th of the length `lengths k`. -/
def Store.readAll (store : Store) (sourceRef : String) (version : Option String) (lengths : Nat → Option Int) :
    Nat → Nat → Int → Option (List UInt8)
  | 0, _, _ => none
  | fuel + 1, k, start =>
    match store.getRange sourceRef start (lengths k) version with
    | .error _ => none
    | .ok rep =>
      if rep.truncated then (store.readAll sourceRef version lengths fuel (k + 1) rep.stop).map (rep.data ++ ·)
      else some rep.data

theorem cappedLength_pos {store : Store} {length : Option Int} (hrange : 1 ≤ store.maxRangeBytes)
    (hbuffer : 1 ≤ store.maxReadBufferBytes) (hlength : ∀ n, length = some n → 1 ≤ n) : 1 ≤ store.cappedLength length := by
  unfold Store.cappedLength
  cases length with
  | none => exact le_min (le_min hrange hrange) hbuffer
  | some n => exact le_min (le_min (hlength n rfl) hrange) hbuffer

/-- From a place in the content, as many reads as there are bytes left and one more give the rest of it. -/
theorem readAll_rest {store : Store} {sourceRef : String} {version : Option String} {found : Located}
    (hfound : store.locate sourceRef version = .ok found) (hrange : 1 ≤ store.maxRangeBytes)
    (hbuffer : 1 ≤ store.maxReadBufferBytes) {lengths : Nat → Option Int} (hlengths : ∀ k n, lengths k = some n → 1 ≤ n)
    {fuel k pos : Nat} (hpos : pos ≤ found.content.length) (hfuel : found.content.length - pos < fuel) :
    store.readAll sourceRef version lengths fuel k pos = some (found.content.drop pos) := by
  induction fuel generalizing k pos with
  | zero => exact absurd hfuel (Nat.not_lt_zero _)
  | succ fuel ih =>
    obtain ⟨rep, hrep, hwindow⟩ := getRange_window hfound pos (lengths k)
    have hlen := cappedLength_pos hrange hbuffer (hlengths k)
    have hmax : max 0 (pos : Int) = pos := max_eq_right (Int.natCast_nonneg pos)
    have hdata := hwindow.data_eq
    obtain ⟨hstop, -⟩ := hwindow.stop_inside (by rw [hmax]; exact_mod_cast hpos)
    rw [hmax, Int.toNat_natCast] at hdata
    rw [hmax] at hstop
    rw [Store.readAll, hrep]
    dsimp only
    have hlenData := congrArg List.length hdata
    rw [List.length_take, List.length_drop] at hlenData
    have hstopNat : rep.stop = ((pos + rep.data.length : Nat) : Int) := by rw [hstop]; push_cast; rfl
    split
    · next htrunc =>
      have hmore := hwindow.truncated_iff.1 htrunc
      rw [hstopNat, Int.toNat_natCast, Ne, List.drop_eq_nil_iff] at hmore
      rw [hstopNat, ih (by omega) (by omega), Option.map_some, ← List.drop_drop]
      have htake : rep.data = (found.content.drop pos).take rep.data.length := by
        rw [hlenData, hdata]
        exact (List.take_eq_take_min ..).trans (by rw [List.length_drop])
      nth_rewrite 1 [htake]
      rw [List.take_append_drop]
    · next htrunc =>
      have hend := mt hwindow.truncated_iff.2 htrunc
      rw [hstopNat, Int.toNat_natCast, Ne, not_not, List.drop_eq_nil_iff] at hend
      rw [hdata, List.take_of_length_le (by rw [List.length_drop]; omega)]

/-- **Every range of a located object is the window its start and capped length cut, which ends after its data if it
starts in the content and with the content if not; and reads from the end of the last one hold the content if both caps allow
a byte.** -/
theorem ranges_hold_content {store : Store} {sourceRef : String} {version : Option String} {found : Located}
    (hfound : store.locate sourceRef version = .ok found) :
    (∀ start length, ∃ rep, store.getRange sourceRef start length version = .ok rep ∧
      IsWindow found.content start (store.cappedLength length) rep) ∧
    (1 ≤ store.maxRangeBytes → 1 ≤ store.maxReadBufferBytes → ∀ lengths : Nat → Option Int,
      (∀ k n, lengths k = some n → 1 ≤ n) →
        store.readAll sourceRef version lengths (found.content.length + 1) 0 0 = some found.content) := by
  refine ⟨getRange_window hfound, fun hrange hbuffer lengths hlengths => ?_⟩
  have hread := @readAll_rest _ _ _ _ hfound hrange hbuffer _ hlengths (found.content.length + 1) 0 0 (Nat.zero_le _) (by omega)
  rwa [List.drop_zero] at hread

/-- A store of one object of ten bytes. -/
def digits : Store := {
  objects := [("urn:umd:ocfl:source:sha512:d1", {
    inventory := {
      head := "v1", versions := [("v1", [("d1", ["digits.txt"])])], manifest := [("d1", ["v1/content/digits.txt"])]
    },
    files := [("v1/content/digits.txt", [0x30, 0x31, 0x32, 0x33, 0x34, 0x35, 0x36, 0x37, 0x38, 0x39])]
  })]
}

def digitsFound : Located :=
  ⟨"digits.txt", "v1", "d1", [0x30, 0x31, 0x32, 0x33, 0x34, 0x35, 0x36, 0x37, 0x38, 0x39]⟩

theorem digits_located : digits.locate "urn:umd:ocfl:source:sha512:d1" none = .ok digitsFound := by decide +kernel

/-- Read by three bytes, the ten bytes are the whole. -/
theorem digits_read :
    digits.readAll "urn:umd:ocfl:source:sha512:d1" none (fun _ => some 3) 11 0 0 =
      some [0x30, 0x31, 0x32, 0x33, 0x34, 0x35, 0x36, 0x37, 0x38, 0x39] :=
  (ranges_hold_content digits_located).2 (by decide) (by decide) (fun _ => some 3) fun _ n h => by
    obtain rfl := Option.some.inj h
    decide

/-- A range that starts at byte 100 of ten ends at byte 10. -/
theorem past_the_end : ∃ rep, digits.getRange "urn:umd:ocfl:source:sha512:d1" 100 (some 5) none = .ok rep ∧
    rep.start = 100 ∧ rep.data = [] ∧ rep.stop = 10 ∧ ¬ rep.stop = rep.start + rep.data.length ∧ ¬ rep.start ≤ rep.stop := by
  refine ⟨_, by rw [Store.getRange, digits_located]; rfl, ?_⟩
  decide +kernel

end Umd.SourceStore
