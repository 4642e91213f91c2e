import Umd.Lib.Steps
import Umd.Storage.SourceStore
/-!
# Writes to the source store

`storage/ocfl/store.py`: `put_immutable` names an object by the digest of its bytes, writes it
once, and checks it where it is there. In every run of writes each accepted one is read back
under the name it was given, whole and by any windows, also after all later writes
(`puts_read_back`).
-/

namespace Umd.SourceStore

open Umd.Lib

/-! ## Names -/

/-- The kinds a descriptor may have. -/
inductive Kind
  | source
  | derived
  | artifact
  deriving DecidableEq

def Kind.name : Kind → String
  | source => "source"
  | derived => "derived"
  | artifact => "artifact"

/-- `SourceDescriptor`, as far as a write reads it. -/
structure SourceDescriptor where
  logicalName : String
  kind : Kind := .source

/-- `_object_id` -/
def objectId (kind : Kind) (sha512 : String) : String := "urn:umd:ocfl:" ++ kind.name ++ ":sha512:" ++ sha512

/-- `Path(name).name` -/
def baseName (name : String) : String :=
  String.ofList (((name.toList.splitOn '/').filter fun part => part ≠ [] ∧ part ≠ ['.']).getLast?.getD [])

/-- `_sanitize_name` -/
def sanitizeName (name : String) : String := if baseName name ∈ ["", ".", ".."] then "content.bin" else baseName name

/-! ## Writes -/

inductive PutError
  | tooLarge (maxUploadBytes : Nat)
  | corrupt (objectId : String)
  | notRegistered (objectId : String)
  | store (error : StoreError)
  deriving DecidableEq

/-- The text of the error. -/
def PutError.message : PutError → String
  | tooLarge maxUploadBytes => "payload exceeds max_upload_bytes=" ++ toString maxUploadBytes
  | corrupt objectId => "OCFL object " ++ objectId ++ " exists but failed fixity verification"
  | notRegistered objectId => "failed to register OCFL object " ++ objectId
  | store error => error.message

/-- `SourceManifest` -/
structure SourceManifest where
  objectId : String
  logicalName : String
  sha512 : String
  sizeBytes : Nat
  version : String := "v1"
  deriving DecidableEq

/-- The loop of `_spool_and_digest`: what the stream gives, up to its first empty read. -/
def spool (maxUploadBytes : Nat) (spooled : List UInt8) : List (List UInt8) → Except PutError (List UInt8)
  | [] => .ok spooled
  | [] :: _ => .ok spooled
  | (b :: chunk) :: reads =>
    if maxUploadBytes < spooled.length + (b :: chunk).length then .error (.tooLarge maxUploadBytes)
    else spool maxUploadBytes (spooled ++ (b :: chunk)) reads

section

-- `sha512` is the digest; `writes` tells whether the library and the host take an object
variable (sha512 : List UInt8 → String) (maxUploadBytes : Nat) (writes : String → StoredObject → Bool)

/-- The content of one logical name against its digest. -/
def StoredObject.verifyName (object : StoredObject) (rel name : String) : Except StoreError Bool := do
  match ← resolveLogicalContent object.inventory rel name with
  | none => .ok false
  | some path =>
    match object.files.lookup path with
    | none => .error (.noFile path)
    | some content => .ok (decide (sha512 content = (← stateDigest object.inventory rel name)))

/-- The loop of `verify_fixity`. -/
def StoredObject.verifyNames (object : StoredObject) (rel : String) : List String → Except StoreError Bool
  | [] => .ok true
  | name :: names => do if ← object.verifyName sha512 rel name then object.verifyNames rel names else .ok false

def StoredObject.verify (object : StoredObject) : Except StoreError Bool := do
  object.verifyNames sha512 object.inventory.head ((← object.inventory.state object.inventory.head).flatMap (·.2))

/-- `verify_fixity`: what cannot be opened is not verified. -/
def Store.verifyFixity (store : Store) (sourceRef : String) : Except StoreError Bool :=
  match store.objects.lookup sourceRef with
  | none => .ok false
  | some object => object.verify sha512

/-- The object of `_write_object`: one version with one content file. -/
def firstVersion (logicalName : String) (bytes : List UInt8) : StoredObject where
  inventory := {
    head := "v1", versions := [("v1", [(sha512 bytes, [sanitizeName logicalName])])],
    manifest := [(sha512 bytes, ["v1/content/" ++ sanitizeName logicalName])]
  }
  files := [("v1/content/" ++ sanitizeName logicalName, bytes)]

/-- What is answered about bytes. -/
def manifestOf (descriptor : SourceDescriptor) (bytes : List UInt8) : SourceManifest where
  objectId := objectId descriptor.kind (sha512 bytes)
  logicalName := descriptor.logicalName
  sha512 := sha512 bytes
  sizeBytes := bytes.length

/-- `put_immutable` once the stream is spooled. -/
def Store.putBytes (store : Store) (descriptor : SourceDescriptor) (bytes : List UInt8) : Store × Except PutError SourceManifest :=
  let id := objectId descriptor.kind (sha512 bytes)
  match store.objects.lookup id with
  | some object =>
    match object.verify sha512 with
    | .error e => (store, .error (.store e))
    | .ok false => (store, .error (.corrupt id))
    | .ok true => (store, .ok (manifestOf sha512 descriptor bytes))
  | none =>
    let object := firstVersion sha512 descriptor.logicalName bytes
    if writes id object then
      ({ store with objects := store.objects ++ [(id, object)] }, .ok (manifestOf sha512 descriptor bytes))
    else (store, .error (.notRegistered id))

/-- `put_immutable` -/
def Store.putImmutable (store : Store) (descriptor : SourceDescriptor) (reads : List (List UInt8)) :
    Store × Except PutError SourceManifest :=
  match spool maxUploadBytes [] reads with
  | .error e => (store, .error e)
  | .ok bytes => store.putBytes sha512 writes descriptor bytes

/-! ## Runs -/

/-- A write that was accepted. -/
structure Accepted where
  descriptor : SourceDescriptor
  bytes : List UInt8
  manifest : SourceManifest

/-- The store, and the writes it has accepted, the first one first. -/
structure Session where
  store : Store
  accepted : List Accepted := []

/-- The bytes of a stream. -/
def streamed (reads : List (List UInt8)) : List UInt8 := (reads.takeWhile (· ≠ [])).flatten

/-- One write. -/
def Session.put (s : Session) (a : SourceDescriptor × List (List UInt8)) : Option Session :=
  match s.store.putImmutable sha512 maxUploadBytes writes a.1 a.2 with
  | (store, .ok manifest) => some ⟨store, s.accepted ++ [⟨a.1, streamed a.2, manifest⟩]⟩
  | (store, .error _) => some ⟨store, s.accepted⟩

end

/-- The first accepted write of an object. -/
def Session.first (s : Session) (id : String) : Option Accepted := s.accepted.find? fun w => w.manifest.objectId = id

/-- What the store promises of an accepted write. -/
structure ReadsBack (sha512 : List UInt8 → String) (s : Session) (w : Accepted) : Prop where
  manifest : w.manifest = manifestOf sha512 w.descriptor w.bytes
  verified : s.store.verifyFixity sha512 w.manifest.objectId = .ok true
  /-- It is what was first written under its name: bytes of the same kind and digest. -/
  first : ∃ w₀, s.first w.manifest.objectId = some w₀ ∧ w₀.descriptor.kind = w.descriptor.kind ∧ sha512 w₀.bytes = sha512 w.bytes ∧
    s.store.locate w.manifest.objectId none =
      .ok { logicalName := sanitizeName w₀.descriptor.logicalName, version := "v1", sha512 := w.manifest.sha512, content := w₀.bytes }
  /-- Any windows, read one after the other, give the bytes, unless others of the same digest were written before. -/
  whole : (∀ w₀ ∈ s.accepted, sha512 w₀.bytes = sha512 w.bytes → w₀.bytes = w.bytes) → ∀ lengths : Nat → Option Int,
    (∀ k n, lengths k = some n → 1 ≤ n) →
      s.store.readAll w.manifest.objectId none lengths (w.bytes.length + 1) 0 0 = some w.bytes

variable {sha512 : List UInt8 → String} {maxUploadBytes : Nat} {writes : String → StoredObject → Bool}

/-! ## Names and streams -/

/-- Objects of different kinds never collide. -/
theorem objectId_inj {kind kind' : Kind} {digest digest' : String} (h : objectId kind digest = objectId kind' digest') :
    kind = kind' ∧ digest = digest' := by
  have htext := congrArg String.toList h
  cases kind <;> cases kind' <;> simp [objectId, Kind.name, String.toList_inj] at htext ⊢
  all_goals exact htext

/-- The loop takes all that the stream gives, or refuses it for its size. -/
theorem spool_eq (reads : List (List UInt8)) (spooled : List UInt8) (h : spooled.length ≤ maxUploadBytes) :
    spool maxUploadBytes spooled reads =
      if (spooled ++ streamed reads).length ≤ maxUploadBytes then .ok (spooled ++ streamed reads) else .error (.tooLarge maxUploadBytes) := by
  induction reads generalizing spooled with
  | nil => simp [spool, streamed, h]
  | cons chunk reads ih =>
    cases chunk with
    | nil => simp [spool, streamed, h]
    | cons b chunk =>
      have hstream : streamed ((b :: chunk) :: reads) = (b :: chunk) ++ streamed reads := by simp [streamed]
      rw [spool, hstream, ← List.append_assoc]
      split
      · next hlt =>
        rw [if_neg]
        simp only [List.length_append] at hlt ⊢
        omega
      · next hle =>
        exact ih _ (by rw [List.length_append]; omega)

/-! ## The object of a first write -/

section FirstVersion

variable (name : String) (bytes : List UInt8)

theorem firstVersion_state : (firstVersion sha512 name bytes).inventory.state "v1" = .ok [(sha512 bytes, [sanitizeName name])] := by
  simp [firstVersion, Inventory.state]

theorem firstVersion_digest :
    stateDigest (firstVersion sha512 name bytes).inventory "v1" (sanitizeName name) = .ok (sha512 bytes) := by
  simp [stateDigest, firstVersion_state, bind, Except.bind]

theorem firstVersion_content :
    resolveLogicalContent (firstVersion sha512 name bytes).inventory "v1" (sanitizeName name) = .ok (some ("v1/content/" ++ sanitizeName name)) := by
  rw [resolveLogicalContent, firstVersion_digest]
  simp [firstVersion, bind, Except.bind]

/-- Files that hold the bytes where the inventory of a first write says are verified. -/
theorem verify_files {files : List (String × List UInt8)} (h : files.lookup ("v1/content/" ++ sanitizeName name) = some bytes) :
    StoredObject.verify sha512 ⟨(firstVersion sha512 name bytes).inventory, files⟩ = .ok true := by
  have hname : StoredObject.verifyName sha512 ⟨(firstVersion sha512 name bytes).inventory, files⟩ "v1" (sanitizeName name) = .ok true := by
    rw [StoredObject.verifyName, firstVersion_content]
    simp [bind, Except.bind, firstVersion_digest, h]
  rw [StoredObject.verify]
  change ((firstVersion sha512 name bytes).inventory.state "v1" >>= fun state => _) = _
  rw [firstVersion_state]
  simp only [bind, Except.bind, List.flatMap_cons, List.flatMap_nil, List.append_nil]
  change StoredObject.verifyNames sha512 _ "v1" _ = _
  simp [StoredObject.verifyNames, hname, bind, Except.bind]

theorem firstVersion_file : (firstVersion sha512 name bytes).files.lookup ("v1/content/" ++ sanitizeName name) = some bytes := by
  simp [firstVersion]

/-- What was just written is verified. -/
theorem firstVersion_verified : (firstVersion sha512 name bytes).verify sha512 = .ok true :=
  verify_files name bytes (@firstVersion_file sha512 name bytes)

theorem firstVersion_located {store : Store} {id : String} (h : store.objects.lookup id = some (firstVersion sha512 name bytes)) :
    store.locate id none =
      .ok { logicalName := sanitizeName name, version := "v1", sha512 := sha512 bytes, content := bytes } := by
  rw [Store.locate, h]
  change (singleLogicalName (firstVersion sha512 name bytes).inventory "v1" >>= fun logicalName => _) = _
  rw [singleLogicalName, firstVersion_state]
  simp only [bind, Except.bind, List.flatMap_cons, List.flatMap_nil, List.append_nil]
  change (resolveLogicalContent (firstVersion sha512 name bytes).inventory "v1" (sanitizeName name) >>= fun path => _) = _
  rw [firstVersion_content]
  simp only [bind, Except.bind, firstVersion_file]
  change (stateDigest (firstVersion sha512 name bytes).inventory "v1" (sanitizeName name) >>= fun digest => _) = _
  rw [firstVersion_digest]
  rfl

end FirstVersion

/-! ## One write -/

/-- The objects are those of the first accepted writes of their names, and every write was answered about its bytes. -/
structure Kept (sha512 : List UInt8 → String) (s : Session) : Prop where
  objects : ∀ id, s.store.objects.lookup id = (s.first id).map fun w => firstVersion sha512 w.descriptor.logicalName w.bytes
  answered : ∀ w ∈ s.accepted, w.manifest = manifestOf sha512 w.descriptor w.bytes
  distinct : (s.store.objects.map (·.1)).Nodup

/-- What one write does: it is refused and changes nothing, or finds its object there, or adds it. -/
inductive Put (sha512 : List UInt8 → String) (s : Session) (descriptor : SourceDescriptor) (bytes : List UInt8) : Session → Prop
  | refused : Put sha512 s descriptor bytes s
  | found (w₀ : Accepted) (hfirst : s.first (objectId descriptor.kind (sha512 bytes)) = some w₀) :
    Put sha512 s descriptor bytes { s with accepted := s.accepted ++ [⟨descriptor, bytes, manifestOf sha512 descriptor bytes⟩] }
  | added (hfirst : s.first (objectId descriptor.kind (sha512 bytes)) = none) :
    Put sha512 s descriptor bytes {
      store := { s.store with objects := s.store.objects ++
        [(objectId descriptor.kind (sha512 bytes), firstVersion sha512 descriptor.logicalName bytes)] }
      accepted := s.accepted ++ [⟨descriptor, bytes, manifestOf sha512 descriptor bytes⟩] }

theorem put_cases {s s' : Session} (h : Kept sha512 s) {descriptor : SourceDescriptor} {reads : List (List UInt8)}
    (hput : s.put sha512 maxUploadBytes writes (descriptor, reads) = some s') : Put sha512 s descriptor (streamed reads) s' := by
  unfold Session.put Store.putImmutable at hput
  rw [spool_eq reads [] (Nat.zero_le _), List.nil_append] at hput
  split_ifs at hput with hsize
  · have hobject := h.objects (objectId descriptor.kind (sha512 (streamed reads)))
    simp only [Store.putBytes] at hput
    cases hfirst : s.first (objectId descriptor.kind (sha512 (streamed reads))) with
    | none =>
      rw [hfirst, Option.map_none] at hobject
      simp only [hobject] at hput
      split_ifs at hput
      · cases hput
        exact .added hfirst
      · cases hput
        exact .refused
    | some w₀ =>
      rw [hfirst, Option.map_some] at hobject
      simp only [hobject, firstVersion_verified] at hput
      cases hput
      exact .found w₀ hfirst
  · cases hput
    exact .refused

/-- An accepted write is the first one of its name only if there was none. -/
theorem first_append (s : Session) (w : Accepted) (id : String) (store : Store) :
    Session.first ⟨store, s.accepted ++ [w]⟩ id = (s.first id).or (if w.manifest.objectId = id then some w else none) := by
  simp only [Session.first, List.find?_append, List.find?_singleton, decide_eq_true_eq]

theorem Kept.put {s s' : Session} {descriptor : SourceDescriptor} {bytes : List UInt8} (h : Kept sha512 s)
    (hput : Put sha512 s descriptor bytes s') : Kept sha512 s' := by
  have hanswered : ∀ w ∈ s.accepted ++ [⟨descriptor, bytes, manifestOf sha512 descriptor bytes⟩],
      w.manifest = manifestOf sha512 w.descriptor w.bytes := by
    intro w hw
    rcases List.mem_append.1 hw with hw | hw
    · exact h.answered w hw
    · rw [List.mem_singleton.1 hw]
  cases hput with
  | refused => exact h
  | found w₀ hfirst =>
    refine ⟨fun id => ?_, hanswered, h.distinct⟩
    rw [first_append]
    by_cases hid : objectId descriptor.kind (sha512 bytes) = id
    · subst hid
      rw [hfirst, Option.some_or, ← hfirst]
      exact h.objects _
    · have hother : (manifestOf sha512 descriptor bytes).objectId ≠ id := hid
      rw [if_neg hother, Option.or_none]
      exact h.objects id
  | added hfirst =>
    have hnew : objectId descriptor.kind (sha512 bytes) ∉ s.store.objects.map (·.1) := by
      have hnone := h.objects (objectId descriptor.kind (sha512 bytes))
      rw [hfirst, Option.map_none, List.lookup_eq_none_iff] at hnone
      intro hmem
      obtain ⟨o, ho, hid⟩ := List.mem_map.1 hmem
      exact absurd hid.symm (by simpa using hnone o ho)
    refine ⟨fun id => ?_, hanswered, ?_⟩
    swap
    · rw [List.map_append, List.map_singleton]
      exact h.distinct.append (List.nodup_singleton _) (List.disjoint_singleton.2 hnew)
    rw [first_append, List.lookup_append, h.objects]
    by_cases hid : objectId descriptor.kind (sha512 bytes) = id
    · subst hid
      simp [hfirst, manifestOf]
    · have hother : (manifestOf sha512 descriptor bytes).objectId ≠ id := hid
      have hlookup : (id == objectId descriptor.kind (sha512 bytes)) = false := beq_eq_false_iff_ne.2 (Ne.symm hid)
      rw [if_neg hother, Option.or_none]
      simp [List.lookup_cons, hlookup]

/-! ## Runs of writes -/

theorem kept_of_run {maxRangeBytes maxReadBufferBytes : Int} {s : Session}
    (h : Run (Session.put sha512 maxUploadBytes writes) Any ⟨⟨[], maxRangeBytes, maxReadBufferBytes⟩, []⟩ s) :
    Kept sha512 s ∧ s.store.maxRangeBytes = maxRangeBytes ∧ s.store.maxReadBufferBytes = maxReadBufferBytes := by
  refine h.inv (fun s => Kept sha512 s ∧ s.store.maxRangeBytes = maxRangeBytes ∧ s.store.maxReadBufferBytes = maxReadBufferBytes)
    ⟨⟨fun _ => rfl, by simp, by exact List.nodup_nil⟩, rfl, rfl⟩ fun s a s' hs _ hstep => ?_
  have hput := put_cases hs.1 hstep
  refine ⟨hs.1.put hput, ?_⟩
  cases hput <;> exact hs.2

theorem first_of_mem {s : Session} {w : Accepted} (hw : w ∈ s.accepted) : ∃ w₀ ∈ s.accepted, s.first w.manifest.objectId = some w₀ := by
  obtain ⟨w₀, hfirst⟩ : ∃ w₀, s.first w.manifest.objectId = some w₀ := by
    rw [← Option.isSome_iff_exists, Session.first, List.find?_isSome]
    exact ⟨w, hw, decide_eq_true rfl⟩
  exact ⟨w₀, List.mem_of_find?_eq_some hfirst, hfirst⟩

/-- What was accepted is verified ever after. -/
theorem Kept.verified {s : Session} (h : Kept sha512 s) {w : Accepted} (hw : w ∈ s.accepted) :
    s.store.verifyFixity sha512 w.manifest.objectId = .ok true := by
  obtain ⟨w₀, -, hfirst⟩ := first_of_mem hw
  have hobject := h.objects w.manifest.objectId
  rw [hfirst, Option.map_some] at hobject
  simp only [Store.verifyFixity, hobject]
  exact firstVersion_verified _ _

/-- **In every run of writes, each accepted one is answered about its bytes, is verified ever after, and is read back whole by any
windows, unless other bytes of its kind and digest were written before.** -/
theorem puts_read_back {maxRangeBytes maxReadBufferBytes : Int} (hrange : 1 ≤ maxRangeBytes) (hbuffer : 1 ≤ maxReadBufferBytes)
    {s : Session} (h : Run (Session.put sha512 maxUploadBytes writes) Any ⟨⟨[], maxRangeBytes, maxReadBufferBytes⟩, []⟩ s) :
    ∀ w ∈ s.accepted, ReadsBack sha512 s w := by
  obtain ⟨hkept, hr, hb⟩ := kept_of_run h
  intro w hw
  have hmanifest := hkept.answered w hw
  obtain ⟨w₀, hmem, hfirst⟩ := first_of_mem hw
  have hobject := hkept.objects w.manifest.objectId
  rw [hfirst, Option.map_some] at hobject
  have hsame : w₀.descriptor.kind = w.descriptor.kind ∧ sha512 w₀.bytes = sha512 w.bytes := by
    have hid : w₀.manifest.objectId = w.manifest.objectId := by simpa using List.find?_some hfirst
    rw [hkept.answered w₀ hmem, hmanifest] at hid
    exact objectId_inj hid
  have hlocated := firstVersion_located w₀.descriptor.logicalName w₀.bytes hobject
  refine ⟨hmanifest, hkept.verified hw, ⟨w₀, hfirst, hsame.1, hsame.2, ?_⟩, fun hone lengths hlengths => ?_⟩
  · rw [hlocated, hsame.2, hmanifest]
    rfl
  · rw [hone w₀ hmem hsame.2] at hlocated
    have hread := @readAll_rest _ _ _ _ hlocated (hr ▸ hrange) (hb ▸ hbuffer) _ hlengths (w.bytes.length + 1) 0 0
      (Nat.zero_le _) (by simp)
    simpa using hread

/-- A digest that keeps the bytes apart. -/
def spelledDigest (bytes : List UInt8) : String := String.ofList (bytes.map fun b => Char.ofNat b.toNat)

/-- A store after one write, of three bytes in two reads. -/
def noteWritten : Session where
  store := ⟨[(objectId .source "hi!", firstVersion spelledDigest "a/note.txt" [0x68, 0x69, 0x21])], 1024, 1024⟩
  accepted := [⟨⟨"a/note.txt", .source⟩, [0x68, 0x69, 0x21], manifestOf spelledDigest ⟨"a/note.txt", .source⟩ [0x68, 0x69, 0x21]⟩]

theorem puts_read_back_note :
    (⟨⟨[], 1024, 1024⟩, []⟩ : Session).put spelledDigest 4 (fun _ _ => true) (⟨"a/note.txt", .source⟩, [[0x68], [0x69, 0x21]]) =
      some noteWritten ∧
    noteWritten.store.readAll (objectId .source "hi!") none (fun _ => some 2) 4 0 0 = some [0x68, 0x69, 0x21] := by
  have hput : (⟨⟨[], 1024, 1024⟩, []⟩ : Session).put spelledDigest 4 (fun _ _ => true) (⟨"a/note.txt", .source⟩, [[0x68], [0x69, 0x21]]) =
      some noteWritten := rfl
  have hread := @puts_read_back spelledDigest 4 (fun _ _ => true) 1024 1024 (by decide) (by decide) noteWritten
    (.step .refl trivial hput) _ List.mem_cons_self
  refine ⟨hput, hread.whole ?_ (fun _ => some 2) ?_⟩
  · intro w₀ hw₀ _
    rw [List.mem_singleton.1 hw₀]
  · intro k n hn
    rw [← Option.some.inj hn]
    decide

end Umd.SourceStore
