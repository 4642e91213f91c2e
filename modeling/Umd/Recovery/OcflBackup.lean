import Umd.Lib.JsonRead
import Umd.Lib.Splits
import Umd.Lib.Utf8
import Umd.Storage.ImmutableStore
/-!
# Backups of the source store

`recovery/ocfl_backup.py`: a backup is a copy of the storage root, of which every object that is
found by an `inventory.json` is verified. A store that was filled by writes is backed up and
restored with one verified entry for each of its objects if and only if no object was written
under the name `inventory.json` (`backup_iff`).
-/

namespace Umd.SourceStore

open Umd.Lib

/-! ## Storage roots -/

/-- A place under the root, by its names. -/
abbrev Place := List String

/-- The files under a root. -/
abbrev Root := List (Place × List UInt8)

/-- `json.loads` of a file, as far as it is told apart. -/
inductive LoadError
  /-- `OSError` or `JSONDecodeError`. -/
  | unreadable (text : String)
  | other (error : PyError)

inductive RecoveryError
  | unreadable (place : Place) (text : String)
  | noId (place : Place)
  | notRoot
  | notEmpty
  /-- `FileExistsError` of `copytree`. -/
  | fileExists
  | python (error : PyError)

/-- The OCFL library and the readers that recovery uses. -/
structure Ocfl where
  /-- Where an object is. -/
  layout : String → Place
  /-- The inventory as it is written, and as it is read. -/
  text : String → Inventory → List UInt8
  parse : List UInt8 → Option Inventory
  loads : List UInt8 → Except LoadError Json
  /-- The declarations of the root and of an object, and the digest beside an inventory. -/
  declarations : Root
  declaration : List UInt8
  sidecar : String → Inventory → List UInt8

/-- The names of a path. -/
def names (path : String) : Place := (path.toList.splitOn '/').map String.ofList

section

variable (ocfl : Ocfl) (sha512 : List UInt8 → String)

/-- What the library writes beside the content of an object. -/
def libraryFiles (id : String) (object : StoredObject) : Root :=
  [(["0=ocfl_object_1.1"], ocfl.declaration), (["inventory.json"], ocfl.text id object.inventory),
    (["inventory.json.sha512"], ocfl.sidecar id object.inventory), (["v1", "inventory.json"], ocfl.text id object.inventory),
    (["v1", "inventory.json.sha512"], ocfl.sidecar id object.inventory)]

/-- The files of an object. -/
def objectFiles (id : String) (object : StoredObject) : Root :=
  libraryFiles ocfl id object ++ object.files.map fun file => (names file.1, file.2)

/-- The root a store is kept in. -/
def rootOf (store : Store) : Root :=
  ocfl.declarations ++ store.objects.flatMap fun o => (objectFiles ocfl o.1 o.2).map fun file => (ocfl.layout o.1 ++ file.1, file.2)

/-! ## What is found -/

/-- `v` and digits. -/
def isVersionName (name : String) : Bool :=
  name.toList.head? = some 'v' && name.toList.drop 1 ≠ [] && (name.toList.drop 1).all Char.isDigit

/-- `_is_version_inventory` -/
def isVersionInventory (place : Place) : Bool := place.dropLast.getLast?.any isVersionName

/-- The id of an inventory that `discover_objects` has read. -/
def readId (file : Place × List UInt8) : Except RecoveryError (Place × String) :=
  match ocfl.loads file.2 with
  | .error (.unreadable text) => .error (.unreadable file.1 text)
  | .error (.other e) => .error (.python e)
  | .ok (.obj data) =>
    if (Dict.get data "id").truthy then .ok (file.1.dropLast, pyStr (Dict.get data "id")) else .error (.noId file.1)
  | .ok _ => .error (.python .attributeError)

/-- `root.rglob("inventory.json")`, but for those of a version. -/
def inventories (root : Root) : Root := root.filter fun file => file.1.getLast? = some "inventory.json" && !isVersionInventory file.1

/-- `discover_objects` -/
def discoverObjects (root : Root) : Except RecoveryError (List (Place × String)) :=
  ((inventories root).insertionSort fun file file' => file.1 ≤ file'.1).mapM (readId ocfl)

/-! ## What is verified -/

/-- The files under a place, by the paths from there. -/
def under (root : Root) (place : Place) : List (String × List UInt8) :=
  (root.filter fun file => place.isPrefixOf file.1 && file.1 ≠ place).map fun file =>
    ("/".intercalate (file.1.drop place.length), file.2)

/-- `SourceStore.verify_fixity` over a root; what it raises counts as not verified. -/
def verified (root : Root) (id : String) : Bool :=
  match ((under root (ocfl.layout id)).lookup "inventory.json").bind ocfl.parse with
  | none => false
  | some inventory =>
    match StoredObject.verify sha512 ⟨inventory, under root (ocfl.layout id)⟩ with
    | .ok ok => ok
    | .error _ => false

structure VerifyEntry where
  objectId : String
  ok : Bool

/-- `OcflVerifyReport` -/
structure VerifyReport where
  objectsFound : Nat
  entries : List VerifyEntry := []

def VerifyReport.ok (report : VerifyReport) : Bool := report.objectsFound = report.entries.length && report.entries.all (·.ok)

/-- The declaration of a root is there. -/
def isRoot (root : Root) : Bool := root.any fun file => file.1 = ["0=ocfl_1.1"]

/-- `verify_ocfl` -/
def verifyOcfl (root : Root) : Except RecoveryError VerifyReport := do
  if !isRoot root then return { objectsFound := 0 }
  let objects ← discoverObjects ocfl root
  return { objectsFound := objects.length, entries := objects.map fun o => ⟨o.2, verified ocfl sha512 root o.2⟩ }

/-- `backup_ocfl`: the copy, and what is reported of it. `dest` is what is there, if anything. -/
def backupOcfl (root : Root) (dest : Option Root) : Except RecoveryError (Root × VerifyReport) :=
  if !isRoot root then .error .notRoot
  else
    match dest with
    | some (_ :: _) => .error .notEmpty
    | some [] => .error .fileExists
    | none => (verifyOcfl ocfl sha512 root).map (root, ·)

/-- `restore_ocfl` -/
def restoreOcfl (snapshot : Root) (target : Option Root) : Except RecoveryError (Root × VerifyReport) :=
  if !isRoot snapshot then .error .notRoot
  else
    match target with
    | some root => if isRoot root then .error .notEmpty else .error .fileExists
    | none => (verifyOcfl ocfl sha512 snapshot).map (snapshot, ·)

end

/-- The object of a first write, by its id. -/
def written (sha512 : List UInt8 → String) (kind : Kind) (name : String) (bytes : List UInt8) : String × StoredObject :=
  (objectId kind (sha512 bytes), firstVersion sha512 name bytes)

/-- The objects of the store are first writes. -/
def FirstWrites (sha512 : List UInt8 → String) (store : Store) : Prop :=
  ∀ o ∈ store.objects, ∃ kind name bytes, o = written sha512 kind name bytes

/-- What the library keeps to for what is written: objects apart from each other and from what the root declares, and inventories that
read back. -/
structure Ocfl.Sound (ocfl : Ocfl) (sha512 : List UInt8 → String) : Prop where
  declares : isRoot ocfl.declarations = true
  plain : ∀ file ∈ ocfl.declarations, file.1.getLast? ≠ some "inventory.json"
  outside : ∀ file ∈ ocfl.declarations, ∀ kind digest, ¬ ocfl.layout (objectId kind digest) <+: file.1
  apart : ∀ kind digest kind' digest', ocfl.layout (objectId kind digest) <+: ocfl.layout (objectId kind' digest') →
    objectId kind digest = objectId kind' digest'
  named : ∀ kind digest, (ocfl.layout (objectId kind digest)).getLast?.any isVersionName = false
  parses : ∀ kind name bytes, ocfl.parse (ocfl.text (objectId kind (sha512 bytes)) (firstVersion sha512 name bytes).inventory) =
    some (firstVersion sha512 name bytes).inventory
  loads : ∀ kind name bytes, ∃ data : Dict,
    ocfl.loads (ocfl.text (objectId kind (sha512 bytes)) (firstVersion sha512 name bytes).inventory) = .ok (.obj data) ∧
      data.get "id" = .str (objectId kind (sha512 bytes))

variable {ocfl : Ocfl} {sha512 : List UInt8 → String} {store : Store}

/-! ## The files of a store -/

theorem isRoot_rootOf (h : ocfl.Sound sha512) (store : Store) : isRoot (rootOf ocfl store) = true := by
  have hdeclares := h.declares
  unfold isRoot at hdeclares ⊢
  rw [rootOf, List.any_append, hdeclares, Bool.true_or]

/-- The path of a file is the one it is listed under. -/
theorem intercalate_names (path : String) : "/".intercalate (names path) = path := by
  rw [← String.toList_inj, String.toList_intercalate, names, List.map_map]
  have hid : String.toList ∘ String.ofList = id := funext fun _ => String.toList_ofList
  rw [hid, List.map_id]
  exact List.intercalate_splitOn ..

theorem names_ne_nil (path : String) : names path ≠ [] := by simp [names]

theorem objectFiles_ne {id : String} {object : StoredObject} : ∀ file ∈ objectFiles ocfl id object, file.1 ≠ [] := by
  intro file hfile
  simp only [objectFiles, libraryFiles, List.mem_append, List.mem_cons, List.not_mem_nil, or_false, List.mem_map] at hfile
  rcases hfile with (rfl | rfl | rfl | rfl | rfl) | ⟨f, -, rfl⟩
  all_goals first | exact List.cons_ne_nil _ _ | exact names_ne_nil _

/-- Under the place of an object are its own files. -/
theorem under_rootOf (h : ocfl.Sound sha512) (hdistinct : (store.objects.map (·.1)).Nodup) (hfirst : FirstWrites sha512 store)
    {id : String} {object : StoredObject} (hobject : (id, object) ∈ store.objects) :
    under (rootOf ocfl store) (ocfl.layout id) = (objectFiles ocfl id object).map fun file => ("/".intercalate file.1, file.2) := by
  obtain ⟨kind, name, bytes, hwritten⟩ := hfirst _ hobject
  have hid : objectId kind (sha512 bytes) = id := (congrArg Prod.fst hwritten).symm
  have hdeclared : ocfl.declarations.filter (fun file => (ocfl.layout id).isPrefixOf file.1 && file.1 ≠ ocfl.layout id) = [] := by
    rw [List.filter_eq_nil_iff]
    intro file hfile
    simp [hid ▸ h.outside file hfile kind (sha512 bytes)]
  have hother : ∀ o ∈ store.objects, o.1 ≠ id →
      ((objectFiles ocfl o.1 o.2).map fun file => (ocfl.layout o.1 ++ file.1, file.2)).filter
        (fun file => (ocfl.layout id).isPrefixOf file.1 && file.1 ≠ ocfl.layout id) = [] := by
    intro o ho hne
    obtain ⟨kind', name', bytes', hwritten'⟩ := hfirst o ho
    have hid' : objectId kind' (sha512 bytes') = o.1 := (congrArg Prod.fst hwritten').symm
    rw [List.filter_eq_nil_iff]
    intro file hfile
    obtain ⟨f, -, rfl⟩ := List.mem_map.1 hfile
    simp only [Bool.and_eq_true, List.isPrefixOf_iff_prefix, not_and]
    intro hprefix
    rcases List.prefix_or_prefix_of_prefix hprefix (List.prefix_append _ _) with hle | hle
    · rw [← hid, ← hid'] at hle
      exact absurd (hid ▸ hid' ▸ h.apart _ _ _ _ hle).symm hne
    · rw [← hid, ← hid'] at hle
      exact absurd (hid ▸ hid' ▸ h.apart _ _ _ _ hle) hne
  have hown : ((objectFiles ocfl id object).map fun file => (ocfl.layout id ++ file.1, file.2)).filter
      (fun file => (ocfl.layout id).isPrefixOf file.1 && file.1 ≠ ocfl.layout id) =
        (objectFiles ocfl id object).map fun file => (ocfl.layout id ++ file.1, file.2) := by
    rw [List.filter_eq_self]
    intro file hfile
    obtain ⟨f, hf, rfl⟩ := List.mem_map.1 hfile
    simp [objectFiles_ne f hf]
  obtain ⟨pre, post, hobjects⟩ := List.append_of_mem hobject
  have hpres : pre ⊆ store.objects := hobjects ▸ List.subset_append_left _ _
  have hposts : post ⊆ store.objects := hobjects ▸ fun o ho => List.mem_append_right _ (List.mem_cons_of_mem _ ho)
  rw [hobjects, List.map_append, List.map_cons, List.nodup_append] at hdistinct
  obtain ⟨-, hpost, hpre⟩ := hdistinct
  have hnil : ∀ os : List (String × StoredObject), os ⊆ store.objects → (∀ o ∈ os, o.1 ≠ id) →
      (os.flatMap fun o => (objectFiles ocfl o.1 o.2).map fun file => (ocfl.layout o.1 ++ file.1, file.2)).filter
        (fun file => (ocfl.layout id).isPrefixOf file.1 && file.1 ≠ ocfl.layout id) = [] := by
    intro os hsub hos
    rw [List.filter_flatMap, List.flatMap_eq_nil_iff]
    exact fun o ho => hother o (hsub ho) (hos o ho)
  rw [under, rootOf, List.filter_append, hdeclared, hobjects, List.flatMap_append, List.filter_append, List.flatMap_cons,
    List.filter_append, hown, hnil pre hpres, hnil post hposts, List.nil_append, List.nil_append, List.append_nil, List.map_map]
  · refine List.map_congr_left fun file _ => ?_
    simp
  · intro o ho he
    exact (List.nodup_cons.1 hpost).1 (List.mem_map.2 ⟨o, ho, he⟩)
  · intro o ho he
    exact hpre _ (List.mem_map_of_mem ho) _ List.mem_cons_self he

theorem content_ne {name other : String} (h : other.toList.take 4 ≠ ['v', '1', '/', 'c']) : ("v1/content/" ++ name != other) = true := by
  rw [bne_iff_ne]
  rintro rfl
  exact h (by simp)

theorem libraryFiles_content (id name : String) (object : StoredObject) :
    ((libraryFiles ocfl id object).map fun file => ("/".intercalate file.1, file.2)).lookup ("v1/content/" ++ name) = none := by
  rw [List.lookup_eq_none_iff]
  intro file hfile
  simp only [libraryFiles, List.map_cons, List.map_nil, List.mem_cons, List.not_mem_nil, or_false] at hfile
  rcases hfile with rfl | rfl | rfl | rfl | rfl
  all_goals exact content_ne (by simp)

/-- The content of a first write is where its inventory says. -/
theorem under_content (h : ocfl.Sound sha512) (hdistinct : (store.objects.map (·.1)).Nodup) (hfirst : FirstWrites sha512 store)
    {id name : String} {bytes : List UInt8} (hobject : (id, firstVersion sha512 name bytes) ∈ store.objects) :
    (under (rootOf ocfl store) (ocfl.layout id)).lookup ("v1/content/" ++ sanitizeName name) = some bytes := by
  rw [under_rootOf h hdistinct hfirst hobject, objectFiles, List.map_append, List.lookup_append, libraryFiles_content, Option.none_or, List.map_map]
  simp only [firstVersion, List.map_cons, List.map_nil, Function.comp_apply, intercalate_names, List.lookup_cons, beq_self_eq_true]

/-- Every object of a root is verified. -/
theorem verified_rootOf (h : ocfl.Sound sha512) (hdistinct : (store.objects.map (·.1)).Nodup) (hfirst : FirstWrites sha512 store)
    {o : String × StoredObject} (ho : o ∈ store.objects) : verified ocfl sha512 (rootOf ocfl store) o.1 = true := by
  obtain ⟨kind, name, bytes, rfl⟩ := hfirst _ ho
  have hinventory : (under (rootOf ocfl store) (ocfl.layout (objectId kind (sha512 bytes)))).lookup "inventory.json" =
      some (ocfl.text (objectId kind (sha512 bytes)) (firstVersion sha512 name bytes).inventory) := by
    rw [under_rootOf h hdistinct hfirst ho]
    simp [objectFiles, libraryFiles, List.lookup_cons]
  simp only [verified, written, hinventory, Option.bind_some, h.parses, verify_files name bytes (under_content h hdistinct hfirst ho)]

/-! ## The inventories of a store -/

theorem slash_sanitizeName (name : String) : '/' ∉ (sanitizeName name).toList := by
  unfold sanitizeName
  split
  · decide
  · intro hslash
    rw [baseName, String.toList_ofList] at hslash
    cases hlast : ((name.toList.splitOn '/').filter fun part => part ≠ [] ∧ part ≠ ['.']).getLast? with
    | none =>
      rw [hlast] at hslash
      exact List.not_mem_nil hslash
    | some part =>
      rw [hlast] at hslash
      exact Splits.not_mem_splitOn (List.mem_filter.1 (List.mem_of_getLast? hlast)).1 hslash

theorem names_content (name : String) : names ("v1/content/" ++ sanitizeName name) = ["v1", "content", sanitizeName name] := by
  have hpath : "v1/content/" ++ sanitizeName name = "/".intercalate ["v1", "content", sanitizeName name] := by
    simp [← String.toList_inj]
  have hslash : ∀ part ∈ ["v1", "content", sanitizeName name].map String.toList, '/' ∉ part := by
    intro part hpart
    simp only [List.map_cons, List.map_nil, List.mem_cons, List.not_mem_nil, or_false] at hpart
    rcases hpart with rfl | rfl | rfl
    · decide
    · decide
    · exact slash_sanitizeName name
  rw [names, hpath, String.toList_intercalate]
  change (List.splitOn '/' (['/'].intercalate _)).map String.ofList = _
  rw [List.splitOn_intercalate _ hslash (List.cons_ne_nil _ _)]
  simp

/-- A file of the object is written under the name of the inventories. -/
def StoredObject.misnamed (object : StoredObject) : Bool := object.files.any fun file => (names file.1).getLast? = some "inventory.json"

theorem misnamed_iff (name : String) (bytes : List UInt8) :
    (firstVersion sha512 name bytes).misnamed = true ↔ baseName name = "inventory.json" := by
  have hsanitized : sanitizeName name = "inventory.json" ↔ baseName name = "inventory.json" := by
    unfold sanitizeName
    by_cases hbase : baseName name ∈ ["", ".", ".."]
    · rw [if_pos hbase]
      simp only [List.mem_cons, List.not_mem_nil, or_false] at hbase
      rcases hbase with h | h | h
      all_goals simp [h]
    · rw [if_neg hbase]
  rw [← hsanitized]
  simp [StoredObject.misnamed, firstVersion, names_content]

/-- What is taken for an inventory among the files of an object. -/
def foundIn (ocfl : Ocfl) (o : String × StoredObject) : Root :=
  (ocfl.layout o.1 ++ ["inventory.json"], ocfl.text o.1 o.2.inventory) ::
    if o.2.misnamed then o.2.files.map fun file => (ocfl.layout o.1 ++ names file.1, file.2) else []

theorem isVersionName_v1 : isVersionName "v1" = true := by simp [isVersionName]

theorem isVersionName_content : isVersionName "content" = false := by simp [isVersionName]

/-- Of what the library writes, the inventory of the object is found, and that of its version is not. -/
theorem inventories_library {id : String} (hname : (ocfl.layout id).getLast?.any isVersionName = false) (object : StoredObject) :
    inventories ((libraryFiles ocfl id object).map fun file => (ocfl.layout id ++ file.1, file.2)) =
      [(ocfl.layout id ++ ["inventory.json"], ocfl.text id object.inventory)] := by
  have hobject : isVersionInventory (ocfl.layout id ++ ["inventory.json"]) = false := by
    rw [isVersionInventory, List.dropLast_concat, hname]
  have hversion : isVersionInventory (ocfl.layout id ++ ["v1", "inventory.json"]) = true := by
    rw [List.append_cons, isVersionInventory, List.dropLast_concat, List.getLast?_concat]
    exact isVersionName_v1
  simp [inventories, libraryFiles, hobject, hversion]

theorem inventories_content (place : Place) (name : String) (bytes : List UInt8) :
    inventories [(place ++ ["v1", "content", name], bytes)] =
      if name = "inventory.json" then [(place ++ ["v1", "content", name], bytes)] else [] := by
  have hcontent : isVersionInventory (place ++ ["v1", "content", name]) = false := by
    rw [List.append_cons, List.append_cons, isVersionInventory, List.dropLast_concat, List.getLast?_concat]
    exact isVersionName_content
  simp [inventories, List.filter_singleton, hcontent]

theorem inventories_object {id : String} (hname : (ocfl.layout id).getLast?.any isVersionName = false) (name : String)
    (bytes : List UInt8) :
    inventories ((objectFiles ocfl id (firstVersion sha512 name bytes)).map fun file => (ocfl.layout id ++ file.1, file.2)) =
      foundIn ocfl (id, firstVersion sha512 name bytes) := by
  have hlibrary := inventories_library hname (firstVersion sha512 name bytes)
  have hcontent := inventories_content (ocfl.layout id) (sanitizeName name) bytes
  unfold inventories at hlibrary hcontent ⊢
  rw [objectFiles, List.map_append, List.filter_append, hlibrary, foundIn, List.singleton_append]
  refine congrArg (List.cons _) ?_
  simp only [firstVersion, List.map_cons, List.map_nil, names_content, hcontent, StoredObject.misnamed, List.any_cons, List.any_nil,
    Bool.or_false, List.getLast?_cons_cons, List.getLast?_singleton, Option.some.injEq, decide_eq_true_eq]

/-- What is taken for an inventory in a root: one for each object, and the contents of that name. -/
theorem inventories_rootOf (h : ocfl.Sound sha512) (hfirst : FirstWrites sha512 store) :
    inventories (rootOf ocfl store) = store.objects.flatMap (foundIn ocfl) := by
  have hdeclared : inventories ocfl.declarations = [] := by
    unfold inventories
    rw [List.filter_eq_nil_iff]
    intro file hfile
    simp [h.plain file hfile]
  unfold inventories at hdeclared ⊢
  rw [rootOf, List.filter_append, hdeclared, List.nil_append, List.filter_flatMap]
  refine List.flatMap_congr fun o ho => ?_
  obtain ⟨kind, name, bytes, rfl⟩ := hfirst _ ho
  exact inventories_object (h.named kind (sha512 bytes)) name bytes

theorem length_foundIn (o : String × StoredObject) : 1 ≤ (foundIn ocfl o).length := by simp [foundIn]

/-- A content of that name is one more. -/
theorem length_misnamed {o : String × StoredObject} (h : o.2.misnamed = true) : 2 ≤ (foundIn ocfl o).length := by
  have hfiles : o.2.files ≠ [] := by
    intro hnil
    rw [StoredObject.misnamed, hnil] at h
    exact Bool.false_ne_true h
  have hlength := List.length_pos_iff.2 hfiles
  simp only [foundIn, h, if_true, List.length_cons, List.length_map]
  omega

theorem length_le_flatMap (os : List (String × StoredObject)) : os.length ≤ (os.flatMap (foundIn ocfl)).length := by
  induction os with
  | nil => exact Nat.zero_le _
  | cons o os ih =>
    have ho := @length_foundIn ocfl o
    rw [List.flatMap_cons, List.length_append, List.length_cons]
    omega

/-- More is found than there are objects. -/
theorem length_lt_flatMap {os : List (String × StoredObject)} {o : String × StoredObject} (ho : o ∈ os) (h : o.2.misnamed = true) :
    os.length < (os.flatMap (foundIn ocfl)).length := by
  obtain ⟨pre, post, rfl⟩ := List.append_of_mem ho
  have hpre := @length_le_flatMap ocfl pre
  have hpost := @length_le_flatMap ocfl post
  have htwo := @length_misnamed ocfl o h
  simp only [List.flatMap_append, List.flatMap_cons, List.length_append, List.length_cons]
  omega

theorem flatMap_foundIn {os : List (String × StoredObject)} (h : ∀ o ∈ os, o.2.misnamed = false) :
    os.flatMap (foundIn ocfl) = os.map fun o => (ocfl.layout o.1 ++ ["inventory.json"], ocfl.text o.1 o.2.inventory) := by
  rw [List.map_eq_flatMap]
  refine List.flatMap_congr fun o ho => ?_
  simp [foundIn, h o ho]

/-! ## What a store's root reports -/

theorem mapM_ok {α β ε : Type} {f : α → Except ε β} {g : α → β} {xs : List α} (h : ∀ x ∈ xs, f x = .ok (g x)) :
    xs.mapM f = .ok (xs.map g) := by
  induction xs with
  | nil => rfl
  | cons x xs ih =>
    rw [List.mapM_cons, h x List.mem_cons_self, ih fun y hy => h y (List.mem_cons_of_mem _ hy)]
    rfl

theorem mapM_length {α β ε : Type} {f : α → Except ε β} {xs : List α} {ys : List β} (h : xs.mapM f = .ok ys) : ys.length = xs.length := by
  induction xs generalizing ys with
  | nil =>
    cases h
    rfl
  | cons x xs ih =>
    rw [List.mapM_cons] at h
    cases hx : f x with
    | error e =>
      rw [hx] at h
      cases h
    | ok y =>
      cases hxs : xs.mapM f with
      | error e =>
        rw [hx, hxs] at h
        cases h
      | ok rest =>
        rw [hx, hxs] at h
        cases h
        rw [List.length_cons, List.length_cons, ih hxs]

/-- The id of an inventory. -/
def idOf (ocfl : Ocfl) (file : Place × List UInt8) : String :=
  match readId ocfl file with
  | .ok found => found.2
  | .error _ => ""

theorem objectId_ne (kind : Kind) (digest : String) : objectId kind digest ≠ "" := by
  rw [ne_eq, ← String.toList_inj]
  simp [objectId]

/-- The inventory of an object reads as its id. -/
theorem readId_object (h : ocfl.Sound sha512) (hfirst : FirstWrites sha512 store) {o : String × StoredObject} (ho : o ∈ store.objects) :
    readId ocfl (ocfl.layout o.1 ++ ["inventory.json"], ocfl.text o.1 o.2.inventory) = .ok (ocfl.layout o.1, o.1) := by
  obtain ⟨kind, name, bytes, rfl⟩ := hfirst _ ho
  obtain ⟨data, hloads, hdata⟩ := h.loads kind name bytes
  simp only [readId, written, hloads, hdata]
  simp [Json.truthy, objectId_ne, pyStr]

/-- The objects of a store are found by their ids. -/
theorem discover_rootOf (h : ocfl.Sound sha512) (hfirst : FirstWrites sha512 store)
    (hnames : ∀ o ∈ store.objects, o.2.misnamed = false) :
    ∃ found, discoverObjects ocfl (rootOf ocfl store) = .ok found ∧ (found.map (·.2)).Perm (store.objects.map (·.1)) := by
  have hinventories := inventories_rootOf h hfirst
  rw [flatMap_foundIn hnames] at hinventories
  have hperm := List.perm_insertionSort (fun file file' : Place × List UInt8 => file.1 ≤ file'.1) (inventories (rootOf ocfl store))
  have hread : ∀ file ∈ (inventories (rootOf ocfl store)).insertionSort fun file file' => file.1 ≤ file'.1,
      readId ocfl file = .ok (file.1.dropLast, idOf ocfl file) := by
    intro file hfile
    rw [hperm.mem_iff, hinventories] at hfile
    obtain ⟨o, ho, rfl⟩ := List.mem_map.1 hfile
    rw [idOf, readId_object h hfirst ho, List.dropLast_concat]
  refine ⟨_, mapM_ok hread, ?_⟩
  rw [List.map_map]
  refine (hperm.map _).trans ?_
  rw [hinventories, List.map_map]
  refine List.Perm.of_eq (List.map_congr_left fun o ho => ?_)
  simp only [Function.comp_apply, idOf, readId_object h hfirst ho]

/-- A report of one verified entry for each object. -/
def Vouched (report : VerifyReport) (store : Store) : Prop :=
  report.ok = true ∧ (report.entries.map (·.objectId)).Perm (store.objects.map (·.1))

/-- The root of a store is copied, and the copy is copied back, each time with that report. -/
def BacksUp (ocfl : Ocfl) (sha512 : List UInt8 → String) (store : Store) : Prop :=
  ∃ report, backupOcfl ocfl sha512 (rootOf ocfl store) none = .ok (rootOf ocfl store, report) ∧
    restoreOcfl ocfl sha512 (rootOf ocfl store) none = .ok (rootOf ocfl store, report) ∧ Vouched report store

/-- A root is vouched for if and only if no content has the name of the inventories. -/
theorem verify_rootOf (h : ocfl.Sound sha512) (hdistinct : (store.objects.map (·.1)).Nodup) (hfirst : FirstWrites sha512 store) :
    (∃ report, verifyOcfl ocfl sha512 (rootOf ocfl store) = .ok report ∧ Vouched report store) ↔
      ∀ o ∈ store.objects, o.2.misnamed = false := by
  constructor
  · rintro ⟨report, hreport, -, hperm⟩ o ho
    rw [← Bool.not_eq_true]
    intro hnamed
    simp only [verifyOcfl, isRoot_rootOf h, Bool.not_true, Bool.false_eq_true, if_false] at hreport
    cases hfound : discoverObjects ocfl (rootOf ocfl store) with
    | error e =>
      rw [hfound] at hreport
      cases hreport
    | ok found =>
      rw [hfound] at hreport
      cases hreport
      have hmore := @length_lt_flatMap ocfl _ _ ho hnamed
      have hlength := mapM_length hfound
      rw [List.length_insertionSort, inventories_rootOf h hfirst] at hlength
      have hentries := hperm.length_eq
      simp only [List.length_map] at hentries
      omega
  · intro hnames
    obtain ⟨found, hfound, hperm⟩ := discover_rootOf h hfirst hnames
    refine ⟨{ objectsFound := found.length, entries := found.map fun o => ⟨o.2, verified ocfl sha512 (rootOf ocfl store) o.2⟩ }, ?_, ?_, ?_⟩
    · simp only [verifyOcfl, isRoot_rootOf h, Bool.not_true, Bool.false_eq_true, if_false, hfound]
      rfl
    · simp only [VerifyReport.ok, List.length_map, decide_true, Bool.true_and, List.all_map, List.all_eq_true, Function.comp_apply]
      intro o ho
      have hmem := hperm.subset (List.mem_map_of_mem ho)
      obtain ⟨object, hobject, hid⟩ := List.mem_map.1 hmem
      rw [← hid]
      exact verified_rootOf h hdistinct hfirst hobject
    · rw [List.map_map]
      exact hperm

/-! ## Stores that were filled by writes -/

/-- An object that is listed once is the one of its id. -/
theorem lookup_of_mem {objects : List (String × StoredObject)} (h : (objects.map (·.1)).Nodup) {o : String × StoredObject} (ho : o ∈ objects) :
    objects.lookup o.1 = some o.2 := by
  obtain ⟨pre, post, rfl⟩ := List.append_of_mem ho
  rw [List.lookup_eq_some_iff]
  refine ⟨pre, post, rfl, fun p hp => ?_⟩
  rw [List.map_append, List.map_cons, List.nodup_append] at h
  rw [bne_iff_ne]
  exact (h.2.2 p.1 (List.mem_map_of_mem hp) o.1 List.mem_cons_self).symm

/-- The objects of a store filled by writes. -/
theorem Kept.firstWrite {s : Session} (h : Kept sha512 s) {o : String × StoredObject} (ho : o ∈ s.store.objects) :
    ∃ w ∈ s.accepted, s.first o.1 = some w ∧ w.manifest.objectId = o.1 ∧ o.2 = firstVersion sha512 w.descriptor.logicalName w.bytes := by
  have hlookup := lookup_of_mem h.distinct ho
  rw [h.objects o.1, Option.map_eq_some_iff] at hlookup
  obtain ⟨w, hfirst, hobject⟩ := hlookup
  refine ⟨w, List.mem_of_find?_eq_some hfirst, hfirst, ?_, hobject.symm⟩
  simpa using List.find?_some hfirst

/-- **The root of a store filled by writes is backed up and restored, with one verified entry for each of its objects, if and only if
no object was first written under the name of an inventory.** -/
theorem backup_iff (h : ocfl.Sound sha512) {maxRangeBytes maxReadBufferBytes : Int} {s : Session}
    (hrun : Run (Session.put sha512 maxUploadBytes writes) Any ⟨⟨[], maxRangeBytes, maxReadBufferBytes⟩, []⟩ s) :
    BacksUp ocfl sha512 s.store ↔ ∀ w ∈ s.accepted, s.first w.manifest.objectId = some w → baseName w.descriptor.logicalName ≠ "inventory.json" := by
  have hkept := (kept_of_run hrun).1
  have hfirst : FirstWrites sha512 s.store := by
    intro o ho
    obtain ⟨w, hw, -, hid, hobject⟩ := hkept.firstWrite ho
    rw [hkept.answered w hw] at hid
    exact ⟨_, _, _, Prod.ext hid.symm hobject⟩
  have hroot := isRoot_rootOf h s.store
  have hboth : BacksUp ocfl sha512 s.store ↔ ∃ report, verifyOcfl ocfl sha512 (rootOf ocfl s.store) = .ok report ∧ Vouched report s.store := by
    simp only [BacksUp, backupOcfl, restoreOcfl, hroot, Bool.not_true, Bool.false_eq_true, if_false]
    cases verifyOcfl ocfl sha512 (rootOf ocfl s.store) with
    | error e => simp [Except.map]
    | ok report => simp [Except.map]
  rw [hboth, verify_rootOf h hkept.distinct hfirst]
  constructor
  · intro hnames w hw hwfirst hbase
    have hlookup := hkept.objects w.manifest.objectId
    rw [hwfirst, Option.map_some] at hlookup
    obtain ⟨pre, post, hobjects, -⟩ := List.lookup_eq_some_iff.1 hlookup
    have hnamed := hnames _ (hobjects ▸ List.mem_append_right pre List.mem_cons_self)
    rw [(misnamed_iff _ _).2 hbase] at hnamed
    exact Bool.noConfusion hnamed
  · intro hwrites o ho
    obtain ⟨w, hw, hwfirst, hid, hobject⟩ := hkept.firstWrite ho
    rw [← Bool.not_eq_true, hobject, misnamed_iff]
    rw [← hid] at hwfirst
    exact hwrites w hw hwfirst

/-! ## A library that writes JSON -/

def stateJson (state : List (String × List String)) : Json := .obj (state.map fun f => (f.1, .arr (f.2.map .str)))

/-- The fields of an inventory that the store reads, and its id. -/
def inventoryJson (id : String) (inventory : Inventory) : Json :=
  .obj [("head", .str inventory.head), ("id", .str id), ("manifest", stateJson inventory.manifest),
    ("versions", .obj (inventory.versions.map fun v => (v.1, .obj [("state", stateJson v.2)])))]

def textOf : Json → Option String
  | .str text => some text
  | _ => none

def namesOf : Json → Option (List String)
  | .arr xs => xs.mapM textOf
  | _ => none

def stateOf : Json → Option (List (String × List String))
  | .obj d => d.mapM fun f => (namesOf f.2).map (f.1, ·)
  | _ => none

def versionOf : Json → Option (List (String × List String))
  | .obj d => stateOf (Dict.get d "state")
  | _ => none

def versionsOf : Json → Option (List (String × List (String × List String)))
  | .obj d => d.mapM fun f => (versionOf f.2).map (f.1, ·)
  | _ => none

def inventoryOf : Json → Option Inventory
  | .obj d => do return { head := ← textOf (Dict.get d "head"), versions := ← versionsOf (Dict.get d "versions"), manifest := ← stateOf (Dict.get d "manifest") }
  | _ => none

/-- `json.loads(path.read_text(encoding="utf-8"))` -/
def loadsFile (bytes : List UInt8) : Except LoadError Json :=
  match Utf8.decodeStrict bytes with
  | none => .error (.other .valueError)
  | some cs =>
    match Lib.loads (String.ofList cs) with
    | none => .error (.unreadable "not JSON")
    | some j => .ok j

/-- A library that keeps each object in a directory of its id. -/
def jsonOcfl : Ocfl where
  layout id := ["objects", id]
  text id inventory := Utf8.encode (dumps (inventoryJson id inventory)).toList
  parse bytes := (loadsFile bytes).toOption.bind inventoryOf
  loads := loadsFile
  declarations := [(["0=ocfl_1.1"], Utf8.encode "ocfl_1.1\n".toList)]
  declaration := Utf8.encode "ocfl_object_1.1\n".toList
  sidecar _ _ := []

theorem loadsFile_dumps (j : Json) : loadsFile (Utf8.encode (dumps j).toList) = .ok j.norm := by
  rw [loadsFile, Utf8.decodeStrict_encode]
  simp only [String.ofList_toList, loads_dumps]

/-- An inventory of one version with one file reads back as it was written. -/
theorem norm_inventory (id name : String) (bytes : List UInt8) :
    (inventoryJson id (firstVersion sha512 name bytes).inventory).norm = inventoryJson id (firstVersion sha512 name bytes).inventory := by
  simp [inventoryJson, stateJson, firstVersion, Json.norm, Json.normFields, Json.normList, sortFields, insertEntry, Dict.update, Dict.set]

theorem jsonOcfl_sound (sha512 : List UInt8 → String) : jsonOcfl.Sound sha512 where
  declares := rfl
  plain := by simp [jsonOcfl]
  outside := by simp [jsonOcfl]
  apart kind digest kind' digest' h := by simpa [jsonOcfl] using h
  named kind digest := by simp [jsonOcfl, isVersionName, objectId]
  parses kind name bytes := by
    simp only [jsonOcfl, loadsFile_dumps, norm_inventory]
    simp [Except.toOption, inventoryJson, inventoryOf, firstVersion, stateJson, stateOf, versionsOf, versionOf, namesOf, textOf, Dict.get,
      Dict.get?]
  loads kind name bytes := by
    simp only [jsonOcfl, loadsFile_dumps, norm_inventory]
    exact ⟨_, rfl, by simp [Dict.get, Dict.get?]⟩

/-- A store after one write, of an upload that is called as an inventory is. -/
def inventoryWritten : Session where
  store := ⟨[written spelledDigest .source "inventory.json" [0x7b, 0x7d]], 1024, 1024⟩
  accepted := [⟨⟨"inventory.json", .source⟩, [0x7b, 0x7d], manifestOf spelledDigest ⟨"inventory.json", .source⟩ [0x7b, 0x7d]⟩]

theorem backup_iff_uploads :
    BacksUp jsonOcfl spelledDigest noteWritten.store ∧ ¬ BacksUp jsonOcfl spelledDigest inventoryWritten.store := by
  have hsound := jsonOcfl_sound spelledDigest
  have hnote : (⟨⟨[], 1024, 1024⟩, []⟩ : Session).put spelledDigest 4 (fun _ _ => true) (⟨"a/note.txt", .source⟩, [[0x68], [0x69, 0x21]]) =
      some noteWritten := rfl
  have hinventory : (⟨⟨[], 1024, 1024⟩, []⟩ : Session).put spelledDigest 4 (fun _ _ => true) (⟨"inventory.json", .source⟩, [[0x7b, 0x7d]]) =
      some inventoryWritten := rfl
  constructor
  · refine (@backup_iff jsonOcfl spelledDigest 4 (fun _ _ => true) hsound 1024 1024 noteWritten (.step .refl trivial hnote)).2 ?_
    intro w hw _
    rw [List.mem_singleton.1 hw]
    decide +kernel
  · rw [@backup_iff jsonOcfl spelledDigest 4 (fun _ _ => true) hsound 1024 1024 inventoryWritten (.step .refl trivial hinventory)]
    intro h
    exact h _ List.mem_cons_self (by simp [Session.first, inventoryWritten]) (by decide +kernel)

end Umd.SourceStore
