import Umd.Extractors.EpubParagraphs
import Umd.Jobs.Service
import Umd.Lib.Orders
/-!
# The spine of EPUB containers

`extract_epub`: the package of a container is found and read, and each item of its spine is
filled from the member its href names or, where there is none, from the first member of the
same base name in the order in which Python lists a set. The document is the same for every
such order, and no item is filled from another member, if and only if every item names a
member or no member has its base name (`spine_iff`).
-/

namespace Umd.Epub

open Umd.Lib Umd.Lib.Splits Umd.Lib.Markup Umd.Projections Umd.Jobs

abbrev Bytes := List UInt8

/-- What `zf.read` raises. -/
inductive ReadError
  | badZip (text : String)
  | other (text : String)

/-- What `ET.fromstring` raises. -/
inductive XmlError
  | parseError (text : String)
  | other (text : String)

/-- `EpubParseError` with its text, and what is raised by the parser or the archive and not caught. -/
inductive EpubError
  | parse (text : String)
  | xml (error : XmlError)
  | read (text : String)

structure ZipInfo where
  filename : String
  fileSize : Nat

/-- An opened archive. -/
structure Zip where
  infolist : List ZipInfo
  read : String → Except ReadError Bytes

def Zip.names (zip : Zip) : Finset String := (zip.infolist.map (·.filename)).toFinset

/-- `EpubDocument` -/
structure EpubDocument where
  title : Option (List Char) := none
  language : Option (List Char) := none
  spine : List EpubSpineItem := []
  warnings : List String := []
  deriving DecidableEq

/-- `SandboxLimits().max_decompressed_bytes` -/
def maxDecompressedBytes : Nat := 512 * 1024 * 1024

section

-- `fromstring` is the XML parser; `order` lists a set as Python iterates over it
variable (fromstring : Bytes → Except XmlError Element) (order : SetOrder String)

/-! ## The package -/

/-- `zf.read` inside `extract_epub`, which turns a bad archive into its own error. -/
def readMember (zip : Zip) (name : String) : Except EpubError Bytes :=
  match zip.read name with
  | .ok raw => .ok raw
  | .error (.badZip text) => .error (.parse ("not a valid ZIP/EPUB container: " ++ text))
  | .error (.other text) => .error (.read text)

/-- The bytes of a text. -/
def encoded (s : String) : Bytes := s.toByteArray.data.toList

/-- `bytes.upper` -/
def upper (raw : Bytes) : Bytes := raw.map fun b => if 0x61 ≤ b ∧ b ≤ 0x7a then b - 0x20 else b

/-- `_parse_xml` -/
def parseXml (raw : Bytes) : Except EpubError Element :=
  if encoded "<!DOCTYPE" <:+: upper raw ∨ encoded "<!ENTITY" <:+: upper raw then
    .error (.parse "XML declares entities/DOCTYPE (rejected for safety)")
  else
    match fromstring raw with
    | .ok root => .ok root
    | .error error => .error (.xml error)

/-- `_validate_container` -/
def validateContainer (names : Finset String) : Except EpubError Unit :=
  if "mimetype" ∉ names then .error (.parse "EPUB missing the 'mimetype' entry")
  else if "META-INF/container.xml" ∉ names then .error (.parse "EPUB missing META-INF/container.xml")
  else if ∃ n ∈ names, "..".toList <:+: n.toList ∨ n.toList.head? = some '/' ∨ '\\' ∈ n.toList then
    .error (.parse "EPUB container contains a traversal/absolute path entry")
  else .ok ()

/-- `_enforce_decompressed_limit`: the declared sizes, directories left out. -/
def enforceDecompressedLimit (limit : Nat) : Nat → List ZipInfo → Except EpubError Unit
  | _, [] => .ok ()
  | total, info :: rest =>
    if info.filename.toList.getLast? = some '/' then enforceDecompressedLimit limit total rest
    else if limit < total + info.fileSize then
      .error (.parse ("EPUB total declared decompressed size exceeds max_decompressed_bytes=" ++ toString limit))
    else enforceDecompressedLimit limit (total + info.fileSize) rest

/-- `_parse_xml` where a parse error is turned into the extractor's own. -/
def parseXmlOr (message : String) (raw : Bytes) : Except EpubError Element :=
  match parseXml fromstring raw with
  | .error (.xml (.parseError text)) => .error (.parse (message ++ text))
  | result => result

/-- `_find_opf` -/
def findOpf (zip : Zip) : Except EpubError String := do
  let root ← parseXmlOr fromstring "invalid container.xml: " (← readMember zip "META-INF/container.xml")
  let rootfiles := root.iter.filter fun el => el.tag = "\x7burn:oasis:names:tc:opendocument:xmlns:container\x7drootfile"
  match (rootfiles.filterMap fun el => el.get "full-path").find? fun full => full ≠ "" && full ∈ zip.names with
  | some full => .ok full
  | none => .error (.parse "container.xml does not reference an OPF inside the archive")

/-- `_iter_local`: the elements whose name without its namespace is the tag. -/
def iterLocal (root : Element) (tag : String) : List Element :=
  root.iter.filter fun el => (el.tag.toList.reverse.takeWhile (· ≠ '\x7d')).reverse = tag.toList

/-- `_first_metadata_text` -/
def firstMetadataText (root : Element) (tag : String) : Option (List Char) :=
  let els := (root.iter.filter fun el => el.tag = xhtml ++ tag) ++ iterLocal root tag
  (els.find? fun el => !blank isSpace el.text).map fun el => trim isSpace el.text

/-- `manifest`: the hrefs by id, a later item in place of an earlier one of the same id. -/
def manifestOf (root : Element) : List (String × String) :=
  ((iterLocal root "item").filterMap fun item =>
    ((item.get "id").filter (· ≠ "")).map fun mid => (mid, (item.get "href").getD "")).reverse

/-- The loop over the item references. -/
def spineOf (manifest : List (String × String)) : List EpubSpineItem → List Element → List EpubSpineItem
  | spine, [] => spine
  | spine, itemref :: rest =>
    match ((itemref.get "idref").filter (· ≠ "")).bind fun idref => (manifest.lookup idref).map (idref, ·) with
    | some (idref, href) => spineOf manifest (spine ++ [{ idref, href, index := spine.length }]) rest
    | none => spineOf manifest spine rest

/-- `_parse_opf` -/
def parseOpf (opfXml : Bytes) : Except EpubError EpubDocument := do
  let root ← parseXmlOr fromstring "invalid OPF XML: " opfXml
  .ok {
    title := firstMetadataText root "title", language := firstMetadataText root "language",
    spine := spineOf (manifestOf root) [] (iterLocal root "itemref")
  }

/-- `opf_path.rpartition("/")[0]` -/
def directoryOf (path : String) : String := String.ofList ((path.toList.reverse.dropWhile (· ≠ '/')).drop 1).reverse

/-- `extract_epub` until the spine: the directory of the package, and its document. -/
def openPackage (zip : Zip) : Except EpubError (String × EpubDocument) := do
  validateContainer zip.names
  enforceDecompressedLimit maxDecompressedBytes 0 zip.infolist
  let opfPath ← findOpf fromstring zip
  let doc ← parseOpf fromstring (← readMember zip opfPath)
  .ok (directoryOf opfPath, doc)

/-! ## The spine -/

/-- `_safe_href` -/
def safeHref (href : String) : Except EpubError String :=
  let cleaned := href.toList.map fun c => if c = '\\' then '/' else c
  if ['.', '.'] ∈ cleaned.splitOn '/' then .error (.parse ("spine href escapes container: " ++ Lib.reprStr (String.ofList cleaned)))
  else .ok (String.ofList (cleaned.dropWhile (· = '/')))

/-- The path of a cleaned href, joined to the directory of the package. -/
def pathOf (baseDir rel : String) : String := if baseDir = "" then rel else baseDir ++ "/" ++ rel

/-- `rel.rsplit("/", 1)[-1]` -/
def baseName (rel : String) : List Char := (rel.toList.reverse.takeWhile (· ≠ '/')).reverse

/-- `n.endswith("/" + base) or n == base` -/
def hasBase (base : List Char) (name : String) : Bool := ('/' :: base).isSuffixOf name.toList || name.toList = base

/-- The member an item is read from: the one its href names, or the first listed of the same base name. -/
def memberOf (names : Finset String) (baseDir rel : String) : Option String :=
  if pathOf baseDir rel ∈ names then some (pathOf baseDir rel)
  else ((order.list names).filter (hasBase (baseName rel))).head?

/-- `_first_heading` -/
def firstHeading (root : Element) : Option (List Char) :=
  ["h1", "h2", "h3", "title"].findSome? fun tag =>
    ((root.iter.filter fun el => el.tag = xhtml ++ tag).map fun el => trim isSpace el.itertext).find? (· ≠ [])

/-- What a member gives an item, with a warning if its XML cannot be parsed. -/
def fillItem (zip : Zip) (item : EpubSpineItem) (path : String) : Except EpubError (EpubSpineItem × List String) := do
  match parseXml fromstring (← readMember zip path) with
  | .ok root => .ok (collectParagraphs root { item with title := firstHeading root }, [])
  | .error (.xml (.parseError _)) => .ok (item, ["spine doc unparsable XML: " ++ path])
  | .error error => .error error

/-- One turn of the loop of `_extract_spine`. -/
def extractItem (zip : Zip) (baseDir : String) (item : EpubSpineItem) : Except EpubError (EpubSpineItem × List String) := do
  let rel ← safeHref item.href
  match memberOf order zip.names baseDir rel with
  | none => .ok (item, ["spine doc not found: " ++ pathOf baseDir rel])
  | some path => fillItem fromstring zip item path

/-- `_extract_spine` -/
def extractSpine (zip : Zip) (baseDir : String) (doc : EpubDocument) : Except EpubError EpubDocument := do
  let filled ← doc.spine.mapM (extractItem fromstring order zip baseDir)
  .ok { doc with spine := filled.map (·.1), warnings := doc.warnings ++ filled.flatMap (·.2) }

/-- `extract_epub` of an opened archive. -/
def extractEpub (zip : Zip) : Except EpubError EpubDocument := do
  let (baseDir, doc) ← openPackage fromstring zip
  extractSpine fromstring order zip baseDir doc

end

/-! ## Members of the same base name -/

/-- The order that lists one member before the others. -/
noncomputable def listsFirst (a : String) : SetOrder String where
  list s := if a ∈ s then a :: (s.erase a).toList else s.toList
  nodup s := by
    split
    · exact List.nodup_cons.2 ⟨by simp, Finset.nodup_toList _⟩
    · exact Finset.nodup_toList _
  toFinset_list s := by
    split
    · next ha => rw [List.toFinset_cons, Finset.toList_toFinset, Finset.insert_erase ha]
    · exact Finset.toList_toFinset _

/-- Any member of the base name is read in some order, if the path is no member. -/
theorem memberOf_listsFirst {names : Finset String} {baseDir rel n : String} (hpath : pathOf baseDir rel ∉ names) (hn : n ∈ names)
    (hbase : hasBase (baseName rel) n = true) : memberOf (listsFirst n) names baseDir rel = some n := by
  have hlist : (listsFirst n).list names = n :: (names.erase n).toList := if_pos hn
  rw [memberOf, if_neg hpath, hlist, List.filter_cons_of_pos hbase, List.head?_cons]

/-- The path is a member, or nothing has the base name. -/
def Unambiguous (names : Finset String) (baseDir rel : String) : Prop :=
  pathOf baseDir rel ∈ names ∨ ∀ n ∈ names, hasBase (baseName rel) n = false

theorem memberOf_unambiguous {names : Finset String} {baseDir rel : String} (h : Unambiguous names baseDir rel)
    (order : SetOrder String) :
    memberOf order names baseDir rel = if pathOf baseDir rel ∈ names then some (pathOf baseDir rel) else none := by
  rw [memberOf]
  split
  · rfl
  · next hpath =>
    have hnone : (order.list names).filter (hasBase (baseName rel)) = [] :=
      List.filter_eq_nil_iff.2 fun n hn => by
        rw [h.resolve_left hpath n (order.mem_list.1 hn)]
        exact Bool.false_ne_true
    rw [hnone, List.head?_nil]

/-- An item of the document: as the package has it, or filled from the member that was looked up for it. -/
inductive Filled (fromstring : Bytes → Except XmlError Element) (order : SetOrder String) (zip : Zip) (baseDir : String)
    (item : EpubSpineItem) : EpubSpineItem → Prop
  | unread : Filled fromstring order zip baseDir item item
  | read {rel path : String} {raw : Bytes} {root : Element} (hrel : safeHref item.href = .ok rel)
      (hmember : memberOf order zip.names baseDir rel = some path) (hread : zip.read path = .ok raw)
      (hroot : fromstring raw = .ok root) :
      Filled fromstring order zip baseDir item (collectParagraphs root { item with title := firstHeading root })

variable {fromstring : Bytes → Except XmlError Element} {zip : Zip}

theorem readMember_ok {name : String} {raw : Bytes} (h : readMember zip name = .ok raw) : zip.read name = .ok raw := by
  unfold readMember at h
  split at h
  · next hread => rw [hread, Except.ok.inj h]
  · cases h
  · cases h

theorem parseXml_ok {raw : Bytes} {root : Element} (h : parseXml fromstring raw = .ok root) : fromstring raw = .ok root := by
  unfold parseXml at h
  split at h
  · cases h
  · split at h
    · next hroot => rw [hroot, Except.ok.inj h]
    · cases h

theorem extractItem_filled {order : SetOrder String} {baseDir : String} {item : EpubSpineItem} {result : EpubSpineItem × List String}
    (h : extractItem fromstring order zip baseDir item = .ok result) : Filled fromstring order zip baseDir item result.1 := by
  obtain ⟨rel, hrel, h⟩ := bind_ok h
  split at h
  · cases h
    exact .unread
  · next path hmember =>
    obtain ⟨raw, hraw, h⟩ := bind_ok h
    split at h
    · next root hroot =>
      cases h
      exact .read hrel hmember (readMember_ok hraw) (parseXml_ok hroot)
    · cases h
      exact .unread
    · cases h

/-- Steps that do the same on every element of a list. -/
theorem mapM_same {α β ε : Type} {f g : α → Except ε β} {xs : List α} (h : ∀ x ∈ xs, f x = g x) : xs.mapM f = xs.mapM g := by
  induction xs with
  | nil => rfl
  | cons x xs ih => rw [List.mapM_cons, List.mapM_cons, h x List.mem_cons_self, ih fun y hy => h y (List.mem_cons_of_mem _ hy)]

theorem mapM_related {α β ε : Type} {f : α → Except ε β} {R : α → β → Prop} (hf : ∀ {x y}, f x = .ok y → R x y) :
    ∀ {xs : List α} {ys : List β}, xs.mapM f = .ok ys → List.Forall₂ R xs ys := by
  intro xs
  induction xs with
  | nil => intro ys h; cases h; exact .nil
  | cons x xs ih =>
    intro ys h
    obtain ⟨y, zs, hx, hxs, rfl⟩ := mapM_cons_ok.1 h
    exact .cons (hf hx) (ih hxs)

/-- The document is the same in every order, its items are filled from the members that are looked up, and these are the ones their
hrefs name. -/
structure NamedOnly (fromstring : Bytes → Except XmlError Element) (zip : Zip) : Prop where
  same : ∀ order order' : SetOrder String, extractEpub fromstring order zip = extractEpub fromstring order' zip
  filled : ∀ (order : SetOrder String) (doc : EpubDocument), extractEpub fromstring order zip = .ok doc →
    ∃ baseDir package, openPackage fromstring zip = .ok (baseDir, package) ∧
      List.Forall₂ (Filled fromstring order zip baseDir) package.spine doc.spine
  named : ∀ baseDir package, openPackage fromstring zip = .ok (baseDir, package) → ∀ order : SetOrder String, ∀ item ∈ package.spine,
    ∀ rel path, safeHref item.href = .ok rel → memberOf order zip.names baseDir rel = some path → path = pathOf baseDir rel

theorem extractEpub_filled {order : SetOrder String} {doc : EpubDocument} (h : extractEpub fromstring order zip = .ok doc) :
    ∃ baseDir package, openPackage fromstring zip = .ok (baseDir, package) ∧
      List.Forall₂ (Filled fromstring order zip baseDir) package.spine doc.spine := by
  obtain ⟨⟨baseDir, package⟩, hopen, h⟩ := bind_ok h
  obtain ⟨filled, hfilled, h⟩ := bind_ok h
  cases h
  refine ⟨baseDir, package, hopen, ?_⟩
  rw [List.forall₂_map_right_iff]
  exact mapM_related extractItem_filled hfilled

/-- The order does not matter where the members are not ambiguous. -/
theorem extractSpine_same {baseDir : String} {doc : EpubDocument}
    (h : ∀ item ∈ doc.spine, ∀ rel, safeHref item.href = .ok rel → Unambiguous zip.names baseDir rel) (order order' : SetOrder String) :
    extractSpine fromstring order zip baseDir doc = extractSpine fromstring order' zip baseDir doc := by
  refine congrArg (· >>= _) (mapM_same fun item hitem => ?_)
  rw [extractItem, extractItem]
  cases hrel : safeHref item.href with
  | error error => rfl
  | ok rel =>
    have hunambiguous := h item hitem rel hrel
    dsimp only [bind, Except.bind]
    rw [memberOf_unambiguous hunambiguous, memberOf_unambiguous hunambiguous]

/-- **The document is the same in every order and filled from the named members only if and only if every item of the package
names a member or no member has its base name.** -/
theorem spine_iff (fromstring : Bytes → Except XmlError Element) (zip : Zip) :
    NamedOnly fromstring zip ↔ ∀ baseDir package, openPackage fromstring zip = .ok (baseDir, package) →
      ∀ item ∈ package.spine, ∀ rel, safeHref item.href = .ok rel → Unambiguous zip.names baseDir rel := by
  constructor
  · intro h baseDir package hopen item hitem rel hrel
    by_contra hnot
    obtain ⟨hpath, hbase⟩ := not_or.1 hnot
    obtain ⟨n, hn, hhas⟩ : ∃ n ∈ zip.names, hasBase (baseName rel) n = true := by
      by_contra hnone
      exact hbase fun n hn => Bool.eq_false_iff.2 fun hhas => hnone ⟨n, hn, hhas⟩
    have hmember := memberOf_listsFirst hpath hn hhas
    have hname := h.named baseDir package hopen (listsFirst n) item hitem rel n hrel hmember
    exact hpath (hname ▸ hn)
  · intro h
    refine ⟨fun order order' => ?_, fun _ _ => extractEpub_filled, ?_⟩
    · rw [extractEpub, extractEpub]
      cases hopen : openPackage fromstring zip with
      | error error => rfl
      | ok opened =>
        obtain ⟨baseDir, package⟩ := opened
        exact extractSpine_same (h baseDir package hopen) order order'
    · intro baseDir package hopen order item hitem rel path hrel hmember
      rw [memberOf_unambiguous (h baseDir package hopen item hitem rel hrel)] at hmember
      split at hmember
      · exact (Option.some.inj hmember).symm
      · cases hmember

/-! ## Two chapters of one name -/

/-- The files of a container whose package names `c.xhtml`, which lies in two folders. -/
def twoFiles : List (String × String) :=
  [("mimetype", "application/epub+zip"),
    ("META-INF/container.xml",
      "<c:container xmlns:c='urn:oasis:names:tc:opendocument:xmlns:container'><c:rootfile full-path='c.opf'/></c:container>"),
    ("c.opf", "<package><item id='c' href='c.xhtml'/><itemref idref='c'/></package>"),
    ("a/c.xhtml", "<html xmlns='http://www.w3.org/1999/xhtml'><p>One.</p></html>"),
    ("b/c.xhtml", "<html xmlns='http://www.w3.org/1999/xhtml'><p>Second.</p></html>")]

/-- A page of one paragraph. -/
def page (text : String) : Element :=
  ⟨xhtml ++ "html", [], [], .more (xhtml ++ "p") [] text.toList .none [] .none⟩

/-- The trees of the files, by name. -/
def twoElements : List (String × Element) :=
  [("META-INF/container.xml", ⟨"\x7burn:oasis:names:tc:opendocument:xmlns:container\x7dcontainer", [], [],
      .more "\x7burn:oasis:names:tc:opendocument:xmlns:container\x7drootfile" [("full-path", "c.opf")] [] .none [] .none⟩),
    ("c.opf", ⟨"package", [], [],
      .more "item" [("id", "c"), ("href", "c.xhtml")] [] .none [] (.more "itemref" [("idref", "c")] [] .none [] .none)⟩),
    ("a/c.xhtml", page "One."), ("b/c.xhtml", page "Second.")]

def twoZip : Zip where
  infolist := twoFiles.map fun file => ⟨file.1, (encoded file.2).length⟩
  read name :=
    match twoFiles.lookup name with
    | some text => .ok (encoded text)
    | none => .error (.other "KeyError")

/-- What the parser makes of the files. -/
def twoTrees (raw : Bytes) : Except XmlError Element :=
  match (twoFiles.find? fun file => encoded file.2 = raw).bind fun file => twoElements.lookup file.1 with
  | some root => .ok root
  | none => .error (.parseError "syntax error")

theorem of_toOption {ε α : Type} {x : Except ε α} {a : α} (h : x.toOption = some a) : x = .ok a := by
  cases x with
  | error e => cases h
  | ok b => exact congrArg _ (Option.some.inj h)

theorem twoZip_opened : openPackage twoTrees twoZip = .ok ("", { spine := [⟨"c", "c.xhtml", 0, [], none⟩] }) :=
  of_toOption (by decide +kernel)

theorem twoZip_extracted {n : String} {item : EpubSpineItem} (hn : n ∈ twoZip.names) (hbase : hasBase "c.xhtml".toList n = true)
    (hfill : (fillItem twoTrees twoZip ⟨"c", "c.xhtml", 0, [], none⟩ n).toOption = some (item, [])) :
    extractEpub twoTrees (listsFirst n) twoZip = .ok { spine := [item] } := by
  have hmember : memberOf (listsFirst n) twoZip.names "" "c.xhtml" = some n := memberOf_listsFirst (by decide +kernel) hn hbase
  have hhref : safeHref "c.xhtml" = .ok "c.xhtml" := of_toOption (by decide +kernel)
  have hitem : extractItem twoTrees (listsFirst n) twoZip "" ⟨"c", "c.xhtml", 0, [], none⟩ = .ok (item, []) := by
    rw [extractItem, hhref]
    dsimp only [bind, Except.bind]
    rw [hmember]
    exact of_toOption hfill
  rw [extractEpub, twoZip_opened]
  dsimp only [bind, Except.bind]
  rw [extractSpine, List.mapM_cons, hitem]
  rfl

/-- The chapter is the one of the folder that is listed first. -/
theorem chapter_by_order : ¬ NamedOnly twoTrees twoZip ∧
    extractEpub twoTrees (listsFirst "a/c.xhtml") twoZip ≠ extractEpub twoTrees (listsFirst "b/c.xhtml") twoZip := by
  have hdiffer : extractEpub twoTrees (listsFirst "a/c.xhtml") twoZip ≠ extractEpub twoTrees (listsFirst "b/c.xhtml") twoZip := by
    rw [@twoZip_extracted "a/c.xhtml" (collectParagraphs (page "One.") ⟨"c", "c.xhtml", 0, [], none⟩)
        (by decide +kernel) (by decide +kernel) (by decide +kernel),
      @twoZip_extracted "b/c.xhtml" (collectParagraphs (page "Second.") ⟨"c", "c.xhtml", 0, [], none⟩)
        (by decide +kernel) (by decide +kernel) (by decide +kernel)]
    intro h
    have hspine := congrArg EpubDocument.spine (Except.ok.inj h)
    revert hspine
    decide +kernel
  exact ⟨fun h => hdiffer (h.same _ _), hdiffer⟩

end Umd.Epub
