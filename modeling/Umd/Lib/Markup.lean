import Umd.Lib.Splits
/-!
# Element trees

Trees of elements with a text before their children and a tail after each child, as
`xml.etree` has them: the walk of all elements, the text of one, and the text that lies inside
elements of a kind. The texts of the elements of a kind, one after the other, are the text
inside them if and only if none of them with more than spaces lies in another
(`solid_texts_iff`).
-/

namespace Umd.Lib.Markup

open Umd.Lib.Splits

/-- The children of an element, each with its tail. -/
inductive Children
  | none
  | more (tag : String) (attrib : List (String × String)) (text : List Char) (inner : Children) (tail : List Char)
      (rest : Children)

structure Element where
  tag : String
  attrib : List (String × String)
  text : List Char
  children : Children

/-- The elements below, in document order. -/
def Children.iter : Children → List Element
  | none => []
  | more tag attrib text inner _ rest => ⟨tag, attrib, text, inner⟩ :: (inner.iter ++ rest.iter)

/-- `root.iter()` -/
def Element.iter (e : Element) : List Element := e :: e.children.iter

/-- The text of the children and their tails. -/
def Children.itertext : Children → List Char
  | none => []
  | more _ _ text inner tail rest => text ++ inner.itertext ++ tail ++ rest.itertext

/-- `"".join(e.itertext())` -/
def Element.itertext (e : Element) : List Char := e.text ++ e.children.itertext

/-- `e.get(name)` -/
def Element.get (e : Element) (name : String) : Option String := e.attrib.lookup name

section

variable (kind : String → Bool)

/-- The text that lies inside an element of the kind, each part of it once; the flag says whether the parent does. -/
def Children.textIn : Bool → Children → List Char
  | _, none => []
  | inside, more tag _ text inner tail rest =>
    (if inside || kind tag then text else []) ++ inner.textIn (inside || kind tag) ++ (if inside then tail else []) ++
      rest.textIn inside

def Element.textIn (e : Element) : List Char :=
  (if kind e.tag then e.text else []) ++ e.children.textIn kind (kind e.tag)

/-- The texts of the elements of the kind, one after the other. -/
def texts (es : List Element) : List Char := (es.filter fun e => kind e.tag).flatMap Element.itertext

end

variable {kind : String → Bool} {space : Char → Bool}

/-! ## Elements below elements -/

theorem iter_children {c : Children} {e d : Element} (he : e ∈ c.iter) (hd : d ∈ e.children.iter) : d ∈ c.iter := by
  induction c with
  | none => exact absurd he List.not_mem_nil
  | more tag attrib text inner tail rest ihInner ihRest =>
    rw [Children.iter, List.mem_cons, List.mem_append] at he ⊢
    rcases he with rfl | he | he
    · exact .inr (.inl hd)
    · exact .inr (.inl (ihInner he))
    · exact .inr (.inr (ihRest he))

theorem textIn_true (c : Children) : c.textIn kind true = c.itertext := by
  induction c with
  | none => rfl
  | more tag attrib text inner tail rest ihInner ihRest =>
    rw [Children.textIn, Children.itertext, Bool.true_or, if_pos rfl, if_pos rfl, ihInner, ihRest]

theorem texts_append (es ds : List Element) : texts kind (es ++ ds) = texts kind es ++ texts kind ds := by
  rw [texts, List.filter_append, List.flatMap_append]
  rfl

theorem texts_cons_pos {e : Element} (he : kind e.tag = true) (es : List Element) :
    texts kind (e :: es) = e.itertext ++ texts kind es := by
  have hfilter : (e :: es).filter (fun d => kind d.tag) = e :: es.filter fun d => kind d.tag := List.filter_cons_of_pos he
  rw [texts, hfilter, List.flatMap_cons]
  rfl

theorem texts_cons_neg {e : Element} (he : kind e.tag = false) (es : List Element) : texts kind (e :: es) = texts kind es := by
  have hfilter : (e :: es).filter (fun d => kind d.tag) = es.filter fun d => kind d.tag :=
    List.filter_cons_of_neg (by rw [he]; exact Bool.false_ne_true)
  rw [texts, hfilter]
  rfl

/-! ## Elements of the kind inside each other -/

/-- No element of the kind with more than spaces lies below. -/
def Bare (kind : String → Bool) (space : Char → Bool) (c : Children) : Prop :=
  ∀ d ∈ c.iter, kind d.tag = true → blank space d.itertext = true

/-- No element of the kind with more than spaces lies in another of the kind. -/
def Flat (kind : String → Bool) (space : Char → Bool) (es : List Element) : Prop :=
  ∀ e ∈ es, kind e.tag = true → Bare kind space e.children

theorem Bare.flat {c : Children} (h : Bare kind space c) : Flat kind space c.iter :=
  fun _ he _ d hd => h d (iter_children he hd)

theorem solid_texts_eq_nil {c : Children} : solid space (texts kind c.iter) = [] ↔ Bare kind space c := by
  rw [texts, solid_eq_nil, blank, List.all_flatMap, List.all_eq_true]
  simp only [List.mem_filter, Bare, blank, and_imp]

/-- The texts of the elements of the kind hold at least what lies inside them. -/
theorem solid_textIn_le (c : Children) :
    (solid space (c.textIn kind false)).length ≤ (solid space (texts kind c.iter)).length := by
  induction c with
  | none => exact le_rfl
  | more tag attrib text inner tail rest ihInner ihRest =>
    rw [Children.textIn, Children.iter, Bool.false_or, if_neg Bool.false_ne_true, List.append_nil]
    cases hkind : kind tag with
    | true =>
      rw [texts_cons_pos hkind, texts_append, textIn_true, if_pos rfl, Element.itertext]
      simp only [solid_append, List.length_append]
      omega
    | false =>
      rw [texts_cons_neg hkind, texts_append, if_neg Bool.false_ne_true, List.nil_append]
      simp only [solid_append, List.length_append]
      omega

/-- Where no element of the kind lies in another, their texts are what lies inside them. -/
theorem solid_texts {c : Children} (h : Flat kind space c.iter) :
    solid space (texts kind c.iter) = solid space (c.textIn kind false) := by
  induction c with
  | none => rfl
  | more tag attrib text inner tail rest ihInner ihRest =>
    rw [Children.iter] at h
    have hinner : Flat kind space inner.iter := fun e he => h e (List.mem_cons_of_mem _ (List.mem_append_left _ he))
    have hrest : Flat kind space rest.iter := fun e he => h e (List.mem_cons_of_mem _ (List.mem_append_right _ he))
    rw [Children.textIn, Children.iter, Bool.false_or, if_neg Bool.false_ne_true, List.append_nil]
    cases hkind : kind tag with
    | true =>
      have hbare := h _ List.mem_cons_self hkind
      rw [texts_cons_pos hkind, texts_append, textIn_true, if_pos rfl, Element.itertext, solid_append, solid_append _ (texts kind _),
        solid_texts_eq_nil.2 hbare, ihRest hrest, List.nil_append, ← solid_append]
    | false =>
      rw [texts_cons_neg hkind, texts_append, if_neg Bool.false_ne_true, List.nil_append, solid_append, ihInner hinner, ihRest hrest,
        ← solid_append]

/-- Texts that hold no more than what lies inside are of elements that do not lie in each other. -/
theorem flat_of_length {c : Children}
    (h : (solid space (texts kind c.iter)).length ≤ (solid space (c.textIn kind false)).length) : Flat kind space c.iter := by
  induction c with
  | none => exact fun e he => absurd he List.not_mem_nil
  | more tag attrib text inner tail rest ihInner ihRest =>
    have hleInner := @solid_textIn_le kind space inner
    have hleRest := @solid_textIn_le kind space rest
    rw [Children.textIn, Children.iter, Bool.false_or, if_neg Bool.false_ne_true, List.append_nil] at h
    rw [Children.iter]
    cases hkind : kind tag with
    | true =>
      rw [hkind, texts_cons_pos hkind, texts_append, textIn_true, if_pos rfl, Element.itertext] at h
      simp only [solid_append, List.length_append] at h
      have hbare : Bare kind space inner := solid_texts_eq_nil.1 (List.eq_nil_of_length_eq_zero (by omega))
      have hrest := ihRest (by omega)
      rintro e he hekind
      rcases List.mem_cons.1 he with rfl | he
      · exact hbare
      · rcases List.mem_append.1 he with he | he
        · exact hbare.flat e he hekind
        · exact hrest e he hekind
    | false =>
      rw [hkind, texts_cons_neg hkind, texts_append, if_neg Bool.false_ne_true, List.nil_append] at h
      simp only [solid_append, List.length_append] at h
      have hinner := ihInner (by omega)
      have hrest := ihRest (by omega)
      rintro e he hekind
      rcases List.mem_cons.1 he with rfl | he
      · rw [hkind] at hekind
        cases hekind
      · rcases List.mem_append.1 he with he | he
        · exact hinner e he hekind
        · exact hrest e he hekind

/-- The texts of the elements of a kind are the text inside them if and only if none with more than spaces lies in another. -/
theorem solid_texts_iff (root : Element) :
    solid space (texts kind root.iter) = solid space (root.textIn kind) ↔ Flat kind space root.iter := by
  have hroot : Flat kind space root.iter ↔ (kind root.tag = true → Bare kind space root.children) ∧
      Flat kind space root.children.iter := by
    rw [Element.iter, Flat, List.forall_mem_cons]
    rfl
  rw [hroot, Element.textIn, Element.iter]
  cases hkind : kind root.tag with
  | true =>
    rw [texts_cons_pos hkind, textIn_true, if_pos rfl, Element.itertext, solid_append _ (texts kind _), List.append_right_eq_self,
      solid_texts_eq_nil]
    exact ⟨fun h => ⟨fun _ => h, h.flat⟩, fun h => h.1 rfl⟩
  | false =>
    rw [texts_cons_neg hkind, if_neg Bool.false_ne_true, List.nil_append]
    constructor
    · exact fun h => ⟨nofun, flat_of_length (by rw [h])⟩
    · exact fun h => solid_texts h.2

end Umd.Lib.Markup
