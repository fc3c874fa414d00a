import UniqueSelector.Proofs.Fragments
import UniqueSelector.Proofs.WellFormed
import UniqueSelector.Document.Traversal
import UniqueSelector.Selector.Match

/-!
# Fits — an element meets the conditions of its own fragments

Whatever is read off an element, its id, an attribute, a class, its tag or its place among the
siblings, holds of that element when it is written down and read again, as long as no text has
U+0000 in it. That character is read as the replacement, so otherwise the element has to have what
is read instead.
-/

namespace UniqueSelector

open Selector

/-! ## 1. Words and letters -/

theorem mem_of_mem_words {s w : String} (h : w ∈ words s) {c : Char} (hc : c ∈ w.toList) :
    c ∈ s.toList := by
  obtain ⟨cs, hcs, rfl⟩ := List.mem_map.1 h
  rw [String.toList_ofList] at hc
  exact (mem_of_mem_splitWords hcs hc).1

theorem asciiLower_asciiLower (s : String) : asciiLower (asciiLower s) = asciiLower s := by
  rw [← String.toList_inj, toList_asciiLower, toList_asciiLower, List.map_map]
  exact List.map_congr_left fun c _ => c.toLower_toLower_eq_toLower

/-! ## 2. Texts without U+0000 -/

theorem Attributes.mem_of_get? {attrs : Attributes} {name value : String}
    (h : attrs.get? name = some value) :
    ⟨name, value⟩ ∈ attrs.entries := by
  obtain ⟨a, ha, rfl⟩ := Option.map_eq_some_iff.1 h
  have hname : a.name = name := by simpa using List.find?_some ha
  have hmem := List.mem_of_find?_eq_some ha
  rw [← hname]
  exact hmem

theorem Attributes.get?_of_mem {attrs : Attributes}
    (hnames : (attrs.entries.map Attribute.name).Nodup) {a : Attribute} (h : a ∈ attrs.entries) :
    attrs.get? a.name = some a.value := by
  rw [get?]
  revert hnames h
  induction attrs.entries with
  | nil => exact fun _ h => by cases h
  | cons b as ih =>
    intro hnames h
    rw [List.map_cons, List.nodup_cons] at hnames
    rcases List.mem_cons.1 h with rfl | h
    · rw [List.find?_cons_of_pos (by simp)]
      rfl
    · -- An entry in front has another name, since names are distinct.
      have hne : b.name ≠ a.name := fun hname => hnames.1 (hname ▸ List.mem_map_of_mem h)
      rw [List.find?_cons_of_neg (by simpa using hne)]
      exact ih hnames.2 h

theorem Attributes.get?_eq_some {attrs : Attributes}
    (hnames : (attrs.entries.map Attribute.name).Nodup) {name value : String} :
    attrs.get? name = some value ↔ ⟨name, value⟩ ∈ attrs.entries :=
  ⟨mem_of_get?, fun h => get?_of_mem hnames h⟩

namespace Element

variable {e : Element}

theorem notMem_value (h : e.NullFree) {name value : String}
    (hget : e.attrs.get? name = some value) :
    '\x00' ∉ value.toList :=
  (h.2 _ (Attributes.mem_of_get? hget)).2

theorem notMem_class (h : e.NullFree) {name : String} (hname : name ∈ e.classTokens) :
    '\x00' ∉ name.toList := by
  rw [classTokens] at hname
  cases hget : e.attrs.get? "class" with
  | none =>
    have hwords : words "" = [] := by decide
    rw [hget, Option.getD_none, hwords] at hname
    cases hname
  | some value =>
    rw [hget] at hname
    exact fun hnull => notMem_value h hget (mem_of_mem_words hname hnull)

theorem notMem_asciiLower {text : String} (h : '\x00' ∉ text.toList) :
    '\x00' ∉ (asciiLower text).toList := by
  rw [toList_asciiLower, List.mem_map]
  rintro ⟨c, hc, hlower⟩
  exact h (eq_null_of_toLower hlower ▸ hc)

end Element

/-! ## 3. Features as they are read -/

namespace Selector

theorem toLower_withoutNull (c : Char) : (withoutNull c).toLower = withoutNull c.toLower := by
  by_cases h : c = '\x00'
  · subst h
    decide
  · have hlower : c.toLower ≠ '\x00' := fun hnull => h (eq_null_of_toLower hnull)
    rw [withoutNull_of_ne h, withoutNull_of_ne hlower]

theorem asciiLower_readable (text : String) :
    asciiLower (readable text) = readable (asciiLower text) := by
  rw [← String.toList_inj, toList_asciiLower, readable, readable, String.toList_ofList,
    String.toList_ofList, toList_asciiLower, List.map_map, List.map_map]
  exact List.map_congr_left fun c _ => toLower_withoutNull c

end Selector

theorem writable_readable {name : String} (h : Writable name) : Writable (readable name) := by
  constructor
  · intro hempty
    rw [readable, String.ofList_eq_empty_iff, List.map_eq_nil_iff,
      String.toList_eq_nil_iff] at hempty
    exact h.1 hempty
  · intro hhyphen
    have hlist : name.toList.map withoutNull = ['-'] := by
      rw [← String.toList_ofList (l := name.toList.map withoutNull)]
      exact congrArg String.toList hhyphen
    obtain ⟨c, cs, hname, hc, hcs⟩ := List.map_eq_cons_iff.1 hlist
    apply h.2
    rw [← String.toList_inj, hname, List.map_eq_nil_iff.1 hcs, withoutNull_eq_hyphen hc]
    rfl

namespace Feature

/-- The feature as it is read back. -/
def asRead : Feature → Feature
  | .id name => .id (readable name)
  | .attr name value => .attr (readable name) (readable value)
  | .className name => .className (readable name)
  | .tag name => .tag (readable name)
  | .any => .any

/-- No text in the feature has U+0000 in it. -/
def NullFree : Feature → Prop
  | .id name | .className name | .tag name => '\x00' ∉ name.toList
  | .attr name value => '\x00' ∉ name.toList ∧ '\x00' ∉ value.toList
  | .any => True

theorem asRead_of_nullFree {f : Feature} (h : f.NullFree) : f.asRead = f := by
  cases f with
  | id name => rw [asRead, readable_of_notMem h]
  | attr name value => rw [asRead, readable_of_notMem h.1, readable_of_notMem h.2]
  | className name => rw [asRead, readable_of_notMem h]
  | tag name => rw [asRead, readable_of_notMem h]
  | any => rfl

end Feature

namespace Element

variable {e : Element}

theorem simple_id {name : String} (h : '\x00' ∉ name.toList) :
    (Feature.id name).simple = .id name := by
  rw [Feature.simple, Feature.simpleWith, readable_of_notMem h, String.ofList_nil,
    String.append_empty]

theorem simple_tag {name : String} (h : '\x00' ∉ name.toList) :
    (Feature.tag name).simple = .type name := by
  rw [Feature.simple, Feature.simpleWith, readable_of_notMem h, String.ofList_nil,
    String.append_empty]

theorem hasClass_iff {name : String} : e.hasClass name = true ↔ name ∈ e.classes := by
  rw [mem_classes, hasClass, classTokens]
  cases e.attrs.get? "class" with
  | none =>
    have hwords : words "" = [] := by decide
    simp [hwords]
  | some value =>
    show (words value).any (· == name) = true ↔ name ∈ words value
    simp

/-- **An element meets the condition of a feature of its own** if and only if it has the feature as
it is read. -/
theorem matches_iff_has_asRead (hnames : (e.attrs.entries.map Attribute.name).Nodup) {f : Feature}
    (hhas : e.Has f) :
    f.simple.matches e = true ↔ e.Has f.asRead := by
  cases f with
  | id name =>
    rw [Feature.simple, Feature.simpleWith, String.ofList_nil, String.append_empty, Simple.matches,
      beq_iff_eq]
    exact (and_iff_left (writable_readable hhas.2)).symm
  | attr name value =>
    have hentry : e.Has (Feature.attr name value).asRead ↔
        e.attrs.get? (readable name) = some (readable value) := by
      rw [Attributes.get?_eq_some hnames]
      exact and_iff_left (writable_readable hhas.2)
    rw [hentry, Feature.simple, Feature.simpleWith, Simple.matches, AttributeTest.matches]
    cases e.attrs.get? (readable name) with
    | none => simp
    | some v =>
      show (v == readable value) = true ↔ some v = some (readable value)
      rw [beq_iff_eq, Option.some.injEq]
  | className name =>
    rw [Feature.simple, Feature.simpleWith, String.ofList_nil, String.append_empty, Simple.matches,
      hasClass_iff]
    exact (and_iff_left (writable_readable hhas.2)).symm
  | tag name =>
    -- The tag is in lower case already, as it is and as it is read.
    have htag : name = asciiLower e.tag := hhas
    rw [Feature.simple, Feature.simpleWith, String.ofList_nil, String.append_empty, Simple.matches,
      sameLetters, beq_iff_eq, asciiLower_readable, htag, asciiLower_asciiLower]
    exact eq_comm
  | any => exact ⟨fun _ => trivial, fun _ => rfl⟩

theorem nullFree_of_has (hnull : e.NullFree) {f : Feature} (h : e.Has f) : f.NullFree := by
  cases f with
  | id name => exact notMem_value hnull h.1
  | attr name value => exact hnull.2 _ h.1
  | className name => exact notMem_class hnull (mem_classes.1 h.1)
  | tag name =>
    have htag : name = asciiLower e.tag := h
    rw [htag]
    exact notMem_asciiLower hnull.1
  | any => trivial

/-- **An element meets the condition of each of its features** if no text has U+0000 in it. -/
theorem matches_of_has (hnull : e.NullFree) (hnames : (e.attrs.entries.map Attribute.name).Nodup)
    {f : Feature} (h : e.Has f) : f.simple.matches e = true := by
  rw [matches_iff_has_asRead hnames h, Feature.asRead_of_nullFree (nullFree_of_has hnull h)]
  exact h

end Element

/-! ## 4. Places and fragments -/

theorem matchesAt_feature (f : Feature) (t : Document) (id : NodeId) (e : Element) :
    f.simple.matchesAt t id e = f.simple.matches e := by
  cases f <;> rfl

theorem matchesAt_nthChild {t : Document} {id : NodeId} {i : Nat} (hi : t.elementIndex id = some i)
    (hlt : i < 2 ^ 31) (e : Element) :
    (Simple.pseudo (.nthChild ⟨0, i⟩)).matchesAt t id e = true := by
  -- Only an element with a parent has a place at all.
  have hparent : ∃ p, t.parent id = some p := by
    rw [Document.elementIndex] at hi
    obtain ⟨p, hp, -⟩ := Option.map_eq_some_iff.1 hi
    exact ⟨p, hp⟩
  obtain ⟨p, hp⟩ := hparent
  have hindex : (Nth.mk 0 i).matches i = true := by
    have hmax : i ≤ maxIndex := by
      show i ≤ 9223372036854775807
      omega
    rw [Nth.matches, if_pos hmax, if_pos rfl]
    exact beq_self_eq_true _
  rw [Simple.matchesAt, Pseudo.matches, hp]
  show ((t.elementIndex id).map (Nth.mk 0 i).matches).getD false = true
  rw [hi]
  exact hindex

/-- The conditions on a place that is the element's own. -/
theorem all_placeSimples {t : Document} {id : NodeId} {place : Option Nat}
    (hplace : place = none ∨ place = t.elementIndex id) (hsound : ∀ i ∈ place, i < 2 ^ 31)
    (e : Element) :
    (placeSimples place).all (fun s => s.matchesAt t id e) = true := by
  cases place with
  | none => rfl
  | some i =>
    have hi : t.elementIndex id = some i := (hplace.resolve_left (by simp)).symm
    rw [placeSimples, List.all_cons, matchesAt_nthChild hi (hsound i rfl)]
    rfl

variable {t : Document} {id : NodeId} {e : Element}

/-- The place is the element's own, so the feature decides. -/
theorem Fragment.matches_compound_iff (he : t.element? id = some e)
    (hnames : (e.attrs.entries.map Attribute.name).Nodup) {f : Fragment} (hhas : e.Has f.feature)
    (hplace : f.place = none ∨ f.place = t.elementIndex id) (hsound : ∀ i ∈ f.place, i < 2 ^ 31) :
    Compound.matches f.compound t id = true ↔ e.Has f.feature.asRead := by
  rw [Compound.matches, he]
  show f.compound.all (fun s => s.matchesAt t id e) = true ↔ _
  rw [compound, List.all_cons, matchesAt_feature, all_placeSimples hplace hsound, Bool.and_true,
    Element.matches_iff_has_asRead hnames hhas]

/-- **An element meets the conditions of each of its fragments** if no text has U+0000 in it. -/
theorem Fragment.matches_compound (he : t.element? id = some e) (hnull : e.NullFree)
    (hnames : (e.attrs.entries.map Attribute.name).Nodup) {f : Fragment} (hhas : e.Has f.feature)
    (hplace : f.place = none ∨ f.place = t.elementIndex id) (hsound : ∀ i ∈ f.place, i < 2 ^ 31) :
    Compound.matches f.compound t id = true := by
  rw [matches_compound_iff he hnames hhas hplace hsound,
    Feature.asRead_of_nullFree (Element.nullFree_of_has hnull hhas)]
  exact hhas

end UniqueSelector
