import Mathlib.Data.List.Induction
import Mathlib.Data.Finset.Card
import UniqueSelector.Proofs.Constructed
import UniqueSelector.Proofs.Fits

/-!
# Dictionary — what is found after a row of insertions

A name stands where it was first inserted, with the value that was inserted for it last. The classes
of an element are words of one of its values. They can be asked for in four ways, by a list, by a
search, and by two selectors, and the answers agree for every text, since no word is empty and no
word has a blank in it.
-/

namespace UniqueSelector

open Selector

/-! ## 1. First places -/

/-- Each name of the row `keys` once, in the order in which the row first has them. -/
structure FirstPlaces (names keys : List String) : Prop where
  mem : ∀ name, name ∈ names ↔ name ∈ keys
  order : names.Pairwise fun a b => keys.idxOf a < keys.idxOf b

theorem firstPlaces_nil : FirstPlaces [] [] := ⟨fun _ => Iff.rfl, List.Pairwise.nil⟩

theorem firstPlaces_concat {names keys : List String} (h : FirstPlaces names keys) (key : String) :
    FirstPlaces (if key ∈ names then names else names ++ [key]) (keys ++ [key]) := by
  have hkept : names.Pairwise fun a b => (keys ++ [key]).idxOf a < (keys ++ [key]).idxOf b :=
    h.order.imp_of_mem fun ha hb hlt => by
      rwa [List.idxOf_append_of_mem ((h.mem _).1 ha), List.idxOf_append_of_mem ((h.mem _).1 hb)]
  by_cases hkey : key ∈ names
  · rw [if_pos hkey]
    refine ⟨fun name => ?_, hkept⟩
    rw [List.mem_append, List.mem_singleton, h.mem]
    exact ⟨.inl, fun hname => hname.elim id fun heq => heq ▸ (h.mem key).1 hkey⟩
  · rw [if_neg hkey]
    refine ⟨fun name => ?_,
      List.pairwise_append.2 ⟨hkept, List.pairwise_singleton _ _, fun a ha b hb => ?_⟩⟩
    · rw [List.mem_append, List.mem_append, h.mem]
    · -- A new name is first met at the end, behind every name before.
      rw [List.mem_singleton.1 hb, List.idxOf_append_of_mem ((h.mem a).1 ha),
        List.idxOf_append_of_notMem fun hmem => hkey ((h.mem key).2 hmem)]
      exact Nat.lt_add_right _ (List.idxOf_lt_length_iff.2 ((h.mem a).1 ha))

theorem FirstPlaces.nodup {names keys : List String} (h : FirstPlaces names keys) :
    names.Nodup := by
  refine h.order.imp ?_
  rintro a b hlt rfl
  exact Nat.lt_irrefl _ hlt

/-! ## 2. One insertion -/

namespace Attributes

/-- What stood at the name is handed back. -/
theorem insertInto_fst (name value : String) (as : List Attribute) :
    (insertInto name value as).1 = (as.find? (·.name = name)).map Attribute.value := by
  induction as with
  | nil => rfl
  | cons a as ih =>
    rw [insertInto]
    by_cases hname : a.name = name
    · rw [if_pos hname, List.find?_cons_of_pos (by simpa using hname)]
      rfl
    · rw [if_neg hname, List.find?_cons_of_neg (by simpa using hname)]
      exact ih

theorem find?_insertInto (name value : String) (as : List Attribute) (other : String) :
    ((insertInto name value as).2.find? (·.name = other)).map Attribute.value =
      if name = other then some value else (as.find? (·.name = other)).map Attribute.value := by
  induction as with
  | nil =>
    rw [insertInto]
    by_cases hother : name = other <;> simp [hother]
  | cons a as ih =>
    rw [insertInto]
    by_cases hname : a.name = name
    · rw [if_pos hname]
      by_cases hother : name = other <;> simp [hother, hname]
    · rw [if_neg hname]
      by_cases hother : a.name = other
      · have hne : name ≠ other := fun h => hname (hother.trans h.symm)
        simp [hother, hne]
      · rw [List.find?_cons_of_neg (by simpa using hother), ih,
          List.find?_cons_of_neg (by simpa using hother)]

def names (attrs : Attributes) : List String := attrs.entries.map Attribute.name

theorem names_insert (attrs : Attributes) (name value : String) :
    (attrs.insert name value).2.names = if name ∈ attrs.names then attrs.names
      else attrs.names ++ [name] :=
  map_name_insertInto name value attrs.entries

theorem insert_fst (attrs : Attributes) (name value : String) :
    (attrs.insert name value).1 = attrs.get? name :=
  insertInto_fst name value attrs.entries

theorem get?_insert (attrs : Attributes) (name value other : String) :
    (attrs.insert name value).2.get? other = if name = other then some value
      else attrs.get? other :=
  find?_insertInto name value attrs.entries other

theorem contains_iff {attrs : Attributes} {name : String} :
    attrs.contains name = true ↔ name ∈ attrs.names := by
  rw [contains, List.any_eq_true, names, List.mem_map]
  simp

theorem get?_eq_none_iff {attrs : Attributes} {name : String} :
    attrs.get? name = none ↔ name ∉ attrs.names := by
  rw [get?, Option.map_eq_none_iff, List.find?_eq_none, names, List.mem_map]
  simp

/-! ## 3. A row of insertions -/

/-- The value of the last of the insertions that have the name. -/
def lastValue? (pairs : List Attribute) (name : String) : Option String :=
  ((pairs.filter (·.name = name)).getLast?).map Attribute.value

theorem lastValue?_concat (pairs : List Attribute) (a : Attribute) (name : String) :
    lastValue? (pairs ++ [a]) name = if a.name = name then some a.value
      else lastValue? pairs name := by
  rw [lastValue?, lastValue?, List.filter_append]
  by_cases hname : a.name = name <;> simp [hname]

/-- The dictionary that a row of insertions leaves. -/
structure Records (attrs : Attributes) (pairs : List Attribute) : Prop where
  distinct : attrs.names.Nodup
  firstPlaces : FirstPlaces attrs.names (pairs.map Attribute.name)
  get : ∀ name, attrs.get? name = lastValue? pairs name
  contains : ∀ name, attrs.contains name = true ↔ name ∈ pairs.map Attribute.name
  absent : ∀ name, name ∉ pairs.map Attribute.name ↔
    attrs.get? name = none ∧ attrs.contains name = false
  size : attrs.size = (pairs.map Attribute.name).toFinset.card
  /-- The next insertion hands back what is found now. -/
  replaced : ∀ name value, (attrs.insert name value).1 = attrs.get? name

theorem firstPlaces_ofList (pairs : List Attribute) :
    FirstPlaces (ofList pairs).names (pairs.map Attribute.name) := by
  induction pairs using List.reverseRecOn with
  | nil => exact firstPlaces_nil
  | append_singleton pairs a ih =>
    rw [ofList_concat, names_insert, List.map_append]
    exact firstPlaces_concat ih a.name

theorem get?_ofList (pairs : List Attribute) (name : String) :
    (ofList pairs).get? name = lastValue? pairs name := by
  induction pairs using List.reverseRecOn with
  | nil => rfl
  | append_singleton pairs a ih => rw [ofList_concat, get?_insert, lastValue?_concat, ih]

theorem records_ofList (pairs : List Attribute) : (ofList pairs).Records pairs where
  distinct := (firstPlaces_ofList pairs).nodup
  firstPlaces := firstPlaces_ofList pairs
  get := get?_ofList pairs
  contains name := by rw [contains_iff, (firstPlaces_ofList pairs).mem]
  absent name := by
    rw [get?_eq_none_iff, ← Bool.not_eq_true, contains_iff, and_self_iff,
      (firstPlaces_ofList pairs).mem]
  size := by
    have hsame : (ofList pairs).names.toFinset = (pairs.map Attribute.name).toFinset := by
      ext name
      rw [List.mem_toFinset, List.mem_toFinset, (firstPlaces_ofList pairs).mem]
    rw [← hsame, List.toFinset_card_of_nodup (firstPlaces_ofList pairs).nodup, names,
      List.length_map]
    rfl
  replaced := insert_fst _

end Attributes

/-! ## 4. Classes -/

theorem ne_nil_of_mem_splitWords {cs w : List Char} (h : w ∈ splitWords cs) : w ≠ [] := by
  fun_induction splitWords cs generalizing w with
  | case1 => cases h
  | case2 d hd => cases h
  | case3 d hd =>
    rw [List.mem_singleton.1 h]
    exact List.cons_ne_nil _ _
  | case4 d d' cs hd ih => exact ih h
  | case5 d d' cs hd hd' ih =>
    rcases List.mem_cons.1 h with rfl | h
    · exact List.cons_ne_nil _ _
    · exact ih h
  | case6 d d' cs hd hd' hwords ih =>
    rw [List.mem_singleton.1 h]
    exact List.cons_ne_nil _ _
  | case7 d d' cs hd hd' v vs hwords ih =>
    rcases List.mem_cons.1 h with rfl | h
    · exact List.cons_ne_nil _ _
    · exact ih (hwords ▸ .tail _ h)

theorem empty_notMem_words (s : String) : "" ∉ words s := by
  intro h
  obtain ⟨w, hw, heq⟩ := List.mem_map.1 h
  exact ne_nil_of_mem_splitWords hw (by rw [← String.toList_ofList (l := w), heq]; rfl)

/-- The guard against the empty text decides nothing: no word is empty. -/
theorem includes_holds_iff {value text : String} :
    AttributeOperator.includes.holds value text = true ↔ text ∈ words value := by
  rw [AttributeOperator.holds, Bool.and_eq_true, List.any_eq_true]
  constructor
  · rintro ⟨-, w, hw, heq⟩
    exact beq_iff_eq.1 heq ▸ hw
  · intro h
    refine ⟨?_, text, h, beq_self_eq_true text⟩
    rw [Bool.not_eq_true', ← Bool.not_eq_true, String.isEmpty_iff]
    rintro rfl
    exact empty_notMem_words value h

namespace Element

theorem firstPlaces_classes (e : Element) : FirstPlaces e.classes e.classTokens := by
  rw [classes]
  induction e.classTokens using List.reverseRecOn with
  | nil => exact firstPlaces_nil
  | append_singleton tokens c ih =>
    rw [List.foldl_append, List.foldl_cons, List.foldl_nil]
    simpa only [List.contains_iff_mem] using firstPlaces_concat ih c

theorem includes_class_iff {e : Element} {c : String} :
    (Simple.attribute (.compare "class" .includes c)).matches e = true ↔ c ∈ e.classes := by
  rw [mem_classes, classTokens, Simple.matches, AttributeTest.matches]
  cases e.attrs.get? "class" with
  | none =>
    have hwords : words "" = [] := by decide
    simp [hwords]
  | some value => exact includes_holds_iff

/-- The ways to ask for a class agree, and so do the two ways to ask for an id. -/
structure Agrees (e : Element) (c : String) : Prop where
  hasClass : e.hasClass c = true ↔ c ∈ e.classes
  classSelector : (Simple.class c).matches e = true ↔ c ∈ e.classes
  includes : (Simple.attribute (.compare "class" .includes c)).matches e = true ↔ c ∈ e.classes
  distinct : e.classes.Nodup
  idSelector : (Simple.id c).matches e = true ↔
    (Simple.attribute (.compare "id" .equals c)).matches e = true

theorem agrees (e : Element) (c : String) : e.Agrees c where
  hasClass := hasClass_iff
  classSelector := hasClass_iff
  includes := includes_class_iff
  distinct := e.firstPlaces_classes.nodup
  idSelector := by
    rw [Simple.matches, Simple.matches, AttributeTest.matches, id?]
    cases e.attrs.get? "id" with
    | none => simp
    | some value => simp [AttributeOperator.holds]

end Element

/-- **Attributes are a dictionary in the order of insertion, and the questions for a class agree
on it.** -/
theorem Attributes.ofList_dictionary (pairs : List Attribute) (e : Element) (c : String) :
    (ofList pairs).Records pairs ∧ e.Agrees c :=
  ⟨records_ofList pairs, e.agrees c⟩

end UniqueSelector
