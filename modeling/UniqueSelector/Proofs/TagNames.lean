import UniqueSelector.Proofs.Tokens

/-!
# Tag names — what the names of tags are made of

A name is read letter by letter, each in lower case, up to the first character that ends it. So a
name has no capital letter, no blank, no slash and no closing bracket in it.
-/

namespace UniqueSelector.Markup

/-- A character that the name of a tag may have in it. -/
def isTagChar (c : Char) : Bool := !c.isUpper && !isBlank c && c != '/' && c != '>'

/-- A text that may be the name of a tag. -/
def TagName (name : String) : Prop := ∀ c ∈ name.toList, isTagChar c = true

instance (name : String) : Decidable (TagName name) :=
  decidable_of_iff (name.toList.all isTagChar) List.all_eq_true

/-- Lower case makes no other kind of character of what is no letter, nor of a letter. -/
theorem toLower_ne {c d : Char} (hd : d.isAlpha = false) (h : c ≠ d) : c.toLower ≠ d := by
  intro heq
  have halpha : c.isAlpha = false := by rw [← c.isAlpha_toLower_eq_isAlpha, heq, hd]
  rw [Char.isAlpha, Bool.or_eq_false_iff] at halpha
  rw [Char.toLower_eq_of_not_isUpper (by simp [halpha.1])] at heq
  exact h heq

theorem isBlank_toLower {c : Char} (h : isBlank c = false) : isBlank c.toLower = false := by
  simp only [isBlank, Bool.or_eq_false_iff, beq_eq_false_iff_ne] at h ⊢
  obtain ⟨⟨⟨⟨hspace, htab⟩, hline⟩, hform⟩, hreturn⟩ := h
  exact ⟨⟨⟨⟨toLower_ne rfl hspace, toLower_ne rfl htab⟩, toLower_ne rfl hline⟩,
    toLower_ne rfl hform⟩, toLower_ne rfl hreturn⟩

/-- Lower case keeps a character apart from those that end a name. -/
theorem isTagChar_toLower {c : Char} (hblank : isBlank c = false) (hslash : c ≠ '/')
    (hclose : c ≠ '>') :
    isTagChar c.toLower = true := by
  have hslash : c.toLower ≠ '/' := toLower_ne rfl hslash
  have hclose : c.toLower ≠ '>' := toLower_ne rfl hclose
  simp [isTagChar, c.isUpper_toLower_eq_false, isBlank_toLower hblank, hslash, hclose]

theorem tagName_empty : TagName "" := fun c hc => by simp at hc

theorem TagName.push {name : String} (h : TagName name) {c : Char} (hc : isTagChar c = true) :
    TagName (name.push c) := by
  intro d hd
  rw [String.toList_push, List.mem_append, List.mem_singleton] at hd
  rcases hd with hd | rfl
  · exact h d hd
  · exact hc

theorem TagName.asciiLower_eq {name : String} (h : TagName name) : asciiLower name = name := by
  rw [← String.toList_inj, toList_asciiLower]
  calc name.toList.map Char.toLower
    _ = name.toList.map id := by
      apply List.map_congr_left
      intro c hc
      apply Char.toLower_eq_of_not_isUpper
      intro hupper
      have hchar := h c hc
      simp [isTagChar, hupper] at hchar
    _ = name.toList := List.map_id _

end UniqueSelector.Markup
