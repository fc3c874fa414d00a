import UniqueSelector.Proofs.OwnPaths

/-!
# Origins — what the candidates of an element are made from

The candidates of an element are its features, written down one by one. Each of them is read as the
condition that it was made from, and with a place as this condition and the place. Only a tag is
written without a look at it: the empty tag and the lone hyphen are no names, and nothing reads them
as a type.
-/

namespace UniqueSelector

open Selector

/-! ## 1. Features and candidates -/

/-- The candidate that the feature is written down as. -/
def Feature.candidate (f : Feature) : Candidate :=
  { fragment := String.ofList f.text, cost := f.cost }

theorem filterMap_ite (keep : α → Prop) [DecidablePred keep] (f : α → β) (l : List α) :
    l.filterMap (fun a => if keep a then some (f a) else none) = (l.filter keep).map f := by
  induction l with
  | nil => rfl
  | cons a l ih =>
    by_cases h : keep a
    · simp [h, ih]
    · simp [h, ih]

namespace Element

/-- The features that the settings admit. Ids, attributes and classes are left out if they cannot
be written. -/
def admitted (e : Element) (s : Settings) : List Feature :=
  ((e.id?.toList.filter fun name => s.acceptsId name = true ∧ Writable name).map .id) ++
    ((e.attrs.entries.filter fun a => s.acceptsAttribute a.name a.value = true ∧
      Writable a.name).map fun a => .attr a.name a.value) ++
    ((e.classes.filter fun name => s.acceptsClass name = true ∧ Writable name).map .className) ++
    (if s.acceptsTag (asciiLower e.tag) then [.tag (asciiLower e.tag)] else [])

/-- The features that name the element, the star if there is no other. -/
def features (e : Element) (s : Settings) : List Feature :=
  match e.admitted s with
  | [] => [.any]
  | features => features

theorem candidate_id (name : String) :
    (Feature.id name).candidate = { fragment := "#" ++ escapeName name, cost := Cost.forId } := by
  have htext : String.ofList (Feature.id name).text = "#" ++ escapeName name := by
    rw [← String.toList_inj, String.toList_ofList, String.toList_append, toList_escapeName]
    rfl
  rw [Feature.candidate, htext]
  rfl

theorem candidate_attr (name value : String) :
    (Feature.attr name value).candidate =
      { fragment := "[" ++ escapeName name ++ "=\"" ++ escape (.string .double) value ++ "\"]"
        cost := Cost.forAttribute } := by
  have htext : String.ofList (Feature.attr name value).text =
      "[" ++ escapeName name ++ "=\"" ++ escape (.string .double) value ++ "\"]" := by
    rw [← String.toList_inj, String.toList_ofList]
    simp only [String.toList_append, toList_escapeName, toList_escape_string]
    simp [Feature.text]
  rw [Feature.candidate, htext]
  rfl

theorem candidate_className (name : String) :
    (Feature.className name).candidate =
      { fragment := "." ++ escapeName name, cost := Cost.forClass } := by
  have htext : String.ofList (Feature.className name).text = "." ++ escapeName name := by
    rw [← String.toList_inj, String.toList_ofList, String.toList_append, toList_escapeName]
    rfl
  rw [Feature.candidate, htext]
  rfl

theorem candidate_tag (name : String) :
    (Feature.tag name).candidate = { fragment := escapeName name, cost := Cost.forTag } := by
  have htext : String.ofList (Feature.tag name).text = escapeName name := by
    rw [← String.toList_inj, String.toList_ofList, toList_escapeName]
    rfl
  rw [Feature.candidate, htext]
  rfl

theorem map_candidate_admitted (e : Element) (s : Settings) :
    (e.admitted s).map Feature.candidate =
      (e.idCandidate? s).toList ++ e.attributeCandidates s ++ e.classCandidates s ++
        (e.tagCandidate? s).toList := by
  -- Each kind keeps what the settings accept and can be written; only the tag is not asked whether
  -- it can.
  have hid : (e.idCandidate? s).toList = e.id?.toList.filterMap fun name =>
      if s.acceptsId name = true ∧ Writable name then some (Feature.id name).candidate
        else none := by
    rw [idCandidate?]
    cases e.id? with
    | none => rfl
    | some name =>
      by_cases haccepts : s.acceptsId name = true <;> by_cases hname : Writable name <;>
        simp [Option.filter, haccepts, hname, writtenName?_eq, candidate_id]
  have hattributes : attributeCandidate? s = fun a =>
      if s.acceptsAttribute a.name a.value = true ∧ Writable a.name then
        some (Feature.attr a.name a.value).candidate
      else none := by
    funext a
    rw [attributeCandidate?, writtenName?_eq, candidate_attr]
    by_cases haccepts : s.acceptsAttribute a.name a.value = true <;> by_cases hname :
      Writable a.name <;> simp [haccepts, hname]
  have hclasses : classCandidate? s = fun name =>
      if s.acceptsClass name = true ∧ Writable name then some (Feature.className name).candidate
        else none := by
    funext name
    rw [classCandidate?, writtenName?_eq, candidate_className]
    by_cases haccepts : s.acceptsClass name = true <;> by_cases hname :
      Writable name <;> simp [haccepts, hname]
  have htag : (e.tagCandidate? s).toList =
      (if s.acceptsTag (asciiLower e.tag) then [Feature.tag (asciiLower e.tag)] else []).map
      Feature.candidate := by
    rw [tagCandidate?]
    by_cases haccepts : s.acceptsTag (asciiLower e.tag) = true <;> simp [haccepts, candidate_tag]
  rw [hid, attributeCandidates, hattributes, classCandidates, hclasses, htag, filterMap_ite,
    filterMap_ite, filterMap_ite, admitted, List.map_append, List.map_append, List.map_append,
    List.map_map, List.map_map, List.map_map]
  rfl

/-- **The candidates are the features, written down in order.** -/
theorem candidates_eq_map (e : Element) (s : Settings) :
    e.candidates s = (e.features s).map Feature.candidate := by
  rw [candidates, ← map_candidate_admitted, features]
  cases e.admitted s with
  | nil => rfl
  | cons f features => rfl

/-- An id that is admitted comes first. -/
theorem exists_features_of_id {e : Element} {s : Settings} {name : String} (hid : e.id? = some name)
    (haccepts : s.acceptsId name = true) (hname : Writable name) :
    ∃ others, e.features s = .id name :: others := by
  have hkept : [name].filter (fun name => s.acceptsId name = true ∧ Writable name) = [name] :=
    List.filter_cons_of_pos (decide_eq_true ⟨haccepts, hname⟩)
  rw [features, admitted, hid, Option.toList_some, hkept]
  exact ⟨_, rfl⟩

theorem tag_of_not_writable {tag : String} (h : ¬Writable (asciiLower tag)) :
    tag = "" ∨ tag = "-" := by
  rcases not_writable h with hempty | hhyphen
  · left
    rw [← String.toList_inj, toList_asciiLower] at hempty
    rw [← String.toList_inj]
    exact List.map_eq_nil_iff.1 hempty
  · right
    rw [← String.toList_inj, toList_asciiLower] at hhyphen
    obtain ⟨c, cs, htag, hc, hcs⟩ := List.map_eq_cons_iff.1 hhyphen
    -- No letter becomes a hyphen.
    have hupper : ¬c.isUpper = true := by
      intro hupper
      have halpha : c.toLower.isAlpha = true := by
        rw [c.isAlpha_toLower_eq_isAlpha, Char.isAlpha, hupper, Bool.true_or]
      rw [hc] at halpha
      exact absurd halpha (by decide)
    rw [Char.toLower_eq_of_not_isUpper (by simpa using hupper)] at hc
    rw [← String.toList_inj, htag, List.map_eq_nil_iff.1 hcs, hc]
    rfl

/-- All features can be written but for a tag that is empty or a lone hyphen. -/
theorem sound_of_mem_features {e : Element} {s : Settings} {f : Feature} (h : f ∈ e.features s) :
    f.Sound ∨ (f = .tag (asciiLower e.tag) ∧ (e.tag = "" ∨ e.tag = "-")) := by
  have hadmitted : f ∈ e.admitted s →
      f.Sound ∨ (f = .tag (asciiLower e.tag) ∧ (e.tag = "" ∨ e.tag = "-")) := by
    intro h
    rw [admitted, List.mem_append, List.mem_append, List.mem_append] at h
    rcases h with ((h | h) | h) | h
    · obtain ⟨name, hname, rfl⟩ := List.mem_map.1 h
      exact .inl (of_decide_eq_true (List.mem_filter.1 hname).2).2
    · obtain ⟨a, ha, rfl⟩ := List.mem_map.1 h
      exact .inl (of_decide_eq_true (List.mem_filter.1 ha).2).2
    · obtain ⟨name, hname, rfl⟩ := List.mem_map.1 h
      exact .inl (of_decide_eq_true (List.mem_filter.1 hname).2).2
    · split at h
      · rw [List.mem_singleton.1 h]
        by_cases htag : Writable (asciiLower e.tag)
        · exact .inl htag
        · exact .inr ⟨rfl, tag_of_not_writable htag⟩
      · cases h
  rw [features] at h
  split at h
  · rw [List.mem_singleton.1 h]
    exact .inl trivial
  · exact hadmitted h

end Element

/-! ## 2. What they are read as -/

namespace Feature

variable {f : Feature}

theorem toList_candidate (f : Feature) : f.candidate.fragment.toList = f.text :=
  String.toList_ofList

theorem parse_candidate (hf : f.Sound) : parse f.candidate.fragment = .ok [⟨[f.simple], []⟩] := by
  have hreads : Reads f.candidate.fragment.toList (Fragment.compound ⟨f, none⟩) := by
    rw [toList_candidate, ← List.append_nil f.text]
    exact Fragment.reads (f := ⟨f, none⟩) ⟨hf, fun i hi => by cases hi⟩
  exact Candidate.parse_of_reads hreads

theorem parse_nthChild (hf : f.Sound) {i : Nat} (hi : i < 2 ^ 31) :
    parse (f.candidate.nthChild i).fragment =
      .ok [⟨[f.simple, .pseudo (.nthChild ⟨0, i⟩)], []⟩] := by
  have hreads : Reads (f.candidate.nthChild i).fragment.toList (Fragment.compound ⟨f, some i⟩) := by
    rw [Candidate.toList_nthChild, toList_candidate]
    exact Fragment.reads (f := ⟨f, some i⟩) ⟨hf, fun j hj => by cases hj; exact hi⟩
  exact Candidate.parse_of_reads hreads

/-- The empty tag leaves nothing but the place. -/
theorem parse_nthChild_empty {i : Nat} (hi : i < 2 ^ 31) :
    parse ((tag "").candidate.nthChild i).fragment = .ok [⟨[.pseudo (.nthChild ⟨0, i⟩)], []⟩] := by
  have hempty : (tag "").text = [] := by decide
  have hreads : Reads ((tag "").candidate.nthChild i).fragment.toList (placeSimples (some i)) := by
    rw [Candidate.toList_nthChild, toList_candidate, hempty]
    exact reads_placeText hi
  exact Candidate.parse_of_reads hreads

theorem parse_nthChild_hyphen (i : Nat) (l : Selectors) :
    parse ((tag "-").candidate.nthChild i).fragment ≠ .ok l := by
  have hhyphen : (tag "-").text = ['-'] := by decide
  apply parse_ne_ok
  rw [Candidate.toList_nthChild, toList_candidate, hhyphen]
  apply dead_hyphen
  rintro c ⟨⟩
  exact .inr rfl

/-- Neither the empty tag nor the lone hyphen is read as a type, with or without a place. -/
theorem not_parse_of_not_writable {name : String} (h : ¬Writable name) :
    (∀ l, parse (tag name).candidate.fragment ≠ .ok l) ∧
      ∀ i, i < 2 ^ 31 →
        parse ((tag name).candidate.nthChild i).fragment ≠
          .ok [⟨[(tag name).simple, .pseudo (.nthChild ⟨0, i⟩)], []⟩] := by
  rcases not_writable h with rfl | rfl
  · constructor
    · have hfault : parse (tag "").candidate.fragment = .error .empty := by decide +kernel
      rw [hfault]
      exact fun l h => by cases h
    · intro i hi
      rw [parse_nthChild_empty hi]
      exact fun h => by cases h
  · constructor
    · have hfault : parse (tag "-").candidate.fragment = .error (.unexpected '-' 0) := by
        decide +kernel
      rw [hfault]
      exact fun l h => by cases h
    · exact fun i _ => parse_nthChild_hyphen i _

end Feature

namespace Element

/-- **Every candidate is read as the feature that it was made from**, alone and with a place, unless
it is the tag and that is empty or a lone hyphen, which is no selector. -/
theorem candidates_read (e : Element) (s : Settings) :
    e.candidates s = (e.features s).map Feature.candidate ∧
    ∀ f ∈ e.features s,
      (parse f.candidate.fragment = .ok [⟨[f.simple], []⟩] ↔ f.Sound) ∧
      (∀ i, 1 ≤ i → i < 2 ^ 31 →
        (parse (f.candidate.nthChild i).fragment =
          .ok [⟨[f.simple, .pseudo (.nthChild ⟨0, i⟩)], []⟩] ↔ f.Sound)) ∧
      (f.Sound ∨ f = .tag (asciiLower e.tag) ∧ (e.tag = "" ∨ e.tag = "-") ∧
        ∀ l, parse f.candidate.fragment ≠ .ok l) := by
  refine ⟨candidates_eq_map e s, fun f hf => ?_⟩
  -- What cannot be written is such a tag, and that is not read.
  have hsound := sound_of_mem_features hf
  have hnot : ¬f.Sound → (∀ l, parse f.candidate.fragment ≠ .ok l) ∧ ∀ i, i < 2 ^ 31 →
      parse (f.candidate.nthChild i).fragment ≠
      .ok [⟨[f.simple, .pseudo (.nthChild ⟨0, i⟩)], []⟩] := by
    intro hf
    obtain ⟨rfl, -⟩ := hsound.resolve_left hf
    exact Feature.not_parse_of_not_writable hf
  refine ⟨⟨fun h => ?_, Feature.parse_candidate⟩,
    fun i _ hi => ⟨fun h => ?_, fun hf => Feature.parse_nthChild hf hi⟩, ?_⟩
  · by_contra hf
    exact (hnot hf).1 _ h
  · by_contra hf
    exact (hnot hf).2 i hi h
  · by_cases hf : f.Sound
    · exact .inl hf
    · obtain ⟨htag, hname⟩ := hsound.resolve_left hf
      exact .inr ⟨htag, hname, (hnot hf).1⟩

/-- A lone hyphen and an empty tag: neither candidate is a selector, and with a place the second
says nothing of a tag. -/
theorem candidates_misread :
    candidates ⟨"-", {}⟩ {} = [⟨"-", Cost.forTag, 0⟩] ∧ parse "-" = .error (.unexpected '-' 0) ∧
      parse "-:nth-child(1)" = .error (.unexpected '-' 0) ∧
      candidates ⟨"", {}⟩ {} = [⟨"", Cost.forTag, 0⟩] ∧ parse "" = .error .empty ∧
      parse ":nth-child(1)" = .ok [⟨[.pseudo (.nthChild ⟨0, 1⟩)], []⟩] := by
  decide +kernel

end Element

end UniqueSelector
