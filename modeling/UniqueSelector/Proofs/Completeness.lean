import UniqueSelector.Proofs.Pinning
import UniqueSelector.Proofs.InternalFailure

/-!
# Completeness — which elements are found

If all tags are admitted, one of the paths that are tried names each element on the way by its tag
and counts. Only an element that mirrors the target, with the same tags and places on the way up,
fits it as well. From the default root the way ends at a landmark, which no other element mirrors;
below another root it may end anywhere.
-/

namespace UniqueSelector

open Selector Markup

/-! ## 1. The path of tags -/

/-- An element can be called by its tag if that is admitted. -/
theorem Element.exists_tag_mem_candidates (e : Element) {s : Settings}
    (h : s.acceptsTag (asciiLower e.tag) = true) :
    ∃ c ∈ e.candidates s, c.fragment.toList = (Feature.tag (asciiLower e.tag)).text := by
  obtain ⟨c, hc⟩ : ∃ c, e.tagCandidate? s = some c := by
    rw [tagCandidate?]
    exact ⟨_, if_pos h⟩
  refine ⟨c, ?_, toList_of_tagCandidate? hc⟩
  have hmem : c ∈ (e.idCandidate? s).toList ++ e.attributeCandidates s ++ e.classCandidates s ++
      (e.tagCandidate? s).toList := List.mem_append_right _ (Option.mem_toList.2 hc)
  rw [candidates]
  split
  · next hnil =>
    rw [hnil] at hmem
    cases hmem
  · exact hmem

namespace Quest

variable {q : Quest}

/-- One of the paths through the whole way counts on each level and calls each element by
its tag. -/
theorem exists_tagPath (ht : q.document.Textual) (htarget : q.document.isElement q.target = true)
    (htags : ∀ name, q.settings.acceptsTag name = true) :
    ∃ path ∈ choices (q.levels .all), ∀ (l : Nat) (c : Candidate), path[l]? = some c →
      ∃ id e, q.way[l]? = some id ∧ q.document.element? id = some e ∧
        c.Counts q.document id (.tag (asciiLower e.tag)) := by
  apply exists_mem_choices
  intro l level hlevel
  obtain ⟨id, e, hid, he, rfl⟩ :=
    getElem?_levels (fun id hid => element_of_mem_way htarget hid) hlevel
  obtain ⟨c₀, hc₀, htext⟩ := e.exists_tag_mem_candidates (htags (asciiLower e.tag))
  have hmem := Level.preferCounted_mem hc₀ (q.document.elementIndex id)
  refine ⟨_, List.mem_map.2 ⟨_, hmem, rfl⟩, id, e, hid, he, ?_⟩
  obtain ⟨letter, letters, htag, hletter⟩ := (ht.sound.elements he).lettered.exists_cons
  exact ⟨writable_asciiLower htag hletter, e, c₀, he, rfl, htext, rfl⟩

/-! ## 2. Elements like the target -/

end Quest

/-- The elements have the same tag and the same place among their siblings. -/
def Document.Alike (t : Document) (x y : NodeId) : Prop :=
  ∃ d e, t.element? x = some d ∧ t.element? y = some e ∧ sameLetters d.tag e.tag = true ∧
    t.elementIndex x = t.elementIndex y

/-- What counts by a tag fits those elements only that are alike. -/
theorem Candidate.Counts.alike {t : Document} (ht : t.Textual) {c : Candidate} {id : NodeId}
    {e : Element} (he : t.element? id = some e) (h : c.Counts t id (.tag (asciiLower e.tag)))
    (hlegible : c.Legible) {y : NodeId} (hy : Compound.matches c.compound t y = true) :
    t.Alike y id := by
  obtain ⟨d, hd, hfeature, hindex⟩ := h.of_matches ht (fun name hname => by cases hname) hlegible hy
  have hnull := Element.notMem_asciiLower (ht.nullFree he).1
  rw [Element.simple_tag hnull, Simple.matches, sameLetters, asciiLower_asciiLower] at hfeature
  exact ⟨d, e, hd, he, hfeature, hindex⟩

namespace Quest

variable {q : Quest}

/-- The way up from `x` is like the way from the target, as far as that goes. -/
def Mirrors (q : Quest) (x : NodeId) : Prop :=
  ∀ l id, q.way[l]? = some id → ∃ y, ascend q.document.parentElement l x = some y ∧
    q.document.Alike y id

/-- Of several elements that fit an own path one is not the target. -/
theorem Own.exists_other (hwell : q.document.WellFormed) {path : Path} (hown : q.Own path)
    (hgapless : Gapless path) (hshared : q.Shared path) : (∀ c ∈ path, c.Legible) ∧
      ∃ x, x ≠ q.target ∧ q.document.isDescendantOf x q.scope = true ∧
        q.document.isElement x = true ∧
        ∀ l c, path[l]? = some c → ∃ y, ascend q.document.parentElement l x = some y ∧
          Compound.matches c.compound q.document y = true := by
  obtain ⟨l, hparse⟩ := hshared.exists_parse
  have hlegible := hown.legible_of_parse hgapless hparse
  refine ⟨hlegible, ?_⟩
  have hne : path ≠ [] := by
    obtain ⟨target, rest, rfl, -⟩ := hown.exists_cons
    exact List.cons_ne_nil _ _
  obtain ⟨x, y, ids, hids⟩ := hshared
  have hanswers := ((Path.queryAll_render hne hlegible (separated_of_gapless hgapless)).1 hids).2
  have hnodup : (x :: y :: ids).Nodup := by
    rw [hanswers]
    exact (hwell.nodup_descendants q.scope).filter _
  have hfits : ∀ z ∈ x :: y :: ids, q.document.isDescendantOf z q.scope = true ∧
      q.document.isElement z = true ∧
      ∀ l c, path[l]? = some c → ∃ y, ascend q.document.parentElement l z = some y ∧
        Compound.matches c.compound q.document y = true := by
    intro z hz
    rw [hanswers, List.mem_filter, Document.mem_descendants hwell] at hz
    have hlevels := (Path.matches_intended_gapless hne hgapless).1 hz.2
    refine ⟨hz.1, ?_, hlevels⟩
    -- The first candidate is the one for the node itself.
    obtain ⟨z', hz', hmatches⟩ :=
      hlevels 0 _ (List.getElem?_eq_getElem (List.length_pos_of_ne_nil hne))
    cases hz'
    exact Compound.isElement_of_matches hmatches
  -- The first two answers differ, so one of them will do.
  by_cases hx : x = q.target
  · have hy : y ≠ q.target := by
      rintro rfl
      exact (List.nodup_cons.1 hnodup).1 (hx ▸ .head _)
    exact ⟨y, hy, hfits y (.tail _ (.head _))⟩
  · exact ⟨x, hx, hfits x (.head _)⟩

/-- **If every path fits several elements, then some other element mirrors the target.** -/
theorem exists_mirror (ht : q.document.Textual) (htarget : q.document.isElement q.target = true)
    (hway : q.way ≠ []) (htags : ∀ name, q.settings.acceptsTag name = true)
    (hshared : ∀ path ∈ choices (q.levels .all), q.Shared path) :
    ∃ x, x ≠ q.target ∧ q.document.isDescendantOf x q.scope = true ∧ q.Mirrors x := by
  obtain ⟨path, hpath, hcounts⟩ := exists_tagPath ht htarget htags
  obtain ⟨hown, hgapless⟩ := own_of_mem_choices htarget hway hpath
  obtain ⟨hlegible, x, hx, hbelow, -, hfits⟩ :=
    hown.exists_other ht.sound.wellFormed hgapless (hshared path hpath)
  refine ⟨x, hx, hbelow, fun l id hid => ?_⟩
  have hlength : l < path.length := by
    rw [(mem_choices.1 hpath).length_eq, length_levels htarget]
    exact (List.getElem?_eq_some_iff.1 hid).1
  have hc := List.getElem?_eq_getElem hlength
  obtain ⟨id', e, hid', he, hcount⟩ := hcounts l _ hc
  rw [hid] at hid'
  cases hid'
  obtain ⟨y, hy, hmatches⟩ := hfits l _ hc
  exact ⟨y, hy, hcount.alike ht he (hlegible _ (List.mem_of_getElem? hc)) hmatches⟩

/-- Only the target has its places on the way up to an element of its way. -/
theorem eq_target (hwell : q.document.WellFormed) (htarget : q.document.isElement q.target = true)
    {l : Nat} {z x : NodeId} (hz : q.way[l]? = some z) (hx : q.document.isElement x = true)
    (hxz : ascend q.document.parentElement l x = some z)
    (hindex : ∀ i < l, ∀ id y, q.way[i]? = some id → ascend q.document.parentElement i x = some y →
      q.document.elementIndex y = q.document.elementIndex id) : x = q.target := by
  apply hwell.eq_of_ascend hx htarget hxz (ascend_of_way hz).2
  intro i hi a b ha hb
  have hlength := Nat.lt_trans hi (List.getElem?_eq_some_iff.1 hz).1
  have hid := List.getElem?_eq_getElem hlength
  rw [(ascend_of_way hid).2] at hb
  cases hb
  exact hindex i hi _ a hid ha

theorem Mirrors.eq_target (hwell : q.document.WellFormed)
    (htarget : q.document.isElement q.target = true) {x : NodeId} (h : q.Mirrors x) {l : Nat}
    {z : NodeId} (hz : q.way[l]? = some z) (hxz : ascend q.document.parentElement l x = some z) :
    x = q.target := by
  have hx : q.document.isElement x = true := by
    have hfirst : ∃ id, q.way[0]? = some id :=
      ⟨_, List.getElem?_eq_getElem (Nat.zero_lt_of_lt (List.getElem?_eq_some_iff.1 hz).1)⟩
    obtain ⟨id, hid⟩ := hfirst
    obtain ⟨y, hy, d, -, hd, -⟩ := h 0 id hid
    cases hy
    exact Document.isElement_of_element? hd
  apply Quest.eq_target hwell htarget hz hx hxz
  intro i _ id y hid hy
  obtain ⟨y', hy', _, _, _, _, _, hindex⟩ := h i id hid
  rw [hy] at hy'
  cases hy'
  exact hindex

/-! ## 3. The end of the way -/

/-- The way ends below the stop, or where there is no element above. -/
theorem exists_top (hwell : q.document.WellFormed) (hway : q.way ≠ []) :
    ∃ k z, q.way.length = k + 1 ∧ q.way[k]? = some z ∧
      (q.document.parentElement z = none ∨ q.document.parentElement z = q.stop) := by
  obtain ⟨k, hk⟩ := Nat.exists_eq_add_one_of_ne_zero (List.length_pos_of_ne_nil hway).ne'
  have hz : q.way[k]? = some q.way[k] := List.getElem?_eq_getElem (by omega)
  refine ⟨k, _, hk, hz, ?_⟩
  cases hp : q.document.parentElement q.way[k] with
  | none => exact .inl rfl
  | some p =>
    right
    have hascend : ascend q.document.parentElement (k + 1) q.target = some p := by
      rw [ascend_succ, (ascend_of_way hz).2]
      exact hp
    have hsize :=
      hwell.ascend_lt_size (ascend_of_le (fun h => (Document.parent_of_parentElement h).1) hascend)
    -- The parent is the next node of the full walk, so it is the first one behind the cut.
    have hnext : (q.target :: follow q.document.parentElement q.document.size q.target)[k + 1]? =
        some p := by
      rw [List.getElem?_cons_succ, getElem?_follow, if_pos hsize, hascend]
    have hsplit :
        q.way ++ (q.target :: follow q.document.parentElement q.document.size q.target).dropWhile
            (fun id => some id != q.stop) =
          q.target :: follow q.document.parentElement q.document.size q.target :=
      List.takeWhile_append_dropWhile
    rw [← hsplit, List.getElem?_append_right (Nat.le_of_eq hk), hk, Nat.sub_self,
      ← List.head?_eq_getElem?] at hnext
    have hcut := List.head?_dropWhile_not (fun id => some id != q.stop)
      (q.target :: follow q.document.parentElement q.document.size q.target)
    rw [hnext] at hcut
    simpa using hcut

end Quest

/-! ## 4. Landmarks at the end -/

namespace Document.WellFormed

variable {t : Document} (h : t.WellFormed)
include h

theorem isElement_root : t.isElement root = false := by
  rw [isElement, element?_eq, h.document]
  rfl

theorem of_documentElement {id : NodeId} (hid : t.documentElement = some id) :
    t.parent id = some root ∧ t.isElement id = true := by
  have hmem : id ∈ t.elementChildren root := List.mem_of_head? hid
  rw [elementChildren, List.mem_filter, h.mem_children] at hmem
  exact hmem

/-- Above the default root there is nothing or the document element. -/
theorem documentElement_of_defaultRoot {p : NodeId} (hp : t.parentElement t.defaultRoot = some p) :
    t.documentElement = some p := by
  obtain ⟨hparent, helement⟩ := parent_of_parentElement hp
  rw [defaultRoot] at hparent
  cases hbody : t.body with
  | some b =>
    -- The body is a child of the document element.
    rw [hbody, Option.some_or, Option.getD_some] at hparent
    obtain ⟨id, hid, hfind⟩ := Option.bind_eq_some_iff.1 hbody
    have hmem := List.mem_of_find?_eq_some hfind
    rw [elementChildren, List.mem_filter, h.mem_children, hparent] at hmem
    exact hid.trans hmem.1.symm
  | none =>
    rw [hbody, Option.none_or] at hparent
    cases hid : t.documentElement with
    | some id =>
      rw [hid, Option.getD_some, (h.of_documentElement hid).1] at hparent
      cases hparent
      rw [h.isElement_root] at helement
      cases helement
    | none =>
      -- The document node has no parent.
      rw [hid, Option.getD_none, h.top] at hparent
      cases hparent

end Document.WellFormed

namespace Document.Textual

variable {t : Document} (ht : t.Textual)
include ht

/-- What has nothing above it but the document element is a landmark. -/
theorem mem_landmarkTags {z : NodeId} {e : Element} (he : t.element? z = some e)
    (habove : ∀ p, t.parentElement z = some p → ∃ d, t.element? p = some d ∧ d.tag = "html") :
    e.tag ∈ landmarkTags := by
  cases hp : t.parentElement z with
  | none =>
    rw [ht.tag_of_parentElement_none he hp]
    exact .head _
  | some p =>
    obtain ⟨d, hd, hhtml⟩ := habove p hp
    rcases ht.landmarked.inner hd hhtml he (parent_of_parentElement hp).1 with hhead | hbody
    · exact hhead ▸ .tail _ (.head _)
    · exact hbody ▸ .tail _ (.tail _ (.head _))

/-- Above the default root there is nothing but the document element. -/
theorem tag_above_defaultRoot {p : NodeId} (hp : t.parentElement t.defaultRoot = some p) :
    ∃ d, t.element? p = some d ∧ d.tag = "html" := by
  obtain ⟨htop, helement⟩ :=
    ht.sound.wellFormed.of_documentElement (ht.sound.wellFormed.documentElement_of_defaultRoot hp)
  obtain ⟨d, hd⟩ := Option.isSome_iff_exists.1 helement
  exact ⟨d, hd, ht.landmarked.top hd htop⟩

end Document.Textual

namespace Quest

variable {q : Quest}

section stop

variable (ht : q.document.Textual) (htarget : q.document.isElement q.target = true)
  (hway : q.way ≠ []) (hstop : ∀ p ∈ q.stop, ∃ d, q.document.element? p = some d ∧ d.tag = "html")
include ht htarget hway hstop

/-- If the way ends below the document element at the latest, then it ends at a landmark. -/
theorem exists_landmark :
    ∃ k z e, q.way.length = k + 1 ∧ q.way[k]? = some z ∧ q.document.element? z = some e ∧
      e.tag ∈ landmarkTags := by
  obtain ⟨k, z, hk, hz, htop⟩ := exists_top ht.sound.wellFormed hway
  obtain ⟨e, he⟩ := Option.isSome_iff_exists.1 (element_of_way hz htarget)
  refine ⟨k, z, e, hk, hz, he, ht.mem_landmarkTags he fun p hp => ?_⟩
  rcases htop with hnone | heq
  · rw [hnone] at hp
    cases hp
  · exact hstop p (heq ▸ hp)

/-- Then nothing but the target mirrors the target. -/
theorem Mirrors.eq_target_of_stop {x : NodeId} (h : q.Mirrors x) : x = q.target := by
  obtain ⟨k, z, e, -, hz, he, hlandmark⟩ := exists_landmark ht htarget hway hstop
  obtain ⟨y, hy, d, e', hd, he', htag, -⟩ := h k z hz
  rw [he] at he'
  cases he'
  have hyz := ht.eq_of_landmark hd he htag hlandmark
  exact h.eq_target ht.sound.wellFormed htarget hz (hyz ▸ hy)

end stop

end Quest

/-! ## 5. The default root -/

namespace Quest

/-- Without a chosen root the way ends below the document element. -/
theorem stop_aim {t : Document} (ht : t.Textual) {s : Settings} (hroot : s.root = none)
    (target : NodeId) :
    ∀ p ∈ (aim t s target).stop, ∃ d, t.element? p = some d ∧ d.tag = "html" := by
  intro p hp
  rw [aim, Settings.ground, hroot] at hp
  exact ht.tag_above_defaultRoot hp

theorem scope_aim {t : Document} {s : Settings} (hroot : s.root = none) (target : NodeId) :
    (aim t s target).scope = Document.root := by
  rw [aim, Settings.queryScope, Settings.ground, hroot]

theorem way_ne_nil_of_stop {q : Quest} {e : Element}
    (htarget : q.document.element? q.target = some e) (hhtml : sameLetters e.tag "html" = false)
    (hstop : ∀ p ∈ q.stop, ∃ d, q.document.element? p = some d ∧ d.tag = "html") : q.way ≠ [] := by
  apply way_ne_nil
  intro hstops
  obtain ⟨d, hd, htag⟩ := hstop _ hstops
  rw [htarget] at hd
  cases hd
  rw [htag] at hhtml
  exact absurd hhtml (by decide)

/-- A selector that fits something fits one element or several. -/
theorem lone_or_shared {q : Quest} {path : Path} (h : ¬q.document.Barren path.render q.scope) :
    q.Lone path ∨ q.Shared path := by
  rw [Document.Barren] at h
  push Not at h
  obtain ⟨ids, hids, hne⟩ := h
  match ids with
  | [] => exact absurd rfl hne
  | [x] => exact .inl ⟨x, hids⟩
  | x :: y :: ids => exact .inr ⟨x, y, ids, hids⟩

end Quest

/-- A search ends with a path if nothing else mirrors the target. -/
theorem Quest.exists_uniquePath {q : Quest} (ht : q.document.Textual)
    (hfew : ∀ p, (q.document.elementChildren p).length < 2 ^ 31)
    (htarget : q.document.isElement q.target = true)
    (hbelow : q.document.isDescendantOf q.target q.scope = true) (hway : q.way ≠ [])
    (htags : ∀ name, q.settings.acceptsTag name = true)
    (hproduct : ((q.levels .all).map List.length).prod ≤ q.settings.threshold)
    (hmirrors : ∀ x, q.Mirrors x → x = q.target) :
    ∃ path, q.document.settle (q.uniquePath .all) = .ok (some path) := by
  have hanswered : ∃ found, q.document.settle (q.uniquePath .all) = .ok found := by
    apply settle_uniquePath_of_answered
    intro mode n hne path hpath
    rw [← combinations_eq_choices] at hpath
    exact lone_or_shared (not_barren_of_mem_combinations ht.sound hfew hbelow htarget hne hpath)
  obtain ⟨found, hfound⟩ := hanswered
  cases found with
  | some path => exact ⟨path, hfound⟩
  | none =>
    -- Then every path fits several elements, and one of these mirrors the target.
    have hshared := (settle_uniquePath_none_iff ht.sound.wellFormed htarget hway hproduct).1 hfound
    obtain ⟨x, hx, -, hmirror⟩ := exists_mirror ht htarget hway htags hshared
    exact absurd (hmirrors x hmirror) hx

/-- With two elements on the way at most there is nothing to leave out, so the path that is found is
written down. -/
theorem Quest.settle_selector_of_short {q : Quest} (htarget : q.document.isElement q.target = true)
    (hshort : q.way.length ≤ 2) {path : Path}
    (hpath : q.document.settle (q.uniquePath .all) = .ok (some path)) :
    ∃ selector, q.document.settle q.selector = .ok selector := by
  obtain ⟨-, mode, n, -, hmem⟩ := mem_choices_of_settle_uniquePath hpath
  have hlength : path.length ≤ 2 := by
    rw [(mem_choices.1 hmem).length_eq, List.length_take, length_levels htarget]
    exact Nat.le_trans (Nat.min_le_right _ _) hshort
  have hshorten : q.document.settle (q.shorten path) = .ok {} := by
    rw [shorten_of_length_le_two q hlength, Document.settle_pure]
  obtain ⟨best, -, -, hbest⟩ := settle_bestVariant hshorten
  exact ⟨best.render, (settle_selector_of_uniquePath hpath).trans hbest⟩

/-- **From the default root every element is found** if all tags are admitted and all combinations
of the widest mode may be tried. -/
theorem Markup.uniquePath_complete {html : String} (hnull : '\x00' ∉ html.toList)
    (hfew : ∀ p, ((Markup.parse html).elementChildren p).length < 2 ^ 31) {s : Settings}
    (hroot : s.root = none) (htags : ∀ name, s.acceptsTag name = true) {target : NodeId}
    {e : Element} (htarget : (Markup.parse html).element? target = some e)
    (hhtml : sameLetters e.tag "html" = false)
    (hproduct : (((Quest.aim (Markup.parse html) s target).levels .all).map List.length).prod ≤
      s.threshold) :
    let t := Markup.parse html
    (∃ path, t.settle ((Quest.aim t s target).uniquePath .all) = .ok (some path)) ∧
      t.selectorFor s target ≠ .error .notFound := by
  intro t
  have ht : t.Textual := textual_parse hnull
  have helement : t.isElement target = true := by rw [Document.isElement, htarget]; rfl
  have hscope : s.queryScope t = Document.root := Quest.scope_aim hroot target
  have hbelow : t.isDescendantOf target (s.queryScope t) = true := by
    rw [hscope]
    exact ht.isDescendantOf_root helement
  have hstop := Quest.stop_aim ht hroot target
  have hway : (Quest.aim t s target).way ≠ [] :=
    Quest.way_ne_nil_of_stop (q := Quest.aim t s target) htarget hhtml hstop
  have hfound := Quest.exists_uniquePath (q := Quest.aim t s target) ht hfew helement hbelow hway
    htags hproduct
    fun x hx => hx.eq_target_of_stop (q := Quest.aim t s target) ht helement hway hstop
  refine ⟨hfound, fun hnotFound => ?_⟩
  obtain ⟨path, hpath⟩ := hfound
  have hnone := (Document.selectorFor_notFound htarget hhtml hbelow).1 hnotFound
  cases hpath.symm.trans hnone

/-- Of two items that differ in nothing but their place the second is found. -/
theorem Markup.uniquePath_complete_item :
    let t := Markup.parse "<ul><li></li><li></li></ul>"
    (∃ path, t.settle ((Quest.aim t {} 5).uniquePath .all) = .ok (some path)) ∧
      t.selectorFor {} 5 ≠ .error .notFound := by
  have hnull : '\x00' ∉ "<ul><li></li><li></li></ul>".toList := by decide
  have hfew : ∀ p, ((Markup.parse "<ul><li></li><li></li></ul>").elementChildren p).length <
      2 ^ 31 := by
    intro p
    have hsize : (Markup.parse "<ul><li></li><li></li></ul>").size = 6 := by decide +kernel
    have hlength := Document.length_elementChildren_le (sound_parse hnull).wellFormed p
    rw [hsize] at hlength
    omega
  have htarget : (Markup.parse "<ul><li></li><li></li></ul>").element? 5 =
      some { tag := "li" } := by decide +kernel
  have hproduct : (((Quest.aim (Markup.parse "<ul><li></li><li></li></ul>") {} 5).levels .all).map
      List.length).prod ≤ 1000 := by decide +kernel
  exact uniquePath_complete hnull hfew rfl (fun _ => rfl) htarget (by decide) hproduct

end UniqueSelector
