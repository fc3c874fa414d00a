import UniqueSelector.Proofs.Completeness

/-!
# Doubles — elements that a chosen root does not tell apart

Below a chosen root the way ends at that root, which may look like some other element above or below
it. So an element can have a double inside of the root, and if its ids and classes do not help
either, it is not found. A landmark has no double, and neither has what is below it.
-/

namespace UniqueSelector

open Selector Markup

/-! ## 1. The way up to a chosen root -/

/-- In a document from text all that is between two elements are elements. -/
theorem Document.Textual.ascend_parentElement {t : Document} (ht : t.Textual) {k : Nat}
    {x y : NodeId} (hy : t.isElement y = true) (hxy : ascend t.parent k x = some y) :
    ascend t.parentElement k x = some y := by
  induction k generalizing x with
  | zero => exact hxy
  | succ k ih =>
    rw [ascend] at hxy ⊢
    obtain ⟨p, hp, hpy⟩ := Option.bind_eq_some_iff.1 hxy
    have helement : t.isElement p = true := by
      refine (ht.sound.parents hp).resolve_left ?_
      -- Nothing is above the document node, and it is no element.
      rintro rfl
      cases k with
      | zero =>
        cases hpy
        exact ht.landmarked.rooted.ne_root hy rfl
      | succ k =>
        rw [ascend, ht.sound.wellFormed.top] at hpy
        cases hpy
    rw [parentElement, hp, Option.filter_some, if_pos helement]
    exact ih hpy

namespace Quest

variable {q : Quest}

/-- A node above the target is on the way unless the way stops before it. -/
theorem way_of_ascend (hwell : q.document.WellFormed) (hway : q.way ≠ []) {l : Nat} {id : NodeId}
    (hid : ascend q.document.parentElement l q.target = some id)
    (hstop : ∀ i ≤ l, ∀ y, ascend q.document.parentElement i q.target = some y → q.stop ≠ some y) :
    q.way[l]? = some id := by
  obtain ⟨k, z, hlength, hz, htop⟩ := exists_top hwell hway
  by_cases hl : l < q.way.length
  · have hlevel := List.getElem?_eq_getElem hl
    rw [(ascend_of_way hlevel).2] at hid
    rw [hlevel, hid]
  · -- The way would have ended, but there is more above and it is not the stop.
    obtain ⟨d, rfl⟩ := Nat.exists_eq_add_of_le (Nat.le_of_not_lt hl)
    rw [ascend_add] at hid
    obtain ⟨y, hy, -⟩ := Option.bind_eq_some_iff.1 hid
    have hparent : q.document.parentElement z = some y := by
      rw [hlength, ascend_succ, (ascend_of_way hz).2] at hy
      exact hy
    rcases htop with hnone | heq
    · rw [hnone] at hparent
      cases hparent
    · exact absurd (heq.symm.trans hparent) (hstop q.way.length (Nat.le_add_right _ _) y hy)

section below

variable (ht : q.document.Textual) {base : NodeId}
  (hinside : q.document.isDescendantOf q.target base = true)
  (hstop : q.stop = q.document.parentElement base)
include ht hinside hstop

theorem way_ne_nil_below : q.way ≠ [] := by
  apply way_ne_nil
  rw [hstop]
  intro hparent
  have habove : q.document.isDescendantOf base q.target = true := by
    apply ht.sound.wellFormed.isDescendantOf_iff.2
    exact ⟨0, by rw [ascend, (Document.parent_of_parentElement hparent).1]; rfl⟩
  have hself := ht.sound.wellFormed.isDescendantOf_trans hinside habove
  rw [ht.sound.wellFormed.isDescendantOf_irrefl] at hself
  cases hself

variable (hbase : q.document.isElement base = true)
include hbase

/-- The way leads up to the chosen root. -/
theorem exists_way_base : ∃ k : Nat, q.way[k]? = some base := by
  have hwell := ht.sound.wellFormed
  obtain ⟨k, hk⟩ := hwell.isDescendantOf_iff.1 hinside
  have hascend := ht.ascend_parentElement hbase hk
  refine ⟨k + 1, way_of_ascend hwell (way_ne_nil_below ht hinside hstop) hascend
    fun i hi y hy hy' => ?_⟩
  -- The stop is one step further up, so it is not met before.
  have hfar : ascend q.document.parentElement (k + 2) q.target = some y := by
    rw [ascend_succ, hascend, Option.bind_some, ← hstop, hy']
  have hparents :=
    fun {a b : NodeId} => Document.parent_of_parentElement (t := q.document) (a := a) (b := b)
  have heq := hwell.ascend_inj (ascend_of_le (fun h => (hparents h).1) hy)
    (ascend_of_le (fun h => (hparents h).1) hfar)
  omega

/-- What mirrors the target mirrors the chosen root by a node that is like it. -/
theorem Mirrors.exists_alike {x : NodeId} (h : q.Mirrors x) (hx : x ≠ q.target)
    (htarget : q.document.isElement q.target = true) :
    ∃ k y, ascend q.document.parentElement k x = some y ∧ y ≠ base ∧ q.document.Alike y base := by
  obtain ⟨k, hk⟩ := exists_way_base ht hinside hstop hbase
  obtain ⟨y, hy, halike⟩ := h k base hk
  refine ⟨k, y, hy, ?_, halike⟩
  rintro rfl
  exact hx (h.eq_target ht.sound.wellFormed htarget hk hy)

/-- If every path fits several elements, then one of these mirrors the target, and the chosen root
by another node. -/
theorem exists_double (htarget : q.document.isElement q.target = true)
    (htags : ∀ name, q.settings.acceptsTag name = true)
    (hshared : ∀ path ∈ choices (q.levels .all), q.Shared path) :
    ∃ x k y, x ≠ q.target ∧ q.document.isDescendantOf x q.scope = true ∧ q.Mirrors x ∧
      ascend q.document.parentElement k x = some y ∧ y ≠ base ∧ q.document.Alike y base := by
  have hway := way_ne_nil_below ht hinside hstop
  obtain ⟨x, hx, hscope, hmirrors⟩ := exists_mirror ht htarget hway htags hshared
  obtain ⟨k, y, hy, hne, halike⟩ := hmirrors.exists_alike ht hinside hstop hbase hx htarget
  exact ⟨x, k, y, hx, hscope, hmirrors, hy, hne, halike⟩

end below

end Quest

/-- The way up from below a chosen element ends there, and nothing but the default root widens
the scope. -/
theorem Settings.ground_of_root {s : Settings} {t : Document} {base : NodeId}
    (hroot : s.root = some base) (hne : base ≠ Document.root) : (s.ground t).root = base ∧
      ((s.ground t).scope = base ∨ (s.ground t).scope = Document.root ∧ base = t.defaultRoot) := by
  rw [ground, hroot]
  dsimp only
  split
  · next hdefault => exact ⟨rfl, .inr ⟨rfl, hdefault.resolve_left hne⟩⟩
  · exact ⟨rfl, .inl rfl⟩

/-! ## 2. Elements that are not found -/

namespace Markup

/-- **Below a chosen root an element is not found exactly if every path fits several elements.**
Then it has a double inside of the root, and the root has one above or below itself; a landmark
has none. -/
theorem selectorFor_below {html : String} (hnull : '\x00' ∉ html.toList) {base target : NodeId}
    {e : Element} (hbase : (Markup.parse html).isElement base = true)
    (htarget : (Markup.parse html).element? target = some e)
    (hhtml : sameLetters e.tag "html" = false)
    (hinside : (Markup.parse html).isDescendantOf target base = true) {n : Nat}
    (hproduct :
      (((Quest.aim (Markup.parse html) { root := some base, threshold := n } target).levels
      .all).map List.length).prod ≤ n) :
    let t := Markup.parse html
    let s : Settings := { root := some base, threshold := n }
    let q := Quest.aim t s target
    (t.selectorFor s target = .error .notFound ↔ ∀ path ∈ choices (q.levels .all), q.Shared path) ∧
      (t.selectorFor s target = .error .notFound →
        (∃ x, x ≠ target ∧ t.isDescendantOf x base = true ∧ q.Mirrors x) ∧
        ∃ y, y ≠ base ∧ (t.isDescendantOf y base = true ∨ t.isDescendantOf base y = true) ∧
        t.Alike y base) ∧
      ∀ d, t.element? base = some d → d.tag ∈ landmarkTags →
      t.selectorFor s target ≠ .error .notFound := by
  intro t s q
  have ht : t.Textual := textual_parse hnull
  have helement : t.isElement target = true := by rw [Document.isElement, htarget]; rfl
  obtain ⟨hground, hscope⟩ :=
    Settings.ground_of_root (s := s) (t := t) rfl (ht.landmarked.rooted.ne_root hbase)
  have hstop : q.stop = t.parentElement base := congrArg t.parentElement hground
  have hway : q.way ≠ [] := Quest.way_ne_nil_below ht hinside hstop
  have hbelow : t.isDescendantOf target q.scope = true := by
    rcases hscope with hscope | ⟨hscope, -⟩
    · rw [show q.scope = base from hscope]
      exact hinside
    · rw [show q.scope = Document.root from hscope]
      exact ht.isDescendantOf_root helement
  have hnotFound : t.selectorFor s target = .error .notFound ↔
      ∀ path ∈ choices (q.levels .all), q.Shared path := by
    rw [Document.selectorFor_notFound htarget hhtml hbelow]
    exact Quest.settle_uniquePath_none_iff (q := q) ht.sound.wellFormed helement hway hproduct
  have hdouble : t.selectorFor s target = .error .notFound → ∃ x k y, x ≠ target ∧
      t.isDescendantOf x q.scope = true ∧ q.Mirrors x ∧ ascend t.parentElement k x = some y ∧
      y ≠ base ∧ t.Alike y base := fun h =>
    Quest.exists_double (q := q) ht hinside hstop hbase helement (fun _ => rfl) (hnotFound.1 h)
  have hlandmark : ∀ d, t.element? base = some d → d.tag ∈ landmarkTags →
      t.selectorFor s target ≠ .error .notFound := by
    intro d hd hmem h
    obtain ⟨_, _, y, _, _, _, _, hne, d', e', hd', he', htag, -⟩ := hdouble h
    rw [hd] at he'
    cases he'
    exact hne (ht.eq_of_landmark hd' hd htag hmem)
  refine ⟨hnotFound, fun h => ?_, hlandmark⟩
  obtain ⟨x, k, y, hx, hxscope, hmirrors, hy, hne, halike⟩ := hdouble h
  have hxbase : t.isDescendantOf x base = true := by
    rcases hscope with hscope | ⟨-, hdefault⟩
    · rw [← show q.scope = base from hscope]
      exact hxscope
    · -- The default root is a landmark, so nothing is like it.
      obtain ⟨d, hd⟩ := Option.isSome_iff_exists.1 hbase
      have hmem := ht.mem_landmarkTags hd fun p hp => ht.tag_above_defaultRoot (hdefault ▸ hp)
      exact absurd h (hlandmark d hd hmem)
  refine ⟨⟨x, hx, hxbase, hmirrors⟩, y, hne, ?_, halike⟩
  obtain ⟨j, hj⟩ := ht.sound.wellFormed.isDescendantOf_iff.1 hxbase
  have hy' := ascend_of_le (fun h => (Document.parent_of_parentElement h).1) hy
  exact (ht.sound.wellFormed.ascend_comparable hy' hj).resolve_left hne

/-- Below the outer `div` the first paragraph has a double: the one in the inner `div`, which looks
like the outer. -/
def doubles : String := "<div><p></p><b><div><p></p></div></b></div>"

theorem selectorFor_below_doubles :
    let t := parse doubles
    let s : Settings := { root := some 3, threshold := 1000 }
    let q := Quest.aim t s 4
    (t.selectorFor s 4 = .error .notFound ↔ ∀ path ∈ choices (q.levels .all), q.Shared path) ∧
      (t.selectorFor s 4 = .error .notFound →
        (∃ x, x ≠ 4 ∧ t.isDescendantOf x 3 = true ∧ q.Mirrors x) ∧
        ∃ y, y ≠ 3 ∧ (t.isDescendantOf y 3 = true ∨ t.isDescendantOf 3 y = true) ∧ t.Alike y 3) ∧
      ∀ d, t.element? 3 = some d → d.tag ∈ landmarkTags → t.selectorFor s 4 ≠ .error .notFound := by
  have hnull : '\x00' ∉ doubles.toList := by decide
  have hbase : (parse doubles).isElement 3 = true := by decide +kernel
  have htarget : (parse doubles).element? 4 = some { tag := "p" } := by decide +kernel
  have hinside : (parse doubles).isDescendantOf 4 3 = true := by decide +kernel
  have hproduct :
      (((Quest.aim (parse doubles) { root := some 3, threshold := 1000 } 4).levels .all).map
        List.length).prod ≤ 1000 := by decide +kernel
  exact selectorFor_below hnull hbase htarget (by decide) hinside hproduct

/-- There are four paths to the first paragraph, all of them are tried, and it is not found. -/
theorem selectorFor_doubles :
    let t := parse doubles
    let s : Settings := { root := some 3 }
    ('\x00' ∉ doubles.toList ∧ t.isElement 3 = true ∧ t.element? 4 = some { tag := "p" } ∧
        t.isDescendantOf 4 3 = true ∧ (((Quest.aim t s 4).levels .all).map List.length).prod = 4 ∧
        s.threshold = 1000) ∧
      t.selectorFor s 4 = .error .notFound := by
  intro t s
  have hnull : '\x00' ∉ doubles.toList := by decide
  have htarget : t.element? 4 = some { tag := "p" } := by decide +kernel
  have helement : t.isElement 4 = true := by rw [Document.isElement, htarget]; rfl
  have hinside : t.isDescendantOf 4 3 = true := by decide +kernel
  have hproduct : (((Quest.aim t s 4).levels .all).map List.length).prod = 4 := by decide +kernel
  have hshared : ∀ path ∈ choices ((Quest.aim t s 4).levels .all),
      (Quest.aim t s 4).Shared path := by decide +kernel
  refine ⟨⟨hnull, by decide +kernel, htarget, hinside, hproduct, rfl⟩, ?_⟩
  rw [Document.selectorFor_notFound htarget (by decide) (by decide +kernel)]
  have hwell : t.WellFormed := (sound_parse hnull).wellFormed
  apply (Quest.settle_uniquePath_none_iff (q := Quest.aim t s 4) hwell helement ?_ ?_).2 hshared
  · decide +kernel
  · rw [hproduct]
    decide

end Markup

end UniqueSelector
