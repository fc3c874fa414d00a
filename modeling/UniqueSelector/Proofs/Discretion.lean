import UniqueSelector.Markup.Construction
import UniqueSelector.Synthesis.Find

/-!
# Discretion — names that are not admitted do not matter

The settings let a search see the shape of a document, the tags, and those ids, classes and
attributes that they admit. Two documents that look the same in this way get the same queries and
the same selectors, whoever answers.
-/

namespace UniqueSelector

/-! ## 1. What can be seen -/

/-- What can be seen of an element. -/
structure Element.View where
  tag : String
  id : Option String
  classes : List String
  attributes : List Attribute
deriving DecidableEq

inductive NodeKind.View where
  | document
  | element (e : Element.View)
  | text
  | comment
deriving DecidableEq

structure Node.View where
  kind : NodeKind.View
  parent : Option NodeId
  children : Array NodeId
  next : Option NodeId
  prev : Option NodeId
deriving DecidableEq

/-- The tag and the names that are admitted, in order. -/
def Element.view (s : Settings) (e : Element) : Element.View where
  tag := e.tag
  id := e.id?.filter s.acceptsId
  classes := e.classes.filter s.acceptsClass
  attributes := e.attrs.entries.filter fun a => s.acceptsAttribute a.name a.value

/-- The kind, without what a text or a comment says. -/
def NodeKind.view (s : Settings) : NodeKind → NodeKind.View
  | .document => .document
  | .element e => .element (e.view s)
  | .text _ => .text
  | .comment _ => .comment

def Node.view (s : Settings) (n : Node) : Node.View where
  kind := n.kind.view s
  parent := n.parent
  children := n.children
  next := n.next
  prev := n.prev

/-- What the settings let a search see of a document. -/
def Document.view (s : Settings) (t : Document) : Array Node.View := t.nodes.map (Node.view s)

/-! ## 2. Elements -/

namespace Element

variable {s : Settings} {e e' : Element}

theorem attributeCandidates_eq (s : Settings) (e : Element) :
    e.attributeCandidates s = (e.view s).attributes.filterMap (attributeCandidate? s) := by
  rw [view, List.filterMap_filter, attributeCandidates]
  refine congrArg (List.filterMap · e.attrs.entries) (funext fun a => ?_)
  cases h : s.acceptsAttribute a.name a.value <;> simp [attributeCandidate?, h]

theorem classCandidates_eq (s : Settings) (e : Element) :
    e.classCandidates s = (e.view s).classes.filterMap (classCandidate? s) := by
  rw [view, List.filterMap_filter, classCandidates]
  refine congrArg (List.filterMap · e.classes) (funext fun name => ?_)
  cases h : s.acceptsClass name <;> simp [classCandidate?, h]

/-- The candidates of an element are those of what can be seen of it. -/
theorem candidates_congr (h : e.view s = e'.view s) : e.candidates s = e'.candidates s := by
  have hid : e.idCandidate? s = e'.idCandidate? s := by
    rw [idCandidate?, idCandidate?, show e.id?.filter s.acceptsId =
      e'.id?.filter s.acceptsId from congrArg View.id h]
  have htag : e.tagCandidate? s = e'.tagCandidate? s := by
    rw [tagCandidate?, tagCandidate?, show e.tag = e'.tag from congrArg View.tag h]
  rw [candidates, candidates, hid, htag, attributeCandidates_eq, attributeCandidates_eq,
    classCandidates_eq, classCandidates_eq, h]

end Element

/-! ## 3. Documents -/

namespace Document

variable {s : Settings} {t t' : Document} (h : t.view s = t'.view s)

theorem getElem?_view (s : Settings) (t : Document) (id : NodeId) :
    (t.view s)[id]? = (t.get? id).map (Node.view s) :=
  Array.getElem?_map

include h

theorem size_congr : t.size = t'.size := by
  have hsize := congrArg Array.size h
  rwa [view, view, Array.size_map, Array.size_map] at hsize

theorem get?_congr (id : NodeId) :
    (t.get? id).map (Node.view s) = (t'.get? id).map (Node.view s) := by
  rw [← getElem?_view, ← getElem?_view, h]

/-- Whatever is read off what can be seen of a node is the same in both documents. -/
theorem bind_get?_congr {f : Node → Option β} {g : Node.View → Option β}
    (hg : ∀ n, f n = g (n.view s)) (id : NodeId) : (t.get? id).bind f = (t'.get? id).bind f := by
  have hview : ∀ t : Document, (t.get? id).bind f = ((t.get? id).map (Node.view s)).bind g := by
    intro t
    rw [Option.bind_map]
    congr
    funext n
    exact hg n
  rw [hview t, hview t', get?_congr h]

theorem parent_congr : t.parent = t'.parent :=
  funext (bind_get?_congr h (g := Node.View.parent) fun _ => rfl)

theorem prev_congr : t.prev = t'.prev :=
  funext (bind_get?_congr h (g := Node.View.prev) fun _ => rfl)

theorem children_congr : t.children = t'.children := by
  funext id
  have hview : ∀ t : Document,
      t.children id = (((t.get? id).map (Node.view s)).map fun n => n.children.toList).getD [] := by
    intro t
    rw [Option.map_map]
    rfl
  rw [hview t, hview t', get?_congr h]

theorem element?_congr (id : NodeId) :
    (t.element? id).map (Element.view s) = (t'.element? id).map (Element.view s) := by
  rw [element?, element?, Option.map_bind, Option.map_bind]
  apply bind_get?_congr h (g := fun n => match n.kind with
    | .element e => some e
    | _ => none)
  intro n
  rw [Node.view]
  cases h : n.kind <;> simp [NodeKind.view, h]

/-- In both documents there is no element at a place, or there are two that look the same. -/
theorem element?_cases (id : NodeId) :
    t.element? id = none ∧ t'.element? id = none ∨
      ∃ e e', t.element? id = some e ∧ t'.element? id = some e' ∧ e.view s = e'.view s := by
  have helement := element?_congr h id
  cases he : t.element? id with
  | none =>
    rw [he] at helement
    exact .inl ⟨rfl, Option.map_eq_none_iff.1 helement.symm⟩
  | some e =>
    rw [he] at helement
    obtain ⟨e', he', heq⟩ := Option.map_eq_some_iff.1 helement.symm
    exact .inr ⟨e, e', rfl, he', heq.symm⟩

/-- Whatever is told from what can be seen of an element is the same in both documents. -/
theorem map_element?_congr {f : Element → β}
    (hf : ∀ e e' : Element, e.view s = e'.view s → f e = f e') (id : NodeId) :
    (t.element? id).map f = (t'.element? id).map f := by
  rcases element?_cases h id with ⟨he, he'⟩ | ⟨e, e', he, he', heq⟩
  · rw [he, he']
  · rw [he, he']
    exact congrArg some (hf e e' heq)

theorem isElement_congr : t.isElement = t'.isElement := by
  funext id
  have hsome := congrArg Option.isSome (element?_congr h id)
  rwa [Option.isSome_map, Option.isSome_map] at hsome

theorem parentElement_congr : t.parentElement = t'.parentElement := by
  funext id
  rw [parentElement, parentElement, parent_congr h, isElement_congr h]

theorem elementChildren_congr : t.elementChildren = t'.elementChildren := by
  funext id
  rw [elementChildren, elementChildren, children_congr h, isElement_congr h]

theorem elementIndex_congr : t.elementIndex = t'.elementIndex := by
  funext id
  rw [elementIndex, elementIndex, precedingSiblings, precedingSiblings, parent_congr h,
    prev_congr h, size_congr h, isElement_congr h]

theorem isDescendantOf_congr (id ancestor : NodeId) :
    t.isDescendantOf id ancestor = t'.isDescendantOf id ancestor := by
  rw [isDescendantOf, isDescendantOf, ancestors, ancestors, parent_congr h, size_congr h]

theorem defaultRoot_congr : t.defaultRoot = t'.defaultRoot := by
  have hhtml : t.documentElement = t'.documentElement := by
    rw [documentElement, documentElement, elementChildren_congr h]
  have hbody : t.body = t'.body := by
    rw [body, body, hhtml, elementChildren_congr h]
    congr
    funext html
    congr
    funext id
    rw [map_element?_congr h
      fun e e' heq => by rw [show e.tag = e'.tag from congrArg Element.View.tag heq]]
  rw [defaultRoot, defaultRoot, hhtml, hbody]

theorem ground_congr : s.ground t = s.ground t' := by
  rw [Settings.ground, Settings.ground, defaultRoot_congr h]

end Document

/-! ## 4. Quests -/

namespace Quest

/-- The same search in another document. -/
def movedTo (q : Quest) (t : Document) : Quest := { q with document := t }

variable {q : Quest} {t t' : Document} {s : Settings}

theorem aim_congr (h : t.view s = t'.view s) (target : NodeId) :
    aim t' s target = (aim t s target).movedTo t' := by
  rw [aim, aim, movedTo, Settings.queryScope, Settings.queryScope, Document.ground_congr h,
    Document.parentElement_congr h]

theorem levelsAlong_congr (h : q.document.view q.settings = t.view q.settings) (mode : Breadth)
    (distance : Nat) (ids : List NodeId) :
    (q.movedTo t).levelsAlong mode distance ids = q.levelsAlong mode distance ids := by
  induction ids generalizing distance with
  | nil => rfl
  | cons id ids ih =>
    rw [levelsAlong, levelsAlong, ih]
    rcases Document.element?_cases h id with ⟨he, he'⟩ | ⟨e, e', he, he', heq⟩
    · rw [show (q.movedTo t).document.element? id = none from he', he]
    · have hbuild : Level.build e' (t.elementIndex id) mode distance q.settings =
          Level.build e (q.document.elementIndex id) mode distance q.settings := by
        rw [Level.build, Level.build, Element.candidates_congr heq, Document.elementIndex_congr h]
      rw [show (q.movedTo t).document.element? id = some e' from he', he]
      exact congrArg (· :: q.levelsAlong mode (distance + 1) ids) hbuild

theorem levels_congr (h : q.document.view q.settings = t.view q.settings) (mode : Breadth) :
    (q.movedTo t).levels mode = q.levels mode := by
  have hway : (q.movedTo t).way = q.way := by
    rw [way, way, movedTo, Document.parentElement_congr h, Document.size_congr h]
  rw [levels, levels, hway, levelsAlong_congr h]

/-! Beside its levels, a search does not look at the document. -/

theorem firstUnique_movedTo (q : Quest) (t : Document) :
    (q.movedTo t).firstUnique = q.firstUnique := by
  funext paths
  induction paths with
  | nil => rfl
  | cons path paths ih =>
    rw [firstUnique, firstUnique, ih]
    rfl

theorem search_movedTo (q : Quest) (t : Document) : (q.movedTo t).search = q.search := by
  funext stack
  rw [search, search, firstUnique_movedTo]
  rfl

theorem climbFrom_movedTo (q : Quest) (t : Document) (mode : Breadth) (levels stack : List Level)
    (searched : Bool) :
    (q.movedTo t).climbFrom mode levels stack searched =
      q.climbFrom mode levels stack searched := by
  induction levels generalizing stack searched with
  | nil => rw [climbFrom, climbFrom, search_movedTo]
  | cons level levels ih =>
    rw [climbFrom, climbFrom, search_movedTo, ih, ih]
    rfl

theorem leaveOut_movedTo (q : Quest) (t : Document) : (q.movedTo t).leaveOut = q.leaveOut := by
  funext deeper path count i s
  induction count generalizing i s with
  | zero => rfl
  | succ count ih =>
    rw [leaveOut, leaveOut]
    simp only [ih]
    rfl

theorem shortenWithin_movedTo (q : Quest) (t : Document) :
    (q.movedTo t).shortenWithin = q.shortenWithin := by
  funext depth
  induction depth with
  | zero => rfl
  | succ depth ih =>
    funext path s
    rw [shortenWithin, shortenWithin, leaveOut_movedTo, ih]
    rfl

theorem bestVariant_movedTo (q : Quest) (t : Document) :
    (q.movedTo t).bestVariant = q.bestVariant := by
  funext path
  rw [bestVariant, bestVariant, shorten, shorten, shortenWithin_movedTo]

section congr

variable (h : q.document.view q.settings = t.view q.settings)
include h

theorem climb_congr (mode : Breadth) : (q.movedTo t).climb mode = q.climb mode := by
  rw [climb, climb, levels_congr h, climbFrom_movedTo]
  rfl

theorem climbInTurn_congr (modes : List Breadth) :
    (q.movedTo t).climbInTurn modes = q.climbInTurn modes := by
  induction modes with
  | nil => rfl
  | cons mode modes ih => rw [climbInTurn, climbInTurn, climb_congr h, ih]

theorem selector_congr : (q.movedTo t).selector = q.selector := by
  rw [selector, selector, uniquePath, uniquePath, climbInTurn_congr h, bestVariant_movedTo]

end congr

end Quest

/-! ## 5. Searches -/

/-- Two documents that look the same are searched in the same way. -/
theorem findSelector_congr {s : Settings} {t t' : Document} (h : t.view s = t'.view s)
    (target : NodeId) :
    findSelector t s target = findSelector t' s target := by
  have hselector : (Quest.aim t' s target).selector = (Quest.aim t s target).selector := by
    rw [Quest.aim_congr h, Quest.selector_congr h]
  have hscope : (Quest.aim t' s target).scope = (Quest.aim t s target).scope := by
    rw [Quest.aim_congr h, Quest.movedTo]
  rw [findSelector, findSelector]
  rcases Document.element?_cases h target with ⟨he, he'⟩ | ⟨e, e', he, he', heq⟩
  · rw [he, he']
  · have htag : e.tag = e'.tag := congrArg Element.View.tag heq
    rw [he, he']
    dsimp only
    rw [htag, hselector, hscope, Document.isDescendantOf_congr h]

/-- **Names that are not admitted do not matter.** If two documents differ only in ids, classes and
attributes that the settings reject, or in what is said, the same is asked for in both, and it comes
to the same result. -/
theorem findSelector_discreet {s : Settings} {t t' : Document} (h : t.view s = t'.view s)
    (target : NodeId) (p : Provider σ) (state : σ) :
    (findSelector t s target).outcome p state = (findSelector t' s target).outcome p state := by
  rw [findSelector_congr h]

/-- A paragraph with a class, and the same with an id, another class and a title that make
no difference. -/
theorem findSelector_discreet_paragraph :
    let t := Markup.parse "<p class=x></p>"
    let t' := Markup.parse "<p id=a class='y x' title=b></p>"
    let s : Settings := { acceptsId := fun _ => false, acceptsClass := fun name => name == "x" }
    t ≠ t' ∧ t.view s = t'.view s ∧
      (findSelector t s 3).outcome (Provider.scripted t) [.found [2, 3]] =
        (findSelector t' s 3).outcome (Provider.scripted t) [.found [2, 3]] := by
  intro t t' s
  have hview : t.view s = t'.view s := by decide +kernel
  refine ⟨?_, hview, findSelector_discreet hview 3 (Provider.scripted t) [.found [2, 3]]⟩
  decide +kernel

end UniqueSelector
