import UniqueSelector.Proofs.Nesting
import UniqueSelector.Proofs.TreeOrder

/-!
# Forests — nodes side by side, with what is inside of them

A forest says what nodes hold and how they are nested, and nothing of numbers and links. Planted
below a node of a document, it gets numbers in the order in which it is written down; the document
then holds the forest at these numbers, and nothing else has changed but the children of that node.
-/

namespace UniqueSelector

/-! ## 1. Forests and documents -/

/-- A node with nothing inside of it. -/
inductive Leaf where
  | text (data : String)
  | comment (data : String)
deriving DecidableEq

def Leaf.kind : Leaf → NodeKind
  | text data => .text data
  | comment data => .comment data

/-- The first node with what is inside of it, and the nodes behind it. Whether the start tag of an
element closes itself is kept because it is written, though it means nothing. -/
inductive Forest where
  | nil
  | element (e : Element) (selfClosing : Bool) (content rest : Forest)
  | leaf (l : Leaf) (rest : Forest)
deriving DecidableEq

namespace Forest

/-- How many nodes there are. -/
def size : Forest → Nat
  | nil => 0
  | element _ _ content rest => content.size + 1 + rest.size
  | leaf _ rest => 1 + rest.size

/-- The places of the outermost nodes if all nodes are numbered from `n` on, each before what is
inside of it. -/
def places (n : NodeId) : Forest → List NodeId
  | nil => []
  | element _ _ content rest => n :: rest.places (n + (content.size + 1))
  | leaf _ rest => n :: rest.places (n + 1)

end Forest

namespace Document

def kind? (t : Document) (id : NodeId) : Option NodeKind := (t.get? id).map Node.kind

/-- The nodes at the places are those of the forest, one after another, and so is what is inside
of them. -/
def Holds (t : Document) : List NodeId → Forest → Prop
  | [], .nil => True
  | id :: ids, .element e _ content rest =>
    t.kind? id = some (.element e) ∧ t.Holds (t.children id) content ∧ t.Holds ids rest
  | id :: ids, .leaf l rest => t.kind? id = some l.kind ∧ t.children id = [] ∧ t.Holds ids rest
  | _, _ => False

/-- Puts a forest below a node, behind what is there already. -/
def plant (t : Document) (p : NodeId) : Forest → Document
  | .nil => t
  | .element e _ content rest => ((t.add p (.element e)).1.plant t.size content).plant p rest
  | .leaf l rest => (t.add p l.kind).1.plant p rest

/-! ## 2. What planting changes -/

theorem kind?_add (t : Document) (p : NodeId) (kind : NodeKind) (id : NodeId) :
    (t.add p kind).1.kind? id = if id = t.size then some kind else t.kind? id := by
  show (((t.alloc kind).1.append p t.size).get? id).map Node.kind = _
  rw [kind_append, get?_alloc]
  split <;> rfl

theorem element?_congr_kind {t t' : Document} {id : NodeId} (h : t'.kind? id = t.kind? id) :
    t'.element? id = t.element? id := by
  rw [element?_eq, element?_eq]
  exact congrArg (fun kind => kind.bind NodeKind.element?) h

section size

variable {t : Document} {id : Nat}

theorem lt_size_add (p : NodeId) (kind : NodeKind) (h : id < t.size) :
    id < (t.add p kind).1.size := by
  rw [size_add]
  omega

theorem size_lt_size_add (t : Document) (p : NodeId) (kind : NodeKind) :
    t.size < (t.add p kind).1.size := by
  rw [size_add]
  omega

theorem size_plant (F : Forest) (t : Document) (p : NodeId) :
    (t.plant p F).size = t.size + F.size := by
  induction F generalizing t p with
  | nil => rfl
  | element e flag content rest ihContent ihRest =>
    rw [plant, ihRest, ihContent, size_add, Forest.size]
    omega
  | leaf l rest ih =>
    rw [plant, ih, size_add, Forest.size]
    omega

theorem lt_size_plant (F : Forest) (p : NodeId) (h : id < t.size) : id < (t.plant p F).size := by
  rw [size_plant]
  omega

end size

/-- What is there already stays what it is. -/
theorem kind?_plant (F : Forest) {t : Document} (p : NodeId) {id : NodeId} (hid : id < t.size) :
    (t.plant p F).kind? id = t.kind? id := by
  induction F generalizing t p with
  | nil => rfl
  | element e flag content rest ihContent ihRest =>
    have hadd := lt_size_add p (.element e) hid
    rw [plant, ihRest p (lt_size_plant content t.size hadd), ihContent t.size hadd, kind?_add,
      if_neg (Nat.ne_of_lt hid)]
  | leaf l rest ih =>
    rw [plant, ih p (lt_size_add p l.kind hid), kind?_add, if_neg (Nat.ne_of_lt hid)]

/-- The outermost nodes of the forest come last among the children of the node, and no other node
gets a child. -/
theorem children_plant (F : Forest) {t : Document} {p : NodeId} (hp : p < t.size) {id : NodeId}
    (hid : id < t.size) :
    (t.plant p F).children id = if id = p then t.children p ++ F.places t.size
      else t.children id := by
  induction F generalizing t p id with
  | nil =>
    rw [plant, Forest.places, List.append_nil]
    split
    · next h => rw [h]
    · rfl
  | element e flag content rest ihContent ihRest =>
    -- What is inside of the new element goes below that, not below what was there.
    have hold : ∀ {x}, x < t.size → ((t.add p (.element e)).1.plant t.size content).children x =
        (t.add p (.element e)).1.children x := fun hx => by
      rw [ihContent (size_lt_size_add t p _) (lt_size_add p _ hx), if_neg (Nat.ne_of_lt hx)]
    have hfull : ∀ {x}, x < t.size →
        x < ((t.add p (.element e)).1.plant t.size content).size := fun hx =>
      lt_size_plant content t.size (lt_size_add p _ hx)
    rw [plant, ihRest (hfull hp) (hfull hid), hold hp, hold hid, children_add hp, children_add hp,
      if_pos rfl, size_plant, size_add, Forest.places, List.append_assoc, Nat.add_assoc t.size 1,
      Nat.add_comm 1]
    split <;> rfl
  | leaf l rest ih =>
    rw [plant, ih (lt_size_add p _ hp) (lt_size_add p _ hid), children_add hp, children_add hp,
      if_pos rfl, size_add, Forest.places, List.append_assoc]
    split <;> rfl

/-! ## 3. Forests with their numbers -/

/-- The nodes from `n` on are those of the forest, each in front of what is inside of it. -/
def Stands (t : Document) : NodeId → Forest → Prop
  | _, .nil => True
  | n, .element e _ content rest =>
    t.kind? n = some (.element e) ∧ t.children n = content.places (n + 1) ∧
      t.Stands (n + 1) content ∧ t.Stands (n + (content.size + 1)) rest
  | n, .leaf l rest => t.kind? n = some l.kind ∧ t.children n = [] ∧ t.Stands (n + 1) rest

/-- Nothing counts but the nodes of the forest. -/
theorem Stands.congr {t t' : Document} {F : Forest} {n : Nat} (h : t.Stands n F)
    (hsame : ∀ id : Nat, n ≤ id → id < n + F.size → t'.kind? id = t.kind? id ∧
      t'.children id = t.children id) :
    t'.Stands n F := by
  induction F generalizing n with
  | nil => trivial
  | element e flag content rest ihContent ihRest =>
    obtain ⟨hkind, hchildren, hcontent, hrest⟩ := h
    rw [Forest.size] at hsame
    obtain ⟨hkind', hchildren'⟩ := hsame n (Nat.le_refl n) (by omega)
    refine ⟨hkind'.trans hkind, hchildren'.trans hchildren, ?_, ?_⟩
    · exact ihContent hcontent fun id hle hlt => hsame id (by omega) (by omega)
    · exact ihRest hrest fun id hle hlt => hsame id (by omega) (by omega)
  | leaf l rest ih =>
    obtain ⟨hkind, hchildren, hrest⟩ := h
    rw [Forest.size] at hsame
    obtain ⟨hkind', hchildren'⟩ := hsame n (Nat.le_refl n) (by omega)
    exact ⟨hkind'.trans hkind, hchildren'.trans hchildren,
      ih hrest fun id hle hlt => hsame id (by omega) (by omega)⟩

/-- **What is planted stands behind everything else.** -/
theorem stands_plant (F : Forest) {t : Document} {p : NodeId} (hp : p < t.size) :
    (t.plant p F).Stands t.size F := by
  induction F generalizing t p with
  | nil => trivial
  | element e flag content rest ihContent ihRest =>
    have hnew := size_lt_size_add t p (.element e)
    have hnew' := lt_size_plant content t.size hnew
    have hp' : p < ((t.add p (.element e)).1.plant t.size content).size :=
      lt_size_plant content t.size (lt_size_add p _ hp)
    have hcontent := ihContent hnew
    have hrest := ihRest hp'
    rw [size_plant, size_add, Nat.add_assoc, Nat.add_comm 1] at hrest
    rw [size_add] at hcontent
    refine ⟨?_, ?_, hcontent.congr fun id hle hlt => ?_, hrest⟩
    · rw [plant, kind?_plant rest p hnew', kind?_plant content t.size hnew, kind?_add, if_pos rfl]
    · rw [plant, children_plant rest hp' hnew', if_neg (Nat.ne_of_gt hp),
        children_plant content hnew hnew, if_pos rfl, children_add hp, if_neg (Nat.ne_of_gt hp),
        children_eq_nil (Nat.le_refl _), size_add]
      rfl
    · -- The rest goes below a node that was there before.
      have hid : id < ((t.add p (.element e)).1.plant t.size content).size := by
        rw [size_plant, size_add]
        exact hlt
      rw [plant, children_plant rest hp' hid,
        if_neg (Nat.ne_of_gt (Nat.lt_of_lt_of_le hp (Nat.le_of_succ_le hle)))]
      exact ⟨kind?_plant rest p hid, rfl⟩
  | leaf l rest ih =>
    have hnew := size_lt_size_add t p l.kind
    have hp' := lt_size_add p l.kind hp
    have hrest := ih hp'
    rw [size_add] at hrest
    refine ⟨?_, ?_, hrest⟩
    · rw [plant, kind?_plant rest p hnew, kind?_add, if_pos rfl]
    · rw [plant, children_plant rest hp' hnew, if_neg (Nat.ne_of_gt hp), children_add hp,
        if_neg (Nat.ne_of_gt hp), children_eq_nil (Nat.le_refl _)]

theorem Stands.holds {t : Document} {F : Forest} {n : NodeId} (h : t.Stands n F) :
    t.Holds (F.places n) F := by
  induction F generalizing n with
  | nil => trivial
  | element e flag content rest ihContent ihRest =>
    obtain ⟨hkind, hchildren, hcontent, hrest⟩ := h
    exact ⟨hkind, hchildren ▸ ihContent hcontent, ihRest hrest⟩
  | leaf l rest ih =>
    obtain ⟨hkind, hchildren, hrest⟩ := h
    exact ⟨hkind, hchildren, ih hrest⟩

/-- In tree order the nodes of the forest have one number after another. -/
theorem Stands.descendants {t : Document} (hwell : t.WellFormed) {F : Forest} {n : NodeId}
    (h : t.Stands n F) :
    ((F.places n).flatMap fun id => id :: t.descendants id) = List.range' n F.size := by
  induction F generalizing n with
  | nil => rfl
  | element e flag content rest ihContent ihRest =>
    obtain ⟨-, hchildren, hcontent, hrest⟩ := h
    rw [Forest.places, List.flatMap_cons, ihRest hrest, hwell.descendants_eq, hchildren,
      ihContent hcontent, ← List.range'_succ, List.range'_append_1, Forest.size]
  | leaf l rest ih =>
    obtain ⟨-, hchildren, hrest⟩ := h
    rw [Forest.places, List.flatMap_cons, ih hrest, hwell.descendants_eq, hchildren, Forest.size,
      Nat.add_comm 1, List.range'_succ]
    rfl

end Document

end UniqueSelector
