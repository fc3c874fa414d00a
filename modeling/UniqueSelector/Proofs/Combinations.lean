import UniqueSelector.Synthesis.Climb
import Mathlib.Data.List.Forall2

/-!
# Combinations — what the odometer points at

Every place of the odometer points into each level, so a combination takes one candidate from each
level. On the levels along a way the candidates of a combination stand one level above the other.
-/

namespace UniqueSelector

/-! ## 1. Places of the odometer -/

namespace Odometer

/-- Each index points into its level. -/
def Valid (stack : List Level) (indices : List Nat) : Prop :=
  List.Forall₂ (fun level i => i < level.length) stack indices

/-- The row begins with all indices at zero, unless some level is empty. -/
theorem start_eq (stack : List Level) :
    start stack = ⟨stack, if [] ∈ stack then none else some (stack.map fun _ => 0)⟩ := by
  have hall : stack.all (!·.isEmpty) = true ↔ ¬[] ∈ stack := by
    rw [List.all_eq_true]
    constructor
    · exact fun hall hempty => absurd (hall [] hempty) (by decide)
    · intro hempty level hlevel
      rw [Bool.not_eq_true', List.isEmpty_eq_false_iff]
      exact fun hnil => hempty (hnil ▸ hlevel)
  rw [start]
  by_cases hempty : [] ∈ stack
  · rw [if_neg fun h => hall.1 h hempty, if_pos hempty]
  · rw [if_pos (hall.2 hempty), if_neg hempty]

/-- The indices before the first turn point into the levels if no level is empty. -/
theorem valid_zeros {stack : List Level} (h : ∀ level ∈ stack, level ≠ []) :
    Valid stack (stack.map fun _ => 0) := by
  induction stack with
  | nil => exact .nil
  | cons level stack ih =>
    exact .cons (List.length_pos_of_ne_nil (h level (.head stack)))
      (ih fun l hl => h l (.tail _ hl))

theorem Valid.reset {stack : List Level} {indices : List Nat} (h : Valid stack indices) :
    Valid stack (indices.map fun _ => 0) := by
  induction h with
  | nil => exact .nil
  | cons hi _ ih => exact .cons (Nat.zero_lt_of_lt hi) ih

/-- A turn leads from indices into the levels to indices into the levels. -/
theorem Valid.advance {stack : List Level} {indices next : List Nat} (h : Valid stack indices)
    (hnext : advance stack indices = some next) : Valid stack next := by
  induction h generalizing next with
  | nil => cases hnext
  | @cons level i stack indices hi hrest ih =>
    rw [Odometer.advance] at hnext
    cases hinner : Odometer.advance stack indices with
    | some inner =>
      rw [hinner] at hnext
      cases hnext
      exact .cons hi (ih hinner)
    | none =>
      -- The inner wheels are through: they begin again, and this one turns by one if it can.
      rw [hinner] at hnext
      dsimp only at hnext
      split at hnext
      · next hturn =>
        cases hnext
        exact .cons hturn (Valid.reset hrest)
      · cases hnext

theorem select_cons {level : Level} {stack : List Level} {i : Nat} {indices : List Nat}
    (hi : i < level.length) :
    select (level :: stack) (i :: indices) = level[i] :: select stack indices := by
  simp [select, hi]

/-- Valid indices select one candidate from each level. -/
theorem Valid.select {stack : List Level} {indices : List Nat} (h : Valid stack indices) :
    List.Forall₂ (fun c level => c ∈ level) (select stack indices) stack := by
  induction h with
  | nil => exact .nil
  | @cons level i stack indices hi hrest ih =>
    rw [select_cons hi]
    exact .cons (List.getElem_mem hi) ih

/-- Every path that is collected takes one candidate from each level. -/
theorem mem_collect {n : Nat} {o : Odometer} (ho : ∀ is ∈ o.indices, Valid o.stack is)
    {paths : Array Path} {path : Path} (h : path ∈ (collect n o paths).1) :
    path ∈ paths ∨ List.Forall₂ (fun c level => c ∈ level) path o.stack := by
  induction n generalizing o paths with
  | zero => exact .inl h
  | succ n ih =>
    rw [collect, next?] at h
    cases hindices : o.indices with
    | none =>
      rw [hindices] at h
      exact .inl h
    | some is =>
      rw [hindices] at h
      have hvalid := ho is hindices
      have hnext : ∀ js ∈ Odometer.advance o.stack is, Valid o.stack js :=
        fun js hjs => hvalid.advance hjs
      rcases ih (o := { o with indices := Odometer.advance o.stack is }) hnext h with hpath | hpath
      · rcases Array.mem_push.1 hpath with hpath | rfl
        · exact .inl hpath
        · exact .inr hvalid.select
      · exact .inr hpath

end Odometer

/-- **A combination takes one candidate from each level.** -/
theorem forall₂_of_mem_combinations {stack : List Level} {path : Path}
    (h : path ∈ combinations stack) :
    List.Forall₂ (fun c level => c ∈ level) path stack := by
  -- The first indices are there only if no level is empty.
  have hstart : ∀ is ∈ (Odometer.start stack).indices, Odometer.Valid stack is := by
    intro is his
    rw [Odometer.start_eq] at his
    dsimp only at his
    split at his
    · cases his
    · next hempty =>
      cases his
      exact Odometer.valid_zeros fun level hlevel hnil => hempty (hnil ▸ hlevel)
  rw [combinations, Odometer.run, Array.mem_toList_iff] at h
  exact (Odometer.mem_collect hstart h).resolve_left (by simp)

/-! ## 2. The levels along a way -/

namespace Quest

variable {q : Quest}

/-- If all of `ids` are elements, each contributes its own level. -/
theorem getElem?_levelsAlong (mode : Breadth) {ids : List NodeId}
    (h : ∀ id ∈ ids, q.document.isElement id = true) (distance l : Nat) :
    (q.levelsAlong mode distance ids)[l]? = ids[l]?.bind fun id =>
      (q.document.element? id).map fun e =>
        Level.build e (q.document.elementIndex id) mode (distance + l) q.settings := by
  induction ids generalizing distance l with
  | nil => rfl
  | cons id ids ih =>
    obtain ⟨e, he⟩ := Option.isSome_iff_exists.1 (h id (.head _))
    rw [levelsAlong, he]
    cases l with
    | zero => rw [List.getElem?_cons_zero, List.getElem?_cons_zero, Option.bind_some, he]; rfl
    | succ l =>
      rw [List.getElem?_cons_succ, List.getElem?_cons_succ,
        ih (fun other hother => h other (.tail _ hother)), Nat.add_right_comm, Nat.add_assoc]

theorem length_levelsAlong (mode : Breadth) {ids : List NodeId}
    (h : ∀ id ∈ ids, q.document.isElement id = true) (distance : Nat) :
    (q.levelsAlong mode distance ids).length = ids.length := by
  induction ids generalizing distance with
  | nil => rfl
  | cons id ids ih =>
    obtain ⟨e, he⟩ := Option.isSome_iff_exists.1 (h id (.head _))
    rw [levelsAlong, he]
    exact congrArg (· + 1) (ih (fun other hother => h other (.tail _ hother)) (distance + 1))

/-- A level is that of some element. -/
theorem exists_of_mem_levelsAlong {mode : Breadth} {distance : Nat} {ids : List NodeId}
    {level : Level} (h : level ∈ q.levelsAlong mode distance ids) :
    ∃ e index d, level = Level.build e index mode d q.settings := by
  induction ids generalizing distance with
  | nil => cases h
  | cons id ids ih =>
    rw [levelsAlong] at h
    cases he : q.document.element? id with
    | none =>
      rw [he] at h
      cases h
    | some e =>
      rw [he] at h
      rcases List.mem_cons.1 h with rfl | h
      · exact ⟨e, _, distance, rfl⟩
      · exact ih h

theorem exists_of_mem_levels {mode : Breadth} {level : Level} (h : level ∈ q.levels mode) :
    ∃ e index d, level = Level.build e index mode d q.settings :=
  exists_of_mem_levelsAlong h

theorem getElem?_levels {mode : Breadth} (h : ∀ id ∈ q.way, q.document.isElement id = true)
    {l : Nat} {level : Level} (hlevel : (q.levels mode)[l]? = some level) :
    ∃ id e, q.way[l]? = some id ∧ q.document.element? id = some e ∧
      level = Level.build e (q.document.elementIndex id) mode l q.settings := by
  rw [levels, getElem?_levelsAlong mode h, Nat.zero_add] at hlevel
  obtain ⟨id, hid, hbuild⟩ := Option.bind_eq_some_iff.1 hlevel
  obtain ⟨e, he, rfl⟩ := Option.map_eq_some_iff.1 hbuild
  exact ⟨id, e, hid, he, rfl⟩

end Quest

end UniqueSelector
