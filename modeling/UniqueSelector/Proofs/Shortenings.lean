import UniqueSelector.Proofs.Variants

/-!
# Shortenings — what the shortening of a path has found when it ends

A row of tries goes through the candidates of a path from the inside outward. It ends early where a
selector comes up that was met before, and then some step onward from the path is known at least. So
each variant that is found, as long as there were tries left, has a step onward among those that are
found, or it has none at all. In the first row no selector comes up twice, and each step from the
whole path is found.
-/

namespace UniqueSelector

/-! ## 1. States -/

namespace Shortening

variable {s : Shortening}

/-- One more try. -/
def tried (s : Shortening) : Shortening := { s with attempts := s.attempts + 1 }

/-- One more variant. -/
def kept (s : Shortening) (path : Path) : Shortening :=
  { s with visited := path.render :: s.visited, found := s.found.push path }

/-- A variant with the text of the path was found. -/
def Knows (s : Shortening) (path : Path) : Prop :=
  ∃ known ∈ s.found.toList, known.render = path.render

/-- Each selector that was met is that of a variant. -/
def Recorded (s : Shortening) : Prop := ∀ path : Path, path.render ∈ s.visited → s.Knows path

theorem mem_found_kept {path known : Path} :
    known ∈ (s.kept path).found.toList ↔ known ∈ s.found.toList ∨ known = path := by
  rw [kept, Array.toList_push, List.mem_append, List.mem_singleton]

theorem Knows.mono {s' : Shortening} {path : Path} (h : s.Knows path)
    (hfound : s.found.toList ⊆ s'.found.toList) :
    s'.Knows path := by
  obtain ⟨known, hknown, hrender⟩ := h
  exact ⟨known, hfound hknown, hrender⟩

theorem recorded_start : Recorded {} := fun _ h => by cases h

theorem Recorded.tried (h : s.Recorded) : s.tried.Recorded := h

theorem Recorded.kept (h : s.Recorded) (path : Path) : (s.kept path).Recorded := by
  intro other hother
  rcases List.mem_cons.1 hother with hrender | hother
  · exact ⟨path, mem_found_kept.2 (.inr rfl), hrender.symm⟩
  · exact (h other hother).mono fun known hknown => mem_found_kept.2 (.inl hknown)

end Shortening

namespace Quest

open Document

variable {q : Quest} {path shorter : Path} {s s' : Shortening}

/-! ## 2. One try -/

theorem settle_accepts {b : Bool} (h : q.document.settle (q.accepts path) = .ok b) :
    b = true ↔ q.Accepted path := by
  obtain ⟨unique, hunique, h⟩ := settle_bind_eq_ok.1 h
  cases unique with
  | false =>
    cases h
    obtain ⟨x, y, ids, hids⟩ := settle_isUnique_false.1 hunique
    refine iff_of_false (by decide) fun haccepted => ?_
    rw [Accepted, hids] at haccepted
    cases haccepted
  | true =>
    obtain ⟨x, hx⟩ := settle_isUnique_true.1 hunique
    obtain ⟨first, hfirst, h⟩ := settle_bind_eq_ok.1 h
    rw [settle_one, queryOne_eq, hx] at hfirst
    cases hfirst
    cases h
    rw [Accepted, hx, beq_iff_eq]
    constructor
    · intro heq
      rw [Option.some.inj heq]
    · intro heq
      injection heq with heq
      injection heq with heq
      rw [heq, List.head?_cons]

/-- What one try in a row comes to, and what follows it. -/
inductive Turn (q : Quest) (deeper : Path → Shortening → Attempt Shortening) (path : Path)
    (count i : Nat) (s s' : Shortening) : Prop where
  | exhausted (htries : q.settings.maxTries ≤ s.attempts) (hend : s' = s)
  | known (hknown : Path.render (path.eraseIdx i) ∈ s.visited) (hend : s' = s.tried)
  | kept (haccepted : q.Accepted (path.eraseIdx i)) (middle : Shortening)
      (hdeeper : q.document.settle (deeper (path.eraseIdx i) (s.tried.kept (path.eraseIdx i))) =
      .ok middle) (hrest : q.document.settle (q.leaveOut deeper path count (i + 1) middle) = .ok s')
  | rejected (haccepted : ¬q.Accepted (path.eraseIdx i))
      (hrest : q.document.settle (q.leaveOut deeper path count (i + 1) s.tried) = .ok s')

theorem turn_of_settle_leaveOut {deeper : Path → Shortening → Attempt Shortening} {count i : Nat}
    (h : q.document.settle (q.leaveOut deeper path (count + 1) i s) = .ok s') :
    q.Turn deeper path count i s s' := by
  rw [leaveOut] at h
  split at h
  · next htries =>
    rw [settle_tell_bind] at h
    cases h
    exact .exhausted htries rfl
  · dsimp only at h
    split at h
    · next hknown =>
      cases h
      exact .known (List.contains_iff_mem.1 hknown) rfl
    · obtain ⟨b, hb, h⟩ := settle_bind_eq_ok.1 h
      have haccepted := settle_accepts hb
      cases b with
      | true =>
        rw [if_pos rfl, settle_tell_bind] at h
        obtain ⟨middle, hdeeper, hrest⟩ := settle_bind_eq_ok.1 h
        exact .kept (haccepted.1 rfl) middle hdeeper hrest
      | false =>
        rw [if_neg (by decide)] at h
        exact .rejected (fun h => by cases haccepted.2 h) h

/-! ## 3. Rows -/

/-- The path is shortened further. -/
def Long (q : Quest) (path : Path) : Prop :=
  2 < path.length ∧ q.settings.optimizedMinLength < path.length

/-- If any step from the path is accepted, then some step from it is known. -/
def WorkedOff (q : Quest) (s : Shortening) (path : Path) : Prop :=
  q.Long path → ∀ i, 1 ≤ i → i + 1 < path.length → q.Accepted (path.eraseIdx i) →
    ∃ j, 1 ≤ j ∧ j + 1 < path.length ∧ s.Knows (path.eraseIdx j)

/-- A stretch of the shortening that looked for variants of `path`. -/
structure Advances (q : Quest) (path : Path) (s s' : Shortening) : Prop where
  attempts : s.attempts ≤ s'.attempts
  found : s.found.toList ⊆ s'.found.toList
  recorded : s'.Recorded
  /-- What is new is a variant, and it is worked off if the tries were enough. -/
  fresh : ∀ known ∈ s'.found.toList, known ∈ s.found.toList ∨ q.Variant path known ∧
    known.length < path.length ∧
    (s'.attempts < q.settings.maxTries → q.WorkedOff s' known)

/-- How the row of `path` from `i` on comes to its end. -/
inductive RowEnd (q : Quest) (path : Path) (i : Nat) (s s' : Shortening) : Prop where
  | through (h : ∀ j, i ≤ j → j + 1 < path.length → q.Accepted (path.eraseIdx j) →
      path.eraseIdx j ∈ s'.found.toList)
  /-- The text of a step is known, and all that was found since are earlier steps and what is left
  of them. -/
  | known (j : Nat) (hfirst : i ≤ j) (hlast : j + 1 < path.length)
      (hknown : s'.Knows (path.eraseIdx j))
      (hfound : ∀ known ∈ s'.found.toList, known ∈ s.found.toList ∨
        known.length + 1 < path.length ∨ ∃ k, i ≤ k ∧ k < j ∧ known = path.eraseIdx k)

theorem WorkedOff.mono (h : q.WorkedOff s path) (hfound : s.found.toList ⊆ s'.found.toList) :
    q.WorkedOff s' path := by
  intro hlong i hfirst hlast haccepted
  obtain ⟨j, hfirst, hlast, hknown⟩ := h hlong i hfirst hlast haccepted
  exact ⟨j, hfirst, hlast, hknown.mono hfound⟩

theorem RowEnd.workedOff (h : q.RowEnd path 1 s s') : q.WorkedOff s' path := by
  intro _ i hfirst hlast haccepted
  cases h with
  | through h => exact ⟨i, hfirst, hlast, _, h i hfirst hlast haccepted, rfl⟩
  | known j hfirst hlast hknown => exact ⟨j, hfirst, hlast, hknown⟩

/-- A row that goes on from `i + 1` is a row from `i`, if the step at `i` was done before. -/
theorem RowEnd.back {middle : Shortening} {i : Nat} (hend : q.RowEnd path (i + 1) middle s')
    (hhere : q.Accepted (path.eraseIdx i) → path.eraseIdx i ∈ s'.found.toList)
    (hmiddle : ∀ known ∈ middle.found.toList,
      known ∈ s.found.toList ∨ known.length + 1 < path.length ∨ known = path.eraseIdx i) :
    q.RowEnd path i s s' := by
  cases hend with
  | through hthrough =>
    apply RowEnd.through
    intro j hj hlast haccepted
    rcases Nat.eq_or_lt_of_le hj with rfl | hlater
    · exact hhere haccepted
    · exact hthrough j hlater hlast haccepted
  | known j hj hlast hknown hfound =>
    apply RowEnd.known j (by omega) hlast hknown
    intro known hmem
    rcases hfound known hmem with hold | hshort | ⟨k, hk, hkj, rfl⟩
    · rcases hmiddle known hold with hold | hshort | rfl
      · exact .inl hold
      · exact .inr (.inl hshort)
      · exact .inr (.inr ⟨i, Nat.le_refl i, hj, rfl⟩)
    · exact .inr (.inl hshort)
    · exact .inr (.inr ⟨k, by omega, hkj, rfl⟩)

namespace Advances

theorem refl (path : Path) (hs : s.Recorded) : q.Advances path s s where
  attempts := Nat.le_refl _
  found := fun _ h => h
  recorded := hs
  fresh := fun _ h => .inl h

theorem tried (path : Path) (hs : s.Recorded) : q.Advances path s s.tried where
  attempts := Nat.le_succ _
  found := fun _ h => h
  recorded := hs
  fresh := fun _ h => .inl h

theorem trans {middle : Shortening} (h : q.Advances path s middle)
    (h' : q.Advances path middle s') :
    q.Advances path s s' where
  attempts := Nat.le_trans h.attempts h'.attempts
  found := fun _ hknown => h'.found (h.found hknown)
  recorded := h'.recorded
  fresh := by
    intro known hknown
    rcases h'.fresh known hknown with hmiddle | hnew
    · rcases h.fresh known hmiddle with hold | ⟨hvariant, hshorter, hworked⟩
      · exact .inl hold
      · refine .inr ⟨hvariant, hshorter, fun htries => ?_⟩
        exact (hworked (Nat.lt_of_le_of_lt h'.attempts htries)).mono h'.found
    · exact .inr hnew

/-- What is found below a step is found below the path, and so is the step. -/
theorem of_step (hstep : q.Variant path shorter) (hlength : shorter.length < path.length)
    (h : q.Advances shorter (s.tried.kept shorter) s')
    (hworked : s'.attempts < q.settings.maxTries → q.WorkedOff s' shorter) :
    q.Advances path s s' where
  attempts := Nat.le_trans (Nat.le_succ _) h.attempts
  found := fun _ hknown => h.found (Shortening.mem_found_kept.2 (.inl hknown))
  recorded := h.recorded
  fresh := by
    intro known hknown
    rcases h.fresh known hknown with hkept | ⟨hvariant, hshorter, hknown⟩
    · rcases Shortening.mem_found_kept.1 hkept with hold | rfl
      · exact .inl hold
      · exact .inr ⟨hstep, hlength, hworked⟩
    · exact .inr ⟨hvariant.of_pared hstep.toPared, Nat.lt_trans hshorter hlength, hknown⟩

end Advances

theorem variant_eraseIdx (hlong : q.Long path) {i : Nat} (hfirst : 1 ≤ i)
    (hlast : i + 1 < path.length) (haccepted : q.Accepted (path.eraseIdx i)) :
    q.Variant path (path.eraseIdx i) := by
  obtain ⟨htwo, hmin⟩ := hlong
  have hlength : (path.eraseIdx i).length = path.length - 1 := List.length_eraseIdx_of_lt (by omega)
  exact ⟨Path.pared_eraseIdx hfirst hlast, by omega, by omega, haccepted⟩

/-- **A row finds variants of its path**, and if the tries are enough, it ends with all its steps
done or at one whose text is known. -/
theorem settle_leaveOut {deeper : Path → Shortening → Attempt Shortening} (hlong : q.Long path)
    (hdeeper : ∀ {shorter : Path} {s s' : Shortening}, shorter.length + 1 = path.length →
      s.Recorded → q.document.settle (deeper shorter s) = .ok s' →
      q.Advances shorter s s' ∧ (s'.attempts < q.settings.maxTries → q.WorkedOff s' shorter))
    {count i : Nat} (hfirst : 1 ≤ i) (hcount : i + count + 1 = path.length) (hs : s.Recorded)
    (h : q.document.settle (q.leaveOut deeper path count i s) = .ok s') :
    q.Advances path s s' ∧ (s'.attempts < q.settings.maxTries → q.RowEnd path i s s') := by
  induction count generalizing i s with
  | zero =>
    cases h
    exact ⟨.refl path hs, fun _ => .through fun j hj hlast => by omega⟩
  | succ count ih =>
    have hlast : i + 1 < path.length := by omega
    have hlength : (path.eraseIdx i).length + 1 = path.length := by
      rw [List.length_eraseIdx_of_lt (by omega)]
      omega
    cases turn_of_settle_leaveOut h with
    | exhausted htries hend =>
      subst hend
      exact ⟨.refl path hs, fun hlt => absurd htries (Nat.not_le.2 hlt)⟩
    | known hknown hend =>
      subst hend
      exact ⟨.tried path hs,
        fun _ => .known i (Nat.le_refl i) hlast (hs _ hknown) fun known h => .inl h⟩
    | kept haccepted middle hdeep hrest =>
      obtain ⟨hbelow, hworked⟩ := hdeeper hlength (hs.tried.kept _) hdeep
      have hhere : q.Advances path s middle :=
        hbelow.of_step (variant_eraseIdx hlong hfirst hlast haccepted) (by omega) hworked
      obtain ⟨hahead, hend⟩ := ih (by omega) (by omega) hhere.recorded hrest
      refine ⟨hhere.trans hahead, fun htries => (hend htries).back ?_ ?_⟩
      · exact fun _ => hahead.found (hbelow.found (Shortening.mem_found_kept.2 (.inr rfl)))
      · intro known hmem
        rcases hbelow.fresh known hmem with hkept | ⟨-, hshorter, -⟩
        · exact (Shortening.mem_found_kept.1 hkept).imp_right .inr
        · exact .inr (.inl (by omega))
    | rejected haccepted hrest =>
      obtain ⟨hahead, hend⟩ := ih (by omega) (by omega) hs.tried hrest
      refine ⟨(Advances.tried path hs).trans hahead,
        fun htries => (hend htries).back ?_ fun known h => .inl h⟩
      exact fun h => absurd h haccepted

/-! ## 4. The whole shortening -/

theorem settle_shortenWithin {depth : Nat} (hdepth : path.length ≤ depth) (hs : s.Recorded)
    (h : q.document.settle (q.shortenWithin depth path s) = .ok s') :
    q.Advances path s s' ∧
      (s'.attempts < q.settings.maxTries → q.Long path → q.RowEnd path 1 s s') := by
  induction depth generalizing path s s' with
  | zero =>
    cases h
    exact ⟨.refl path hs, fun _ hlong => by have := hlong.1; omega⟩
  | succ depth ih =>
    rw [shortenWithin] at h
    split at h
    · next hshort =>
      cases h
      rw [Bool.or_eq_true, decide_eq_true_eq, decide_eq_true_eq] at hshort
      exact ⟨.refl path hs, fun _ hlong => by have := hlong.1; have := hlong.2; omega⟩
    · next hlong =>
      rw [Bool.or_eq_true, decide_eq_true_eq, decide_eq_true_eq] at hlong
      have hlong : q.Long path := by rw [Long]; omega
      obtain ⟨hadvances, hend⟩ := settle_leaveOut hlong (fun hlength hs h => by
        obtain ⟨hbelow, hrow⟩ := ih (by omega) hs h
        exact ⟨hbelow, fun htries hlong => (hrow htries hlong).workedOff hlong⟩)
        (Nat.le_refl 1) (by have := hlong.1; omega) hs h
      exact ⟨hadvances, fun htries _ => hend htries⟩

section shorten

variable {run : Shortening} (hrun : q.document.settle (q.shorten path) = .ok run)
  (htries : run.attempts < q.settings.maxTries)
include hrun htries

theorem workedOff_of_settle_shorten : q.WorkedOff run path :=
  fun hlong =>
    ((settle_shortenWithin (Nat.le_refl _) Shortening.recorded_start hrun).2 htries
      hlong).workedOff hlong

/-- **What a shortening finds are variants of the path**, each of them worked off. -/
theorem variant_of_mem_found {known : Path} (hknown : known ∈ run.found.toList) :
    q.Variant path known ∧ q.WorkedOff run known := by
  have hadvances := (settle_shortenWithin (Nat.le_refl _) Shortening.recorded_start hrun).1
  rcases hadvances.fresh known hknown with hold | ⟨hvariant, -, hworked⟩
  · cases hold
  · exact ⟨hvariant, hworked htries⟩

/-- **Each single candidate that can be left out of the whole path is left out once.** -/
theorem eraseIdx_mem_found (hsturdy : path.Sturdy) (hgapless : Gapless path) {i : Nat}
    (hfirst : 1 ≤ i) (hlast : i + 1 < path.length) (hvariant : q.Variant path (path.eraseIdx i)) :
    path.eraseIdx i ∈ run.found.toList := by
  have hlength : ∀ {k : Nat}, k + 1 < path.length → (path.eraseIdx k).length + 1 = path.length :=
    fun hk => by
    rw [List.length_eraseIdx_of_lt (by omega)]
    omega
  have hlong : q.Long path := by
    have := hlength hlast
    have := hvariant.two_le
    have := hvariant.long
    rw [Long]
    omega
  cases (settle_shortenWithin (Nat.le_refl _) Shortening.recorded_start hrun).2 htries hlong with
  | through h => exact h i hfirst hlast hvariant.accepted
  | known j hjfirst hjlast hknown hfound =>
    -- Nothing that was found before has the text of this step.
    exfalso
    obtain ⟨known, hmem, hrender⟩ := hknown
    have hpared := (variant_of_mem_found hrun htries hmem).1
    have hj := hlength hjlast
    have hne : path.eraseIdx j ≠ [] := List.ne_nil_of_length_pos (by omega)
    have hne' : known ≠ [] := List.ne_nil_of_length_pos (by have := hpared.two_le; omega)
    have hintended := (hsturdy.sublist hpared.sublist).intended_eq
      (hsturdy.sublist (List.eraseIdx_sublist path j)) hne' hne hrender
    have hsame := Path.length_eq_of_intended_eq hne' hne hintended
    rcases hfound known hmem with hold | hshort | ⟨k, hk, hkj, rfl⟩
    · cases hold
    · omega
    · have heq := Path.eq_of_intended_eraseIdx hgapless hk (by omega) hjfirst hjlast hintended
      omega

end shorten

end Quest

end UniqueSelector
