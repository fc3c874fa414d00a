import UniqueSelector.Synthesis.Find

/-!
# Runs — what holds when an attempt has come to its end

A triple speaks of every run of an attempt against a provider: where the run may begin, and what is
known of the value or the failure that it ends in. The triples of the search are derived from those
of its two questions, whoever answers them.
-/

namespace UniqueSelector

/-! ## 1. Triples -/

namespace Attempt

/-- What is known of a value, and what of a failure. -/
def Ended (post : α → Progress σ → Prop) (fails : Failure → Progress σ → Prop) :
    Except Failure α → Progress σ → Prop
  | .ok value, r => post value r
  | .error f, r => fails f r

theorem Ended.elim {post : α → Progress σ → Prop} {fails : Failure → Progress σ → Prop}
    {motive : Prop} {result : Except Failure α} {r : Progress σ} (h : Ended post fails result r)
    (hpost : ∀ value, post value r → motive) (hfails : ∀ f, fails f r → motive) : motive := by
  cases result with
  | ok value => exact hpost value h
  | error f => exact hfails f h

/-- From a progress with `pre`, the attempt ends in a value with `post` or in a failure
with `fails`. -/
def Ends (p : Provider σ) (pre : Progress σ → Prop) (x : Attempt α) (post : α → Progress σ → Prop)
    (fails : Failure → Progress σ → Prop) : Prop :=
  ∀ r, pre r → Ended post fails (Inquiry.run p x.run r).1 (Inquiry.run p x.run r).2

variable {p : Provider σ} {pre : Progress σ → Prop} {fails : Failure → Progress σ → Prop}

theorem ends_pure {value : α} {post : α → Progress σ → Prop} (h : ∀ r, pre r → post value r) :
    Ends p pre (pure value) post fails :=
  h

theorem ends_throw {f : Failure} {post : α → Progress σ → Prop} (h : ∀ r, pre r → fails f r) :
    Ends p pre (throw f) post fails :=
  h

theorem ends_tell {event : TraceEvent} {post : Unit → Progress σ → Prop}
    (h : ∀ r, pre r → post () (r.tell event)) : Ends p pre (tell event) post fails :=
  h

/-- A question is answered by the provider: its answer is noted, and a failed one fails
the attempt. -/
theorem ends_of_answer {x : Attempt α} {ask : σ → Answer α × σ} {entry : Answer α → Exchange}
    {post : α → Progress σ → Prop}
    (hrun : ∀ r, Inquiry.run p x.run r =
      ((ask r.state).1.mapError Failure.query, r.exchange (ask r.state).2 (entry (ask r.state).1)))
    (hok : ∀ r, pre r → ∀ value state, ask r.state = (.ok value, state) →
      post value (r.exchange state (entry (.ok value))))
    (herror : ∀ r, pre r → ∀ e state, ask r.state = (.error e, state) →
      fails (.query e) (r.exchange state (entry (.error e)))) :
    Ends p pre x post fails := by
  intro r hr
  rw [hrun]
  cases hanswer : (ask r.state).1 with
  | ok value => exact hok r hr value _ (Prod.ext hanswer rfl)
  | error e => exact herror r hr e _ (Prod.ext hanswer rfl)

theorem ends_all {selector : String} {scope : NodeId} {post : List NodeId → Progress σ → Prop}
    (hok : ∀ r, pre r → ∀ ids state, p.all selector scope r.state = (.ok ids, state) →
      post ids (r.exchange state (.all selector scope (.ok ids))))
    (herror : ∀ r, pre r → ∀ e state, p.all selector scope r.state = (.error e, state) →
      fails (.query e) (r.exchange state (.all selector scope (.error e)))) :
    Ends p pre (all selector scope) post fails := by
  refine ends_of_answer (fun r => ?_) hok herror
  rw [all, ExceptT.run_mk, Inquiry.run]
  rfl

theorem ends_one {selector : String} {scope : NodeId} {post : Option NodeId → Progress σ → Prop}
    (hok : ∀ r, pre r → ∀ id state, p.one selector scope r.state = (.ok id, state) →
      post id (r.exchange state (.one selector scope (.ok id))))
    (herror : ∀ r, pre r → ∀ e state, p.one selector scope r.state = (.error e, state) →
      fails (.query e) (r.exchange state (.one selector scope (.error e)))) :
    Ends p pre (one selector scope) post fails := by
  refine ends_of_answer (fun r => ?_) hok herror
  rw [one, ExceptT.run_mk, Inquiry.run]
  rfl

/-- What follows begins where the attempt has ended; a failure goes on to the end. -/
theorem Ends.bind {x : Attempt α} {next : α → Attempt β} {mid : α → Progress σ → Prop}
    {post : β → Progress σ → Prop} (hx : Ends p pre x mid fails)
    (hnext : ∀ value, Ends p (mid value) (next value) post fails) :
    Ends p pre (x >>= next) post fails := by
  intro r hr
  have hr := hx r hr
  rw [run_bind]
  cases hrun : Inquiry.run p x.run r with
  | mk result r' =>
    rw [hrun] at hr
    cases result with
    | ok value => exact hnext value r' hr
    | error f => exact hr

theorem Ends.mono {x : Attempt α} {pre' : Progress σ → Prop} {post post' : α → Progress σ → Prop}
    (h : Ends p pre x post fails) (hpre : ∀ r, pre' r → pre r)
    (hpost : ∀ value r, post value r → post' value r) :
    Ends p pre' x post' fails := by
  intro r hr
  have hr := h r (hpre r hr)
  cases hrun : (Inquiry.run p x.run r).1 with
  | ok value =>
    rw [hrun] at hr
    exact hpost _ _ hr
  | error f =>
    rw [hrun] at hr
    exact hr

end Attempt

/-! ## 2. Looking for a unique path -/

namespace Quest

open Attempt

/-- What the questions of a search keep, and what their answers tell of the paths that may
be asked. -/
structure Behaves (q : Quest) (p : Provider σ) (keeps : Progress σ → Prop)
    (asked unique same : Path → Prop) (fails : Failure → Progress σ → Prop) : Prop where
  isUnique : ∀ path, asked path →
    Ends p keeps (q.isUnique path) (fun b r => keeps r ∧ (b = true → unique path)) fails
  isSame : ∀ path, asked path → unique path →
    Ends p keeps (q.isSame path) (fun b r => keeps r ∧ (b = true → same path)) fails
  tell : ∀ r event, keeps r → keeps (r.tell event)
  notFound : ∀ r, keeps r → fails .notFound r

namespace Behaves

variable {q : Quest} {p : Provider σ} {keeps : Progress σ → Prop} {asked unique same : Path → Prop}
  {fails : Failure → Progress σ → Prop} (h : q.Behaves p keeps asked unique same fails)
include h

/-- What is announced changes nothing for the attempt behind it. -/
theorem afterTell (event : TraceEvent) {x : Attempt α} {post : α → Progress σ → Prop}
    (hx : Ends p keeps x post fails) :
    Ends p keeps (Attempt.tell event >>= fun _ => x) post fails := by
  have htell : Ends p keeps (Attempt.tell event) (fun _ r => keeps r) fails :=
    ends_tell fun r hr => h.tell r event hr
  exact htell.bind fun _ => hx

theorem firstUnique {paths : List Path} (hpaths : ∀ path ∈ paths, asked path) :
    Ends p keeps (q.firstUnique paths)
      (fun found r => keeps r ∧ ∀ path ∈ found, path ∈ paths ∧ unique path) fails := by
  induction paths with
  | nil => exact ends_pure fun r hr => ⟨hr, fun _ h => by cases h⟩
  | cons path paths ih =>
    apply Ends.bind (h.isUnique path (hpaths path (.head _)))
    intro b
    cases b with
    | true =>
      -- The first unique path ends the row.
      apply ends_pure
      rintro r ⟨hr, hunique⟩
      refine ⟨hr, fun path' h => ?_⟩
      cases h
      exact ⟨.head _, hunique rfl⟩
    | false =>
      refine (ih fun path' h => hpaths path' (.tail _ h)).mono (fun r hr => hr.1) ?_
      rintro found r ⟨hr, hfound⟩
      exact ⟨hr, fun path' h => ⟨.tail _ (hfound path' h).1, (hfound path' h).2⟩⟩

theorem search {stack : List Level} (hstack : ∀ path ∈ combinations stack, asked path) :
    Ends p keeps (q.search stack)
      (fun finding r => keeps r ∧ ∀ path, finding = .unique path →
        path ∈ combinations stack ∧ unique path)
      fails := by
  have hmem : ∀ path, path ∈ Path.sortByCost (combinations stack) ↔ path ∈ combinations stack :=
    fun path => List.mem_mergeSort
  rw [Quest.search]
  split
  · exact ends_pure fun r hr => ⟨hr, fun _ h => by cases h⟩
  · apply Ends.bind (h.firstUnique fun path hpath => hstack path ((hmem path).1 hpath))
    intro found
    cases found with
    | none => exact ends_pure fun r hr => ⟨hr.1, fun _ h => by cases h⟩
    | some path =>
      apply ends_pure
      rintro r ⟨hr, hfound⟩
      refine ⟨hr, fun path' h => ?_⟩
      cases h
      exact ⟨(hmem path).1 (hfound path rfl).1, (hfound path rfl).2⟩

theorem announce (mode : Breadth) (path : Path) {post : Option Path → Progress σ → Prop}
    (hpost : ∀ r, keeps r → post (some path) r) : Ends p keeps (announce mode path) post fails :=
  h.afterTell _ (ends_pure hpost)

/-- The stacks of a climb are the beginnings of the levels, and only these are searched. -/
theorem climbFrom {full : Path → Prop} (hfull : ∀ path, full path → asked path) {mode : Breadth}
    {all : List Level}
    (hall : ∀ n path, all.take n ≠ [] → path ∈ combinations (all.take n) → full path)
    {levels stack : List Level} (hstack : stack ++ levels = all) (searched : Bool) :
    Ends p keeps (q.climbFrom mode levels stack searched)
      (fun found r => keeps r ∧ ∀ path ∈ found, full path ∧ unique path) fails := by
  -- Each stack is a beginning of the levels, so what is searched is full; what is found is unique
  -- as well.
  have hsearch : ∀ {n : Nat}, all.take n ≠ [] → Ends p keeps (q.search (all.take n))
      (fun finding r => keeps r ∧ ∀ path, finding = .unique path → full path ∧ unique path)
      fails := by
    intro n hne
    refine (h.search fun path hpath => hfull path (hall n path hne hpath)).mono (fun r hr => hr) ?_
    rintro finding r ⟨hr, hfinding⟩
    exact ⟨hr, fun path heq => ⟨hall n path hne (hfinding path heq).1, (hfinding path heq).2⟩⟩
  have hfound : ∀ path, Ends p (fun r => keeps r ∧ ∀ path', Finding.unique path = .unique path' →
      full path' ∧ unique path') (Quest.announce mode path)
      (fun found r => keeps r ∧ ∀ path ∈ found, full path ∧ unique path) fails := by
    intro path r hr
    refine h.announce mode path (fun r' hr' => ⟨hr', fun path' h => ?_⟩) r hr.1
    cases h
    exact hr.2 path rfl
  induction levels generalizing stack searched with
  | nil =>
    -- The end of the way: the whole stack is searched unless it was just searched.
    rw [List.append_nil] at hstack
    rw [Quest.climbFrom]
    split
    · exact ends_pure fun r hr => ⟨hr, fun _ h => by cases h⟩
    · next hempty =>
      have hne : all.take all.length ≠ [] := by
        rw [List.take_length, ← hstack]
        intro hnil
        simp [hnil] at hempty
      have hends := hsearch hne
      rw [List.take_length, ← hstack] at hends
      apply hends.bind
      intro finding
      cases finding with
      | unique path => exact hfound path
      | ambiguous => exact ends_pure fun r hr => ⟨hr.1, fun _ h => by cases h⟩
      | tooMany => exact ends_pure fun r hr => ⟨hr.1, fun _ h => by cases h⟩
  | cons level levels ih =>
    have hnext : (stack ++ [level]) ++ levels = all := by rw [List.append_assoc]; exact hstack
    rw [Quest.climbFrom]
    split
    · exact ih hnext false
    · have htake : all.take (stack ++ [level]).length = stack ++ [level] := by
        rw [← hnext, List.take_left]
      have hends := hsearch (n := (stack ++ [level]).length) (by rw [htake]; simp)
      rw [htake] at hends
      apply hends.bind
      intro finding
      cases finding with
      | unique path => exact hfound path
      | ambiguous => exact (ih hnext true).mono (fun r hr => hr.1) fun _ _ h => h
      | tooMany =>
        -- The mode is given up, and nothing is claimed of what it found.
        have hgiven : Ends p keeps (pure none : Attempt (Option Path))
            (fun found r => keeps r ∧ ∀ path ∈ found, full path ∧ unique path) fails :=
          ends_pure fun r hr => ⟨hr, fun _ h => by cases h⟩
        exact (h.afterTell _ hgiven).mono (fun r hr => hr.1) fun _ _ h => h

section climb

variable {full : Path → Prop} (hfull : ∀ path, full path → asked path)
  (hlevels : ∀ mode n path, (q.levels mode).take n ≠ [] →
    path ∈ combinations ((q.levels mode).take n) → full path)
include hfull hlevels

theorem climb (mode : Breadth) :
    Ends p keeps (q.climb mode) (fun found r => keeps r ∧ ∀ path ∈ found, full path ∧ unique path)
      fails :=
  h.afterTell _ (h.climbFrom hfull (hlevels mode) (List.nil_append _) false)

theorem climbInTurn (modes : List Breadth) :
    Ends p keeps (q.climbInTurn modes)
      (fun found r => keeps r ∧ ∀ path ∈ found, full path ∧ unique path) fails := by
  induction modes with
  | nil => exact ends_pure fun r hr => ⟨hr, fun _ h => by cases h⟩
  | cons mode modes ih =>
    apply (h.climb hfull hlevels mode).bind
    intro found
    cases found with
    | none => exact ih.mono (fun r hr => hr.1) fun _ _ h => h
    | some path => exact ends_pure fun r hr => hr

end climb

/-! ## 3. Shortening -/

omit h in
theorem accepted_push {accepted : Path → Prop} {found : Array Path} {path : Path}
    (hfound : ∀ path ∈ found, accepted path) (hpath : accepted path) :
    ∀ path' ∈ found.push path, accepted path' := by
  intro path' hmem
  rcases Array.mem_push.1 hmem with hmem | rfl
  · exact hfound path' hmem
  · exact hpath

theorem accepts {path : Path} (hpath : asked path) :
    Ends p keeps (q.accepts path) (fun b r => keeps r ∧
        (b = true → asked path ∧ unique path ∧ same path))
      fails := by
  apply Ends.bind (h.isUnique path hpath)
  intro b
  cases b with
  | true =>
    intro r hr
    have hsame := h.isSame path hpath (hr.2 rfl) r hr.1
    revert hsame
    show Ended _ _ _ _ → Ended _ _ _ _
    rw [if_pos rfl]
    cases (Inquiry.run p (q.isSame path).run r).1 with
    | ok b => exact fun hb => ⟨hb.1, fun htrue => ⟨hpath, hr.2 rfl, hb.2 htrue⟩⟩
    | error f => exact id
  | false => exact ends_pure fun r hr => ⟨hr.1, fun h => by cases h⟩

/-- Paths can be asked again when one of their inner candidates is left out. -/
def Shortens (asked : Path → Prop) : Prop :=
  ∀ path i, asked path → 1 ≤ i → i + 1 < path.length → asked (path.eraseIdx i)

theorem leaveOut (hshortens : Shortens asked) {deeper : Path → Shortening → Attempt Shortening}
    (hdeeper : ∀ path s, asked path → (∀ path ∈ s.found, asked path ∧ unique path ∧ same path) →
      Ends p keeps (deeper path s)
        (fun s r => keeps r ∧ ∀ path ∈ s.found, asked path ∧ unique path ∧ same path) fails)
    {path : Path} (hpath : asked path) {count i : Nat} (hi : 1 ≤ i)
    (hcount : i + count + 1 = path.length) {s : Shortening}
    (hs : ∀ path ∈ s.found, asked path ∧ unique path ∧ same path) :
    Ends p keeps (q.leaveOut deeper path count i s)
      (fun s r => keeps r ∧ ∀ path ∈ s.found, asked path ∧ unique path ∧ same path) fails := by
  -- The paths found so far stay acceptable, and each new one was accepted just now.
  induction count generalizing i s with
  | zero => exact ends_pure fun r hr => ⟨hr, hs⟩
  | succ count ih =>
    have hshorter : asked (path.eraseIdx i) := hshortens path i hpath hi (by omega)
    rw [Quest.leaveOut]
    split
    · exact h.afterTell _ (ends_pure fun r hr => ⟨hr, hs⟩)
    · dsimp only
      split
      · exact ends_pure fun r hr => ⟨hr, hs⟩
      · apply (h.accepts hshorter).bind
        intro b
        cases b with
        | false =>
          have hrest :=
            ih (i := i + 1) (s := { s with attempts := s.attempts + 1 }) (by omega) (by omega) hs
          exact hrest.mono (fun r hr => And.left hr) fun _ _ h => h
        | true =>
          -- The variant is shortened first, and the row goes on with what that has found.
          intro r hr
          refine h.afterTell _ ((hdeeper _ _ hshorter (accepted_push hs (hr.2 rfl))).bind ?_) r hr.1
          intro s' r' hr'
          exact ih (i := i + 1) (by omega) (by omega) hr'.2 r' hr'.1

theorem shortenWithin (hshortens : Shortens asked) (depth : Nat) {path : Path} (hpath : asked path)
    {s : Shortening} (hs : ∀ path ∈ s.found, asked path ∧ unique path ∧ same path) :
    Ends p keeps (q.shortenWithin depth path s)
      (fun s r => keeps r ∧ ∀ path ∈ s.found, asked path ∧ unique path ∧ same path) fails := by
  induction depth generalizing path s with
  | zero => exact ends_pure fun r hr => ⟨hr, hs⟩
  | succ depth ih =>
    rw [Quest.shortenWithin]
    split
    · exact ends_pure fun r hr => ⟨hr, hs⟩
    · next hlong =>
      rw [Bool.or_eq_true, not_or, decide_eq_true_eq, decide_eq_true_eq] at hlong
      exact h.leaveOut hshortens (fun path s hpath hs => ih hpath hs) hpath (Nat.le_refl 1)
        (by omega) hs

/-! ## 4. The whole search -/

/-- The selector that comes out is that of a unique path: of one from the climb, or of one that was
found to lead to the target. -/
theorem bestVariant (hshortens : Shortens asked) {path : Path} (hpath : asked path)
    (hunique : unique path) :
    Ends p keeps (q.bestVariant path)
      (fun selector r => keeps r ∧ ∃ best, selector = best.render ∧ asked best ∧ unique best ∧
        (best = path ∨ same best)) fails := by
  have hshorten :=
    h.shortenWithin hshortens path.length hpath (s := {}) (fun path hmem => by simp at hmem)
  apply hshorten.bind
  intro s r hr
  refine h.afterTell _ ?_ r hr.1
  have hmem : ∀ best, best ∈ Path.sortByCost (path :: s.found.toList) →
      best = path ∨ best ∈ s.found := by
    intro best hbest
    rcases List.mem_cons.1 (List.mem_mergeSort.1 hbest) with rfl | hfound
    · exact .inl rfl
    · exact .inr (Array.mem_toList_iff.1 hfound)
  cases hsorted : Path.sortByCost (path :: s.found.toList) with
  | nil => exact ends_throw fun r hr => h.notFound r hr
  | cons best rest =>
    refine ends_pure fun r hr' => ⟨hr', best, rfl, ?_⟩
    rcases hmem best (hsorted ▸ .head rest) with rfl | hfound
    · exact ⟨hpath, hunique, .inl rfl⟩
    · obtain ⟨hasked, hbest, hsame⟩ := hr.2 best hfound
      exact ⟨hasked, hbest, .inr hsame⟩

/-- **Every selector that a search finds is that of a unique path**, and of one that leads to the
target unless it comes from the climb as it is. -/
theorem selector (hshortens : Shortens asked) {full : Path → Prop}
    (hfull : ∀ path, full path → asked path)
    (hlevels : ∀ mode n path, (q.levels mode).take n ≠ [] →
      path ∈ combinations ((q.levels mode).take n) → full path) :
    Ends p keeps q.selector
      (fun selector r => keeps r ∧ ∃ best, selector = best.render ∧ asked best ∧ unique best ∧
        (full best ∨ same best)) fails := by
  apply (h.climbInTurn hfull hlevels (Breadth.andNarrower .all)).bind
  intro found
  cases found with
  | none => exact ends_throw fun r hr => h.notFound r hr.1
  | some path =>
    intro r hr
    obtain ⟨hpath, hunique⟩ := hr.2 path rfl
    refine (h.bestVariant hshortens (hfull path hpath) hunique).mono (fun r hr => hr) ?_ r hr.1
    rintro selector r ⟨hr, best, rfl, hasked, hbest, hcases⟩
    refine ⟨hr, best, rfl, hasked, hbest, hcases.imp_left ?_⟩
    rintro rfl
    exact hpath

end Behaves

end Quest

end UniqueSelector
