import UniqueSelector.Proofs.InternalFailure

/-!
# First failure — what ends a search at once

A refused query and an answer without an element end the search, whoever answers: nothing is asked
behind them, and they are reported as they are. No other failure is one of its selectors.
-/

namespace UniqueSelector

/-! ## 1. Answers that are failures -/

/-- The failure that an answer is, if it is one. An answer to "all" without an element is one, but
not an answer to "one": that only says that the target is not the first. -/
def Exchange.failure? : Exchange → Option Failure
  | .all _ _ (.error e) | .one _ _ (.error e) => some (.query e)
  | .all selector _ (.ok []) => some (.noMatch selector)
  | .all _ _ (.ok (_ :: _)) | .one _ _ (.ok _) => none

namespace Progress

/-- No answer so far is a failure. -/
def Clear (r : Progress σ) : Prop := ∀ e ∈ r.transcript.exchanges, e.failure? = none

/-- The run ends in `f`: the last answer is this failure and no earlier one is a failure, or `f` is
not about an answer and none is a failure. -/
def Stopped (f : Failure) (r : Progress σ) : Prop :=
  (∃ (before : Array Exchange) (last : Exchange), r.transcript.exchanges = before.push last ∧
      (∀ e ∈ before, e.failure? = none) ∧ last.failure? = some f) ∨
    ¬f.Internal ∧ r.Clear

variable {r : Progress σ} {e : Exchange}

theorem clear_new (state : σ) : Clear (⟨state, {}⟩ : Progress σ) := by
  intro e he
  simp at he

theorem Clear.exchange (h : r.Clear) (he : e.failure? = none) (state : σ) :
    (r.exchange state e).Clear := by
  intro e' he'
  rcases Array.mem_push.1 he' with he' | rfl
  · exact h e' he'
  · exact he

theorem Clear.stopped (h : r.Clear) {f : Failure} (he : e.failure? = some f) (state : σ) :
    (r.exchange state e).Stopped f :=
  .inl ⟨r.transcript.exchanges, e, rfl, h, he⟩

theorem Clear.stopped_of_not_internal (h : r.Clear) {f : Failure} (hf : ¬f.Internal) :
    r.Stopped f := .inr ⟨hf, h⟩

/-- An answer that is a failure is the last one, and the run ends in it. -/
theorem Stopped.of_failure {f f' : Failure} (h : r.Stopped f) {i : Nat}
    (hi : r.transcript.exchanges[i]? = some e) (he : e.failure? = some f') :
    i + 1 = r.transcript.exchanges.size ∧ f = f' := by
  rcases h with ⟨before, last, hlast, hbefore, hf⟩ | ⟨-, hclear⟩
  · rw [hlast, Array.getElem?_push] at hi
    rw [hlast, Array.size_push]
    split at hi
    · next heq =>
      cases hi
      rw [hf] at he
      cases he
      exact ⟨by omega, rfl⟩
    · rw [hbefore e (Array.mem_of_getElem? hi)] at he
      cases he
  · rw [hclear e (Array.mem_of_getElem? hi)] at he
    cases he

theorem Stopped.exists_back {f : Failure} (h : r.Stopped f) (hf : f.Internal) :
    ∃ e, r.transcript.exchanges.back? = some e ∧ e.failure? = some f := by
  rcases h with ⟨before, e, hlast, -, he⟩ | ⟨hnot, -⟩
  · exact ⟨e, by rw [hlast, Array.back?_push], he⟩
  · exact absurd hf hnot

end Progress

/-! ## 2. Runs -/

open Attempt Progress

/-- One question: the search goes on as long as the answers are no failures, and a failure
stops it. -/
theorem Quest.behaves_clear (q : Quest) (p : Provider σ) :
    q.Behaves p Clear (fun _ => True) (fun _ => True) (fun _ => True) Stopped where
  isUnique path _ := by
    have hall : Ends p Clear (all path.render q.scope)
        (fun ids r => if ids = [] then r.Stopped (.noMatch path.render) else r.Clear) Stopped := by
      apply ends_all
      · intro r hr ids state _
        cases ids with
        | nil => exact hr.stopped rfl state
        | cons id ids => exact hr.exchange rfl state
      · exact fun r hr e state _ => hr.stopped rfl state
    apply hall.bind
    intro ids
    match ids with
    | [] => exact ends_throw fun r hr => hr
    | [_] => exact ends_pure fun r hr => ⟨hr, fun _ => trivial⟩
    | _ :: _ :: _ => exact ends_pure fun r hr => ⟨hr, fun _ => trivial⟩
  isSame path _ _ := by
    have hone : Ends p Clear (one path.render q.scope) (fun _ => Clear) Stopped :=
      ends_one (fun r hr id state _ => hr.exchange rfl state) fun r hr e state _ =>
        hr.stopped rfl state
    exact hone.bind fun id => ends_pure fun r hr => ⟨hr, fun _ => trivial⟩
  tell _ _ hr := hr
  notFound _ hr := hr.stopped_of_not_internal id

theorem ends_findSelector (t : Document) (s : Settings) (target : NodeId) (p : Provider σ) :
    Ends p Clear (findSelector t s target) (fun _ => Clear) Stopped := by
  rw [findSelector]
  split
  · exact ends_throw fun r hr => hr.stopped_of_not_internal id
  · split
    · exact ends_pure fun r hr => hr
    · dsimp only
      split
      · have hselector := (Quest.aim t s target).behaves_clear p |>.selector
          (fun _ _ _ _ _ => trivial) (fun path (_ : True) => trivial) fun _ _ _ _ _ => trivial
        exact hselector.mono (fun r hr => hr) fun selector r hr => hr.1
      · exact ends_throw fun r hr => hr.stopped_of_not_internal id

/-- **The first failure stops the search and is reported unchanged**, whoever answers. An
answer that is a failure is the last thing that was asked for, and the search ends in that
very failure; conversely, a search that ends in a failure about one of its selectors has it
from its last answer. -/
theorem findSelector_first_failure (t : Document) (s : Settings) (target : NodeId) (p : Provider σ)
    (state : σ) :
    let run := (findSelector t s target).outcome p state
    (∀ (i : Nat) e f, run.2.exchanges[i]? = some e → e.failure? = some f →
      i + 1 = run.2.exchanges.size ∧ run.1 = .error f) ∧
    (∀ f, run.1 = .error f → f.Internal → ∃ e, run.2.exchanges.back? = some e ∧
      e.failure? = some f) := by
  have hends := ends_findSelector t s target p ⟨state, {}⟩ (clear_new state)
  unfold Attempt.outcome
  dsimp only
  cases hrun : (Inquiry.run p (findSelector t s target).run ⟨state, {}⟩).1 with
  | ok selector =>
    rw [hrun] at hends
    constructor
    · intro i e f hi he
      rw [hends e (Array.mem_of_getElem? hi)] at he
      cases he
    · exact fun f hf => by cases hf
  | error f =>
    rw [hrun] at hends
    constructor
    · intro i e f' hi he
      obtain ⟨hlast, rfl⟩ := hends.of_failure hi he
      exact ⟨hlast, rfl⟩
    · intro f' hf' hinternal
      cases hf'
      exact hends.exists_back hinternal

end UniqueSelector
