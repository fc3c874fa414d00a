import UniqueSelector.Proofs.Shortenings

/-!
# Tries — how many candidates are left out for a try

The tries are counted in one state that the whole shortening shares, generation after generation.
It never comes to a state with more tries than the settings allow: a watcher who is shown each
state, and would ask queries of his own or break the shortening off as soon as there are more,
changes nothing.
-/

namespace UniqueSelector

/-! ## 1. Values -/

/-- Whatever the answers are, the inquiry ends with such a value. -/
def Inquiry.Gives (good : α → Prop) : Inquiry α → Prop
  | .done value => good value
  | .askAll _ _ next => ∀ answer, (next answer).Gives good
  | .askOne _ _ next => ∀ answer, (next answer).Gives good
  | .tell _ next => next.Gives good

namespace Inquiry

variable {good : α → Prop} {x : Inquiry α}

theorem gives_of_forall (h : ∀ value, good value) (x : Inquiry α) : x.Gives good := by
  induction x with
  | done value => exact h value
  | askAll selector scope next ih => exact ih
  | askOne selector scope next ih => exact ih
  | tell event next ih => exact ih

theorem Gives.andThen {good' : β → Prop} {f : α → Inquiry β} (hx : x.Gives good)
    (hf : ∀ value, good value → (f value).Gives good') : (x.andThen f).Gives good' := by
  induction x with
  | done value => exact hf value hx
  | askAll selector scope next ih => exact fun answer => ih answer (hx answer)
  | askOne selector scope next ih => exact fun answer => ih answer (hx answer)
  | tell event next ih => exact ih hx

/-- What follows matters on these values only. -/
theorem Gives.andThen_congr {f g : α → Inquiry β} (hx : x.Gives good)
    (h : ∀ value, good value → f value = g value) :
    x.andThen f = x.andThen g := by
  induction x with
  | done value => exact h value hx
  | askAll selector scope next ih =>
    exact congrArg (askAll selector scope) (funext fun answer => ih answer (hx answer))
  | askOne selector scope next ih =>
    exact congrArg (askOne selector scope) (funext fun answer => ih answer (hx answer))
  | tell event next ih => exact congrArg (Inquiry.tell event) (ih hx)

end Inquiry

/-- Whatever the answers are, the attempt fails or ends with such a value. -/
def Attempt.Gives (good : α → Prop) (x : Attempt α) : Prop :=
  Inquiry.Gives (fun result => ∀ value, result = .ok value → good value) x.run

namespace Attempt

variable {good : α → Prop} {x : Attempt α}

theorem gives_pure {value : α} (h : good value) : Attempt.Gives good (pure value) := by
  intro other heq
  cases heq
  exact h

theorem Gives.bind {good' : β → Prop} {next : α → Attempt β} (hx : x.Gives good)
    (hnext : ∀ value, good value → (next value).Gives good') : (x >>= next).Gives good' := by
  apply Inquiry.Gives.andThen hx
  intro result hresult
  cases result with
  | ok value => exact hnext value (hresult value rfl)
  | error f => exact fun value heq => by cases heq

theorem gives_bind {good' : β → Prop} {next : α → Attempt β}
    (hnext : ∀ value, (next value).Gives good') :
    (x >>= next).Gives good' :=
  Gives.bind (Inquiry.gives_of_forall (fun _ _ _ => trivial) x.run : x.Gives fun _ => True)
    fun value _ => hnext value

theorem Gives.bind_congr {next next' : α → Attempt β} (hx : x.Gives good)
    (h : ∀ value, good value → next value = next' value) : x >>= next = x >>= next' := by
  apply Inquiry.Gives.andThen_congr hx
  intro result hresult
  cases result with
  | ok value => exact h value (hresult value rfl)
  | error f => rfl

end Attempt

namespace Quest

open Attempt Shortening

variable {q : Quest}

/-! ## 2. Tries -/

/-- No more tries were made than the settings allow. -/
def WithinTries (q : Quest) (s : Shortening) : Prop := s.attempts ≤ q.settings.maxTries

theorem gives_leaveOut {deeper : Path → Shortening → Attempt Shortening}
    (hdeeper : ∀ path s, q.WithinTries s → (deeper path s).Gives q.WithinTries) (path : Path)
    (count i : Nat) {s : Shortening} (hs : q.WithinTries s) :
    (q.leaveOut deeper path count i s).Gives q.WithinTries := by
  induction count generalizing i s with
  | zero => exact gives_pure hs
  | succ count ih =>
    rw [leaveOut]
    split
    · exact gives_bind fun _ => gives_pure hs
    · next htries =>
      have htried : q.WithinTries s.tried := Nat.lt_of_not_le htries
      dsimp only
      split
      · exact gives_pure htried
      · apply gives_bind
        intro b
        split
        · exact gives_bind fun _ => Gives.bind (hdeeper _ _ htried) fun s' hs' => ih (i + 1) hs'
        · exact ih (i + 1) htried

theorem gives_shortenWithin (depth : Nat) (path : Path) {s : Shortening} (hs : q.WithinTries s) :
    (q.shortenWithin depth path s).Gives q.WithinTries := by
  induction depth generalizing path s with
  | zero => exact gives_pure hs
  | succ depth ih =>
    rw [shortenWithin]
    split
    · exact gives_pure hs
    · exact gives_leaveOut (fun path s hs => ih path hs) path _ _ hs

/-! ## 3. A watcher -/

/-- `leaveOut`, where `watch` is shown each state that the shortening comes to. -/
def leaveOutWatched (q : Quest) (watch : Shortening → Attempt Unit)
    (deeper : Path → Shortening → Attempt Shortening) (path : Path) :
    (count i : Nat) → Shortening → Attempt Shortening
  | 0, _, s => do
    watch s
    return s
  | count + 1, i, s => do
    watch s
    if q.settings.maxTries ≤ s.attempts then
      Attempt.tell (.outOfTries s.attempts)
      return s
    else
      let shorter : Path := path.eraseIdx i
      watch s.tried
      if s.visited.contains shorter.render then return s.tried
      else if ← q.accepts shorter then
        Attempt.tell (.shortened shorter.render)
        watch (s.tried.kept shorter)
        let s ← deeper shorter (s.tried.kept shorter)
        leaveOutWatched q watch deeper path count (i + 1) s
      else leaveOutWatched q watch deeper path count (i + 1) s.tried

def shortenWithinWatched (q : Quest) (watch : Shortening → Attempt Unit) :
    (depth : Nat) → Path → Shortening → Attempt Shortening
  | 0, _, s => return s
  | depth + 1, path, s =>
    if path.length ≤ 2 || path.length ≤ q.settings.optimizedMinLength then return s
    else q.leaveOutWatched watch (q.shortenWithinWatched watch depth) path (path.length - 2) 1 s

def shortenWatched (q : Quest) (watch : Shortening → Attempt Unit) (path : Path) :
    Attempt Shortening :=
  q.shortenWithinWatched watch path.length path {}

section watch

variable {watch : Shortening → Attempt Unit} (hwatch : ∀ s, q.WithinTries s → watch s = pure ())
include hwatch

theorem leaveOutWatched_eq {deeper deeper' : Path → Shortening → Attempt Shortening}
    (hdeeper : ∀ path s, q.WithinTries s → (deeper path s).Gives q.WithinTries)
    (heq : ∀ path s, q.WithinTries s → deeper' path s = deeper path s) (path : Path) (count i : Nat)
    {s : Shortening} (hs : q.WithinTries s) :
    q.leaveOutWatched watch deeper' path count i s = q.leaveOut deeper path count i s := by
  induction count generalizing i s with
  | zero => rw [leaveOutWatched, hwatch s hs, pure_bind, leaveOut]
  | succ count ih =>
    rw [leaveOutWatched, hwatch s hs, pure_bind, leaveOut]
    split
    · rfl
    · next htries =>
      have htried : q.WithinTries s.tried := Nat.lt_of_not_le htries
      have hkept : q.WithinTries (s.tried.kept (path.eraseIdx i)) := htried
      dsimp only
      rw [hwatch _ htried, pure_bind, hwatch _ hkept, ih (i + 1) htried, heq _ _ hkept]
      split
      · rfl
      · apply bind_congr
        intro b
        split
        · apply bind_congr
          intro _
          rw [pure_bind]
          exact (hdeeper _ _ hkept).bind_congr fun s' hs' => ih (i + 1) hs'
        · rfl

theorem shortenWithinWatched_eq (depth : Nat) (path : Path) {s : Shortening}
    (hs : q.WithinTries s) :
    q.shortenWithinWatched watch depth path s = q.shortenWithin depth path s := by
  induction depth generalizing path s with
  | zero => rfl
  | succ depth ih =>
    rw [shortenWithinWatched, shortenWithin]
    split
    · rfl
    · exact leaveOutWatched_eq hwatch (fun path s hs => gives_shortenWithin depth path hs)
        (fun path s hs => ih path hs) path _ _ hs

/-- A watcher who steps in only beyond the tries that are allowed never does. -/
theorem shortenWatched_eq (path : Path) : q.shortenWatched watch path = q.shorten path :=
  shortenWithinWatched_eq hwatch path.length path (Nat.zero_le _)

end watch

end Quest

end UniqueSelector
