import UniqueSelector.Synthesis.Find

/-!
# Steady — providers that do not change their minds

If an answer depends on the selector and the scope of its query alone, an attempt comes to the same
end wherever it begins. What an attempt in two parts comes to is then known from what each part
comes to.
-/

namespace UniqueSelector

/-- Whatever the provider remembers, it gives the same answer to the same query. -/
structure Provider.Steady (p : Provider σ) : Prop where
  all : ∀ selector scope s s', (p.all selector scope s).1 = (p.all selector scope s').1
  one : ∀ selector scope s s', (p.one selector scope s).1 = (p.one selector scope s').1

theorem Provider.steady_ofDocument (t : Document) : (ofDocument t).Steady where
  all _ _ _ _ := rfl
  one _ _ _ _ := rfl

variable {p : Provider σ}

theorem Provider.Steady.run_fst (hp : p.Steady) (x : Inquiry α) (r r' : Progress σ) :
    (x.run p r).1 = (x.run p r').1 := by
  induction x generalizing r r' with
  | done => rfl
  | askAll selector scope next ih =>
    show ((next (p.all selector scope r.state).1).run p _).1 =
      ((next (p.all selector scope r'.state).1).run p _).1
    rw [hp.all selector scope r.state r'.state]
    exact ih _ _ _
  | askOne selector scope next ih =>
    show ((next (p.one selector scope r.state).1).run p _).1 =
      ((next (p.one selector scope r'.state).1).run p _).1
    rw [hp.one selector scope r.state r'.state]
    exact ih _ _ _
  | tell event next ih => exact ih _ _

namespace Attempt

variable {s : σ}

@[simp] theorem result_pure (value : α) : (pure value : Attempt α).result p s = .ok value := rfl

@[simp] theorem result_tell (event : TraceEvent) : (tell event).result p s = .ok () := rfl

section bind

variable (hp : p.Steady) {x : Attempt α} {next : α → Attempt β}
include hp

theorem result_bind (s : σ) (x : Attempt α) (next : α → Attempt β) :
    (x >>= next).result p s = x.result p s >>= fun value => (next value).result p s := by
  unfold result outcome
  dsimp only
  rw [run_bind]
  -- What follows begins elsewhere than at the start, which makes no difference.
  cases Inquiry.run p x.run ⟨s, {}⟩ with
  | mk result r =>
    cases result with
    | ok value => exact hp.run_fst _ _ _
    | error f => rfl

theorem result_bind_of_ok {value : α} (h : x.result p s = .ok value) :
    (x >>= next).result p s = (next value).result p s := by
  rw [result_bind hp, h]
  rfl

theorem result_bind_of_error {f : Failure} (h : x.result p s = .error f) :
    (x >>= next).result p s = .error f := by
  rw [result_bind hp, h]
  rfl

theorem result_tell_bind (event : TraceEvent) (next : Unit → Attempt β) :
    (tell event >>= next).result p s = (next ()).result p s :=
  result_bind_of_ok hp (result_tell event)

end bind

end Attempt

end UniqueSelector
