import Mathlib.Data.List.Induction
import Mathlib.Tactic.Common
import UniqueSelector.Warning

/-!
# Heard — which warnings of a run are printed

A log is asked to warn, to forget and to keep silent, in any order. A warning is printed unless
the log is quiet or remembers it, and it is remembered by one text in which its two parts are
joined. Two warnings share that text also where the one has in its component what the other has
in its message.
-/

namespace UniqueSelector

/-! ## 1. The text that is remembered -/

namespace Warning

/-- The message of `w` says a closing bracket, a blank and the message of `w'`, and what stands in
front of them ends the component of `w'`. -/
def Splits (w w' : Warning) : Prop :=
  ∃ middle, w'.component = w.component ++ "] " ++ middle ∧ w.message = middle ++ "] " ++ w'.message

theorem toList_key (w : Warning) :
    w.key.toList = '[' :: (w.component.toList ++ ']' :: ' ' :: w.message.toList) := by
  have hopen : "[".toList = ['['] := by decide
  have hclose : "] ".toList = [']', ' '] := by decide
  rw [key, String.toList_append, String.toList_append, String.toList_append, hopen, hclose]
  simp

theorem splits_iff {w w' : Warning} :
    w.Splits w' ↔ ∃ middle, w'.component.toList = w.component.toList ++ ']' :: ' ' :: middle ∧
      w.message.toList = middle ++ ']' :: ' ' :: w'.message.toList := by
  have hclose : "] ".toList = [']', ' '] := by decide
  constructor
  · rintro ⟨middle, hcomponent, hmessage⟩
    refine ⟨middle.toList, ?_, ?_⟩
    · simp [hcomponent, hclose]
    · simp [hmessage, hclose]
  · rintro ⟨middle, hcomponent, hmessage⟩
    refine ⟨String.ofList middle, String.toList_inj.1 ?_, String.toList_inj.1 ?_⟩
    · simp [hcomponent, hclose]
    · simp [hmessage, hclose]

theorem Splits.key_eq {w w' : Warning} (h : w.Splits w') : w.key = w'.key := by
  obtain ⟨middle, hcomponent, hmessage⟩ := splits_iff.1 h
  rw [← String.toList_inj, toList_key, toList_key, hcomponent, hmessage]
  simp

/-- The longer component goes on behind the shorter one by nothing, or by the bracket and the blank
at least. -/
theorem eq_or_splits {w w' : Warning} {more : List Char}
    (hcomponent : w'.component.toList = w.component.toList ++ more)
    (hmessage : ']' :: ' ' :: w.message.toList = more ++ ']' :: ' ' :: w'.message.toList) :
    w = w' ∨ w.Splits w' := by
  match more with
  | [] =>
    rw [List.append_nil, String.toList_inj] at hcomponent
    rw [List.nil_append, List.cons_inj_right, List.cons_inj_right, String.toList_inj] at hmessage
    cases w
    cases w'
    exact .inl (congrArg₂ Warning.mk hcomponent.symm hmessage)
  | [c] => simp at hmessage
  | c :: d :: middle =>
    obtain ⟨rfl, rfl, hrest⟩ : ']' = c ∧ ' ' = d ∧
      w.message.toList = middle ++ ']' :: ' ' :: w'.message.toList := by
      simpa using hmessage
    exact .inr (splits_iff.2 ⟨middle, hcomponent, hrest⟩)

/-- **The parts of a warning are told apart by its text** but for a bracket and a blank that can
belong to either. -/
theorem key_eq_iff {w w' : Warning} : w.key = w'.key ↔ w = w' ∨ w.Splits w' ∨ w'.Splits w := by
  constructor
  · intro h
    rw [← String.toList_inj, toList_key, toList_key, List.cons_inj_right,
      List.append_eq_append_iff] at h
    rcases h with ⟨more, hcomponent, hmessage⟩ | ⟨more, hcomponent, hmessage⟩
    · exact (eq_or_splits hcomponent hmessage).imp_right .inl
    · exact (eq_or_splits hcomponent hmessage).imp (fun heq => heq.symm) .inr
  · rintro (rfl | h | h)
    · rfl
    · exact h.key_eq
    · exact h.key_eq.symm

theorem line_ne_empty (w : Warning) : w.line ≠ "" := by
  intro h
  unfold line at h
  rw [String.append_eq_empty_iff, String.append_eq_empty_iff, String.append_eq_empty_iff,
    String.append_eq_empty_iff] at h
  exact absurd h.1.1.1.1 (by decide)

end Warning

namespace WarningLog

/-! ## 2. Runs -/

/-- What a log can be asked to do. -/
inductive Action where
  | warn (w : Warning)
  | clear
  | setQuiet (quiet : Bool)

/-- The log after an action, and what appears on the error stream. -/
def act (log : WarningLog) : Action → WarningLog × String
  | .warn w => log.hear w
  | .clear => (log.clear, "")
  | .setQuiet quiet => (log.setQuiet quiet, "")

/-- The log after a row of actions. -/
def after (log : WarningLog) (actions : List Action) : WarningLog :=
  actions.foldl (fun log a => (log.act a).1) log

/-- What appears at each of a row of actions. -/
def shown (log : WarningLog) : List Action → List String
  | [] => []
  | a :: actions => (log.act a).2 :: (log.act a).1.shown actions

theorem after_concat (log : WarningLog) (history : List Action) (a : Action) :
    log.after (history ++ [a]) = ((log.after history).act a).1 := by
  rw [after, List.foldl_append]
  rfl

theorem getElem?_shown (log : WarningLog) (history : List Action) (a : Action)
    (later : List Action) :
    (log.shown (history ++ a :: later))[history.length]? = some ((log.after history).act a).2 := by
  induction history generalizing log with
  | nil => rfl
  | cons b history ih => exact ih (log.act b).1

/-! ## 3. What a run says -/

/-- The action `x` was taken, and none that undoes it was taken after. -/
def Since (x : Action) (undoes : Action → Prop) (history : List Action) : Prop :=
  ∃ before after, history = before ++ x :: after ∧ ∀ a ∈ after, ¬undoes a

/-- The last choice of the mode was to keep silent. -/
def IsQuiet (history : List Action) : Prop :=
  Since (.setQuiet true) (fun a => ∃ quiet, a = .setQuiet quiet) history

/-- The warning was given, and nothing was forgotten after that. -/
def Said (history : List Action) (w : Warning) : Prop :=
  Since (.warn w) (fun a => a = .clear) history

theorem not_since_nil (x : Action) (undoes : Action → Prop) : ¬Since x undoes [] := by
  rintro ⟨before, after, h, -⟩
  exact List.append_ne_nil_of_right_ne_nil before (List.cons_ne_nil x after) h.symm

theorem since_concat {x : Action} {undoes : Action → Prop} {history : List Action} {a : Action} :
    Since x undoes (history ++ [a]) ↔ a = x ∨ ¬undoes a ∧ Since x undoes history := by
  constructor
  · rintro ⟨before, after, h, hafter⟩
    rcases List.eq_nil_or_concat after with rfl | ⟨after, b, rfl⟩
    · exact .inl (List.cons.inj (List.append_inj' h rfl).2).1
    · rw [List.concat_eq_append, ← List.cons_append, ← List.append_assoc] at h
      obtain ⟨hhistory, hlast⟩ := List.append_inj' h rfl
      obtain rfl := (List.cons.inj hlast).1
      rw [List.concat_eq_append, List.forall_mem_append, List.forall_mem_singleton] at hafter
      exact .inr ⟨hafter.2, before, after, hhistory, hafter.1⟩
  · rintro (rfl | ⟨ha, before, after, rfl, hafter⟩)
    · exact ⟨history, [], rfl, fun b hb => by cases hb⟩
    · refine ⟨before, after ++ [a], by simp, ?_⟩
      rw [List.forall_mem_append, List.forall_mem_singleton]
      exact ⟨hafter, ha⟩

/-! ## 4. The log recalls the run -/

/-- The log has the mode that was chosen last, and remembers what was said. -/
structure Recalls (log : WarningLog) (history : List Action) : Prop where
  quiet : log.quiet = true ↔ IsQuiet history
  heard : ∀ key, key ∈ log.heard ↔ ∃ w, Said history w ∧ w.key = key

theorem recalls_fresh : fresh.Recalls [] where
  quiet := iff_of_false Bool.false_ne_true (not_since_nil _ _)
  heard _ := iff_of_false List.not_mem_nil fun ⟨_, hsaid, _⟩ => not_since_nil _ _ hsaid

theorem hear_fst (log : WarningLog) (w : Warning) :
    (log.hear w).1.quiet = log.quiet ∧
      ∀ key, key ∈ (log.hear w).1.heard ↔ key = w.key ∨ key ∈ log.heard := by
  rw [hear]
  split
  · next hheard =>
    rw [List.contains_iff_mem] at hheard
    refine ⟨rfl, fun key => ⟨.inr, ?_⟩⟩
    rintro (rfl | hkey)
    · exact hheard
    · exact hkey
  · exact ⟨rfl, fun key => List.mem_cons⟩

theorem hear_snd (log : WarningLog) (w : Warning) :
    (log.hear w).2 = if w.key ∈ log.heard ∨ log.quiet = true then "" else w.line := by
  rw [hear]
  by_cases hheard : w.key ∈ log.heard
  · rw [if_pos (List.contains_iff_mem.2 hheard), if_pos (.inl hheard)]
  · rw [if_neg (fun h => hheard (List.contains_iff_mem.1 h))]
    simp [hheard]

/-- Every action keeps the log in step with the run. -/
theorem Recalls.act {log : WarningLog} {history : List Action} (h : log.Recalls history)
    (a : Action) :
    (log.act a).1.Recalls (history ++ [a]) := by
  cases a with
  | warn w =>
    obtain ⟨hquiet, hheard⟩ := log.hear_fst w
    constructor
    · rw [IsQuiet, since_concat, WarningLog.act, hquiet, h.quiet, IsQuiet]
      simp
    · intro key
      rw [WarningLog.act, hheard, h.heard]
      simp only [Said, since_concat, Action.warn.injEq]
      simp [or_and_right, exists_or, eq_comm]
  | clear =>
    constructor
    · rw [IsQuiet, since_concat, WarningLog.act, clear, h.quiet, IsQuiet]
      simp
    · intro key
      refine iff_of_false List.not_mem_nil ?_
      simp [Said, since_concat]
  | setQuiet quiet =>
    constructor
    · rw [IsQuiet, since_concat]
      simp [WarningLog.act, WarningLog.setQuiet]
    · intro key
      rw [WarningLog.act, WarningLog.setQuiet, h.heard]
      simp [Said, since_concat]

theorem recalls_after (history : List Action) : (fresh.after history).Recalls history := by
  -- The newest action stands at the end of the history.
  induction history using List.reverseRecOn with
  | nil => exact recalls_fresh
  | append_singleton history a ih =>
    rw [after_concat]
    exact ih.act a

/-! ## 5. What is printed -/

/-- **A warning of a run is printed** if and only if the log is not quiet and no warning with its
text was said since the log last forgot. So the component and the message decide alone if and only
if the log is quiet, the same warning was said, or no warning was said that splits the same text in
another place. -/
theorem shown_warn (history later : List Action) (w : Warning) :
    ∃ text, (fresh.shown (history ++ .warn w :: later))[history.length]? = some text ∧
      (text = w.line ∨ text = "") ∧
      (text = w.line ↔ ¬IsQuiet history ∧ ¬∃ w', Said history w' ∧ w'.key = w.key) ∧
      ((text = w.line ↔ ¬IsQuiet history ∧ ¬Said history w) ↔
        IsQuiet history ∨ Said history w ∨
        ∀ w', Said history w' → ¬w.Splits w' ∧ ¬w'.Splits w) := by
  have hrecalls := recalls_after history
  have htext : ((fresh.after history).act (.warn w)).2 = w.line ↔
      ¬IsQuiet history ∧ ¬∃ w', Said history w' ∧ w'.key = w.key := by
    rw [← hrecalls.quiet, ← hrecalls.heard, act, hear_snd]
    split
    · next h => exact iff_of_false w.line_ne_empty.symm fun hnot => h.elim hnot.2 hnot.1
    · next h => exact iff_of_true rfl ((not_or.1 h).symm)
  refine ⟨_, getElem?_shown fresh history (.warn w) later, ?_, htext, ?_⟩
  · rw [act, hear_snd]
    split
    · exact .inr rfl
    · exact .inl rfl
  · rw [htext]
    by_cases hquiet : IsQuiet history
    · simp [hquiet]
    · by_cases hsaid : Said history w
      · have hheard : ∃ w', Said history w' ∧ w'.key = w.key := ⟨w, hsaid, rfl⟩
        simp [hquiet, hsaid, hheard]
      · -- Another warning with the text of this one splits it in another place.
        have hother : (∀ w', Said history w' → w'.key ≠ w.key) ↔
            ∀ w', Said history w' → ¬w.Splits w' ∧ ¬w'.Splits w := by
          refine forall₂_congr fun w' hw' => ?_
          rw [ne_eq, Warning.key_eq_iff, not_or, not_or, and_comm (a := ¬w.Splits w')]
          exact and_iff_right fun heq => hsaid (heq ▸ hw')
        simpa [hquiet, hsaid] using hother

/-- A bracket and a blank in the component: the second warning differs from the first in both parts,
the log is not quiet, and still nothing is printed. -/
theorem shown_warn_merged :
    let first : Warning := ⟨"a] b", "c"⟩
    let second : Warning := ⟨"a", "b] c"⟩
    fresh.shown [.warn first, .warn second] = [first.line, ""] ∧ second.line ≠ "" ∧
      ¬IsQuiet [.warn first] ∧ ¬Said [.warn first] second := by
  intro first second
  have hone : [Action.warn first] = [] ++ [.warn first] := rfl
  refine ⟨by decide +kernel, second.line_ne_empty, ?_, ?_⟩
  · rw [IsQuiet, hone, since_concat]
    simp [not_since_nil]
  · rw [Said, hone, since_concat]
    simp [not_since_nil, first, second]

end WarningLog

end UniqueSelector
