import Codemod.Guard.Evaluation
import Mathlib.Data.List.Basic

/-!
# Verdicts taken together

In a conjunction a verdict that accepts adds nothing, the first definite refusal outranks all that
is not one, and otherwise the first refusal stands. To take verdicts together in this way is
associative, and what the whole comes to for a rule does not depend on the order.
-/

namespace Codemod

/-- What a verdict comes to for a rule that matched: it may apply, it does not match after all, or
it is reported as undecided. -/
inductive Upshot where
  | admitted
  | unsatisfied
  | reportable
deriving DecidableEq, Repr

namespace Verdict

variable {first second verdict : Verdict} {verdicts others : List Verdict}

def upshot : Verdict → Upshot
  | .accept => .admitted
  | .refuse reason => if reason.isReportable then .reportable else .unsatisfied

/-- The verdict of two guards that must both hold, asked in this order. -/
def both (first second : Verdict) : Verdict :=
  match first with
  | .accept => second
  | .refuse reason =>
    if reason.isReportable && second.isUnsatisfied then second else .refuse reason

/-- The verdict so far when all that was asked accepted or left a refusal pending. -/
def ofPending : Option Refusal → Verdict
  | none => .accept
  | some reason => .refuse reason

private theorem isUnsatisfied_refuse (reason : Refusal) :
    isUnsatisfied (.refuse reason) = !reason.isReportable := by
  cases reason <;> rfl

theorem isUnsatisfied_ofPending {pending : Option Refusal}
    (reportable : ∀ reason, pending = some reason → reason.isReportable = true) :
    (ofPending pending).isUnsatisfied = false := by
  cases pending with
  | none => rfl
  | some reason => rw [ofPending, isUnsatisfied_refuse, reportable reason rfl, Bool.not_true]

@[simp] theorem accept_both (second : Verdict) : both .accept second = second := rfl

@[simp] theorem both_accept (first : Verdict) : both first .accept = first := by
  cases first with
  | accept => rfl
  | refuse reason => simp [both, isUnsatisfied]

theorem both_of_unsatisfied (definite : first.isUnsatisfied = true) (second : Verdict) :
    both first second = first := by
  cases first with
  | accept => contradiction
  | refuse reason =>
    rw [isUnsatisfied_refuse, Bool.not_eq_true'] at definite
    simp [both, definite]

private theorem refuse_both {reason : Refusal} (reportable : reason.isReportable = true)
    (second : Verdict) :
    both (.refuse reason) second = if second.isUnsatisfied then second else .refuse reason := by
  simp [both, reportable]

theorem both_eq_second (undecided : first.isUnsatisfied = false)
    (definite : second.isUnsatisfied = true) : both first second = second := by
  cases first with
  | accept => rfl
  | refuse reason =>
    rw [isUnsatisfied_refuse, Bool.not_eq_false'] at undecided
    rw [refuse_both undecided, if_pos definite]

theorem ofPending_both_refuse {pending : Option Refusal} {reason : Refusal}
    (reportable : reason.isReportable = true) :
    both (ofPending pending) (.refuse reason) = ofPending (pending.or (some reason)) := by
  cases pending with
  | none => rfl
  | some earlier => simp [ofPending, both, isUnsatisfied_refuse, reportable]

private theorem isUnsatisfied_both (first second : Verdict) :
    (both first second).isUnsatisfied = (first.isUnsatisfied || second.isUnsatisfied) := by
  cases definite : first.isUnsatisfied with
  | true => rw [both_of_unsatisfied definite, definite, Bool.true_or]
  | false =>
    cases later : second.isUnsatisfied with
    | true => rw [both_eq_second definite later, later, Bool.or_true]
    | false =>
      cases first with
      | accept => exact later
      | refuse reason => simp [both, later, definite]

private theorem both_eq_accept_iff :
    both first second = .accept ↔ first = .accept ∧ second = .accept := by
  cases first with
  | accept => simp
  | refuse reason =>
    cases second with
    | accept => simp
    | refuse other =>
      rw [both]
      split <;> simp

theorem both_assoc (first second third : Verdict) :
    both (both first second) third = both first (both second third) := by
  cases first with
  | accept => rfl
  | refuse reason =>
    cases reportable : reason.isReportable with
    | false =>
      have definite : isUnsatisfied (.refuse reason) = true := by simp [isUnsatisfied_refuse, reportable]
      simp only [both_of_unsatisfied definite]
    | true =>
      rw [refuse_both reportable, refuse_both reportable, isUnsatisfied_both]
      cases undecided : second.isUnsatisfied with
      | true => simp
      | false =>
        cases definite : third.isUnsatisfied with
        | true => simp [refuse_both reportable, definite, both_eq_second undecided definite]
        | false => simp [refuse_both reportable, definite]

/-- The verdict of guards that must all hold, asked in order. -/
def together (verdicts : List Verdict) : Verdict :=
  verdicts.foldr both .accept

@[simp] theorem together_cons (verdict : Verdict) (verdicts : List Verdict) :
    together (verdict :: verdicts) = verdict.both (together verdicts) := rfl

theorem together_append (verdicts others : List Verdict) :
    together (verdicts ++ others) = (together verdicts).both (together others) := by
  induction verdicts with
  | nil => rfl
  | cons verdict rest ih => rw [List.cons_append, together_cons, together_cons, ih, both_assoc]

theorem together_eq_accept_iff :
    together verdicts = .accept ↔ ∀ verdict ∈ verdicts, verdict = .accept := by
  induction verdicts with
  | nil => simp [together]
  | cons verdict rest ih => rw [together_cons, both_eq_accept_iff, ih, List.forall_mem_cons]

theorem isUnsatisfied_together :
    (together verdicts).isUnsatisfied = verdicts.any isUnsatisfied := by
  induction verdicts with
  | nil => rfl
  | cons verdict rest ih => rw [together_cons, isUnsatisfied_both, ih, List.any_cons]

/-- The first definite refusal decides. -/
theorem together_of_unsatisfied (found : verdicts.find? isUnsatisfied = some verdict) :
    together verdicts = verdict := by
  induction verdicts with
  | nil => contradiction
  | cons head rest ih =>
    rw [List.find?_cons] at found
    split at found
    · rename_i definite
      cases found
      rw [together_cons, both_of_unsatisfied definite]
    · rename_i undecided
      rw [together_cons, ih found, both_eq_second undecided (List.find?_some found)]

theorem together_of_refused (undecided : verdicts.find? isUnsatisfied = none)
    (found : verdicts.find? (· ≠ .accept) = some verdict) : together verdicts = verdict := by
  induction verdicts with
  | nil => contradiction
  | cons head rest ih =>
    rw [List.find?_eq_none, List.forall_mem_cons] at undecided
    rw [List.find?_cons] at found
    cases head with
    | accept => exact ih (List.find?_eq_none.mpr undecided.2) (by simpa using found)
    | refuse reason =>
      have later : (together rest).isUnsatisfied = false := by
        rw [isUnsatisfied_together, List.any_eq_false]
        exact undecided.2
      have reportable : reason.isReportable = true := by
        simpa [isUnsatisfied_refuse] using undecided.1
      rw [together_cons, refuse_both reportable, later]
      simpa using found

private theorem upshot_eq_admitted_iff : verdict.upshot = .admitted ↔ verdict = .accept := by
  cases verdict with
  | accept => simp [upshot]
  | refuse reason => cases reason <;> simp [upshot, Refusal.isReportable]

private theorem upshot_eq_unsatisfied_iff :
    verdict.upshot = .unsatisfied ↔ verdict.isUnsatisfied = true := by
  cases verdict with
  | accept => simp [upshot, isUnsatisfied]
  | refuse reason => cases reason <;> simp [upshot, isUnsatisfied, Refusal.isReportable]

/-- What verdicts come to together depends on which they are and not on their order. -/
theorem upshot_together_of_mem_iff (same : ∀ verdict, verdict ∈ verdicts ↔ verdict ∈ others) :
    (together verdicts).upshot = (together others).upshot := by
  have admitted : (together verdicts).upshot = .admitted ↔
      (together others).upshot = .admitted := by
    simp only [upshot_eq_admitted_iff, together_eq_accept_iff, same]
  have unsatisfied : (together verdicts).upshot = .unsatisfied ↔
      (together others).upshot = .unsatisfied := by
    simp only [upshot_eq_unsatisfied_iff, isUnsatisfied_together, List.any_eq_true, same]
  cases here : (together verdicts).upshot <;> cases there : (together others).upshot <;>
    simp_all

end Verdict

end Codemod
