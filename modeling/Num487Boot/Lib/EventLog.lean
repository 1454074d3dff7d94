import Mathlib.Logic.Basic

/-!
# Event Logs with a Gate

A log of events of which some open a gate and some close it. `Open` says that the gate is
open at the end of a log, `Gated` that every guarded event of the log happened while it was
open. Both are extended one batch of events at a time.

* `grown_trans`: what a log grows by in two steps.
* `Open.append`: events that do not close the gate leave it open.
* `Gated.append_of_open`, `Gated.append_of_unguarded`: what may be added to a gated log.
-/

namespace EventLog

variable {α : Type} {opens closes guarded : α → Prop} {log es : List α}

/-- The gate is open: an opening event with no closing one after it. -/
def Open (opens closes : α → Prop) (log : List α) : Prop :=
  ∃ pre e mid, log = pre ++ e :: mid ∧ opens e ∧ ∀ x ∈ mid, ¬ closes x

/-- Every guarded event happened while the gate was open. -/
def Gated (opens closes guarded : α → Prop) (log : List α) : Prop :=
  ∀ pre e post, log = pre ++ e :: post → guarded e → Open opens closes pre

/-- A log that grows twice by events with `P` has grown by events with `P`. -/
theorem grown_trans {P : α → Prop} {log₁ log₂ log₃ : List α}
    (h : ∃ es, log₂ = log₁ ++ es ∧ ∀ e ∈ es, P e)
    (h' : ∃ es, log₃ = log₂ ++ es ∧ ∀ e ∈ es, P e) :
    ∃ es, log₃ = log₁ ++ es ∧ ∀ e ∈ es, P e := by
  obtain ⟨es, rfl, hes⟩ := h
  obtain ⟨es', rfl, hes'⟩ := h'
  exact ⟨es ++ es', List.append_assoc .., List.forall_mem_append.mpr ⟨hes, hes'⟩⟩

/-- An opening event opens. -/
theorem Open.of_event {e : α} (h : opens e) : Open opens closes (log ++ [e]) :=
  ⟨log, e, [], rfl, h, by simp⟩

/-- What is open stays open as long as nothing closes it. -/
theorem Open.append (h : Open opens closes log) (hes : ∀ e ∈ es, ¬ closes e) :
    Open opens closes (log ++ es) := by
  obtain ⟨pre, e, mid, rfl, he, hmid⟩ := h
  refine ⟨pre, e, mid ++ es, by simp, he, fun x hx => ?_⟩
  rcases List.mem_append.mp hx with hx | hx
  · exact hmid x hx
  · exact hes x hx

/-- An empty log is gated. -/
theorem Gated.nil : Gated opens closes guarded [] := by
  intro pre e post h
  cases pre <;> cases h

/-- An event of a longer log is one of the old log or one of the new events. -/
theorem split_append {e : α} {pre post : List α} (h : log ++ es = pre ++ e :: post) :
    (∃ post', log = pre ++ e :: post') ∨ ∃ mid, pre = log ++ mid ∧ es = mid ++ e :: post := by
  rcases List.append_eq_append_iff.mp h with ⟨mid, hpre, hes⟩ | ⟨mid, hlog, hes⟩
  · exact .inr ⟨mid, hpre, hes⟩
  · rcases mid with _ | ⟨x, mid⟩
    · exact .inr ⟨[], by simpa using hlog.symm, hes.symm⟩
    · obtain ⟨rfl, -⟩ := List.cons.inj hes
      exact .inl ⟨mid, hlog⟩

/-- While the gate is open, any events may follow that do not close it. -/
theorem Gated.append_of_open (h : Gated opens closes guarded log) (hopen : Open opens closes log)
    (hes : ∀ e ∈ es, ¬ closes e) : Gated opens closes guarded (log ++ es) := by
  intro pre e post hsplit he
  rcases split_append hsplit with ⟨post', hlog⟩ | ⟨mid, rfl, rfl⟩
  · exact h pre e post' hlog he
  · exact hopen.append fun x hx => hes x (List.mem_append_left _ hx)

/-- Unguarded events may follow at any time. -/
theorem Gated.append_of_unguarded (h : Gated opens closes guarded log)
    (hes : ∀ e ∈ es, ¬ guarded e) : Gated opens closes guarded (log ++ es) := by
  intro pre e post hsplit he
  rcases split_append hsplit with ⟨post', hlog⟩ | ⟨mid, rfl, rfl⟩
  · exact h pre e post' hlog he
  · exact absurd he (hes e (by simp))

end EventLog
