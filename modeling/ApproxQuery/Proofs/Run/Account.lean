import ApproxQuery.Run.Machine
import Mathlib.Algebra.Ring.Nat

/-! What the scheduler has taken down of the tasks that it has joined. The order in which tasks end is open: a
failure aborts the run, so many cancelled tasks may be joined, before it as well as after it. Whatever the order,
the error that is taken down is none when all tasks have ended well, a cancellation when there is nothing else, and
otherwise the first that is more than a cancellation. -/
namespace ApproxQuery

theorem RunError.isCancelled_iff {e : RunError} : e.isCancelled = true ↔ e = .cancelled := by
  cases e with
  | cancelled => exact iff_of_true rfl rfl
  | _ => exact iff_of_false nofun nofun

def TaskOutcome.error? : TaskOutcome → Option RunError
  | .error e => some e
  | .ok _ => none

/-- How many increments a task has told of. -/
def TaskOutcome.updates : TaskOutcome → Nat
  | .ok report => report.updates
  | .error _ => 0

/-- The error of the task that was joined first among those with one that is more than a cancellation. -/
def FailsFirst (joined : List (NodeId × TaskOutcome)) (e : RunError) : Prop :=
  ∃ before id after, joined = before ++ (id, .error e) :: after
    ∧ ∀ other e', (other, .error e') ∈ before → e' = .cancelled

/-- Some task has failed, and all that have were cancelled. -/
def OnlyCancelled (joined : List (NodeId × TaskOutcome)) : Prop :=
  (∃ id e, (id, .error e) ∈ joined) ∧ ∀ id e, (id, .error e) ∈ joined → e = .cancelled

/-- The error of a run in which just these tasks have been joined. -/
inductive Classified (joined : List (NodeId × TaskOutcome)) : Option RunError → Prop
  | well (fine : ∀ id outcome, (id, outcome) ∈ joined → outcome.isOk = true) : Classified joined none
  | cancelled (only : OnlyCancelled joined) : Classified joined (some .cancelled)
  | failed {e : RunError} (real : e ≠ .cancelled) (first : FailsFirst joined e) : Classified joined (some e)

section Classes

variable {joined : List (NodeId × TaskOutcome)} {e e' : RunError} {error : Option RunError}

theorem FailsFirst.mem (first : FailsFirst joined e) : ∃ id, (id, .error e) ∈ joined := by
  obtain ⟨before, id, after, rfl, _⟩ := first
  exact ⟨id, List.mem_append_right before List.mem_cons_self⟩

theorem FailsFirst.append (first : FailsFirst joined e) (more : List (NodeId × TaskOutcome)) :
    FailsFirst (joined ++ more) e := by
  obtain ⟨before, id, after, rfl, earlier⟩ := first
  exact ⟨before, id, after ++ more, by simp, earlier⟩

/-- With nothing but cancellations before the second error, the first is no other. -/
private theorem eq_of_split {id id' : NodeId} {after between after' : List (NodeId × TaskOutcome)}
    (split : (id, .error e) :: after = between ++ (id', .error e') :: after')
    (earlier : ∀ other e, (other, .error e) ∈ between → e = .cancelled) (real : e ≠ .cancelled) : e = e' := by
  cases between with
  | nil =>
    cases split
    rfl
  | cons head between =>
    cases split
    exact absurd (earlier id e List.mem_cons_self) real

theorem FailsFirst.unique (first : FailsFirst joined e) (first' : FailsFirst joined e') (real : e ≠ .cancelled)
    (real' : e' ≠ .cancelled) : e = e' := by
  obtain ⟨before, id, after, rfl, earlier⟩ := first
  obtain ⟨before', id', after', split, earlier'⟩ := first'
  rcases List.append_eq_append_iff.mp split with ⟨between, rfl, rest⟩ | ⟨between, rfl, rest⟩
  · exact eq_of_split rest (fun other e member => earlier' other e (List.mem_append_right _ member)) real
  · exact (eq_of_split rest (fun other e member => earlier other e (List.mem_append_right _ member)) real').symm

theorem Classified.eq_none_iff (classified : Classified joined error) :
    error = none ↔ ∀ id outcome, (id, outcome) ∈ joined → outcome.isOk = true := by
  cases classified with
  | well fine => exact iff_of_true rfl fine
  | cancelled only =>
    obtain ⟨⟨id, e, member⟩, _⟩ := only
    exact iff_of_false nofun fun fine => nomatch fine id _ member
  | failed real first =>
    obtain ⟨id, member⟩ := first.mem
    exact iff_of_false nofun fun fine => nomatch fine id _ member

theorem Classified.eq_cancelled_iff (classified : Classified joined error) :
    error = some .cancelled ↔ OnlyCancelled joined := by
  cases classified with
  | well fine => exact iff_of_false nofun fun ⟨⟨id, e, member⟩, _⟩ => nomatch fine id _ member
  | cancelled only => exact iff_of_true rfl only
  | failed real first =>
    obtain ⟨id, member⟩ := first.mem
    exact iff_of_false (fun same => real (Option.some.inj same)) fun only => real (only.2 id _ member)

theorem Classified.eq_failed_iff (classified : Classified joined error) (real : e ≠ .cancelled) :
    error = some e ↔ FailsFirst joined e := by
  cases classified with
  | well fine =>
    refine iff_of_false nofun fun first => ?_
    obtain ⟨id, member⟩ := first.mem
    exact nomatch fine id _ member
  | cancelled only =>
    refine iff_of_false (fun same => real (Option.some.inj same).symm) fun first => ?_
    obtain ⟨id, member⟩ := first.mem
    exact real (only.2 id e member)
  | failed real' first =>
    exact ⟨fun same => Option.some.inj same ▸ first, fun first' => congrArg some (first.unique first' real' real)⟩

end Classes

/-- An account of just these tasks. -/
structure Account.Of (root : Option NodeId) (joined : List (NodeId × TaskOutcome)) (account : Account) : Prop where
  error : Classified joined account.error
  answer : ∀ {id report}, some id = root → (id, .ok report) ∈ joined →
    ∃ own, (id, .ok own) ∈ joined ∧ account.answer = own.result
  completed : account.completed = joined.countP fun entry => entry.2.isOk
  updates : account.updates = (joined.map fun entry => entry.2.updates).sum

namespace Account

variable {root : Option NodeId} {joined : List (NodeId × TaskOutcome)} {account : Account}

/-- A task that has ended well changes nothing about the failure of the run. -/
theorem classified_ok {error : Option RunError} (classified : Classified joined error) (id : NodeId)
    (report : Report) : Classified (joined ++ [(id, .ok report)]) error := by
  have old {other : NodeId} {e : RunError} (member : (other, .error e) ∈ joined ++ [(id, .ok report)]) :
      (other, .error e) ∈ joined := by
    simpa using member
  cases classified with
  | well fine =>
    refine .well fun other outcome member => ?_
    rcases List.mem_append.mp member with before | last
    · exact fine other outcome before
    · cases List.mem_singleton.mp last
      rfl
  | cancelled only =>
    obtain ⟨⟨other, e, member⟩, all⟩ := only
    exact .cancelled ⟨⟨other, e, List.mem_append_left _ member⟩, fun other e member => all other e (old member)⟩
  | failed real first => exact .failed real (first.append _)

theorem yieldsTo_iff {e : RunError} : account.yieldsTo e = true
    ↔ ∀ earlier, account.error = some earlier → earlier = .cancelled ∧ e ≠ .cancelled := by
  cases told : account.error with
  | none => simp [yieldsTo, told]
  | some earlier => simp [yieldsTo, told, ← RunError.isCancelled_iff]

/-- With a task that has failed the failure of the run is still the one to be told: a cancellation gives way to what is
more, and nothing else does. -/
theorem classified_error (classified : Classified joined account.error) (id : NodeId) (e : RunError) :
    Classified (joined ++ [(id, .error e)]) (account.note root (id, .error e)).error := by
  -- Where there have been cancellations only, the class goes by what kind of error this one is.
  have fresh (earlier : ∀ other e', (other, .error e') ∈ joined → e' = .cancelled) :
      Classified (joined ++ [(id, .error e)]) (some e) := by
    by_cases cancels : e = .cancelled
    · subst cancels
      refine .cancelled ⟨⟨id, .cancelled, by simp⟩, fun other e' member => ?_⟩
      rcases List.mem_append.mp member with before | last
      · exact earlier other e' before
      · cases List.mem_singleton.mp last
        rfl
    · exact .failed cancels ⟨joined, id, [], rfl, earlier⟩
  by_cases yields : account.yieldsTo e = true
  · rw [note, if_pos yields]
    refine fresh fun other e' member => ?_
    cases told : account.error with
    | none => exact nomatch classified.eq_none_iff.mp told other _ member
    | some earlier =>
      obtain ⟨rfl, _⟩ := yieldsTo_iff.mp yields earlier told
      exact (classified.eq_cancelled_iff.mp told).2 other e' member
  · rw [note, if_neg yields]
    simp only [yieldsTo_iff, not_forall, not_and_not_right] at yields
    obtain ⟨earlier, told, stays⟩ := yields
    by_cases cancels : earlier = .cancelled
    · cases stays cancels
      rw [told, cancels]
      exact fresh (classified.eq_cancelled_iff.mp (cancels ▸ told)).2
    · rw [told]
      exact .failed cancels (((classified.eq_failed_iff cancels).mp told).append _)

theorem note_error (id : NodeId) (e : RunError) : (account.note root (id, .error e)).answer = account.answer
    ∧ (account.note root (id, .error e)).completed = account.completed
    ∧ (account.note root (id, .error e)).updates = account.updates := by
  rw [note]
  split <;> exact ⟨rfl, rfl, rfl⟩

/-- What is taken down of one more task keeps the account. -/
theorem Of.note (kept : account.Of root joined) (entry : NodeId × TaskOutcome) :
    (account.note root entry).Of root (joined ++ [entry]) := by
  obtain ⟨id, outcome⟩ := entry
  cases outcome with
  | ok report =>
    refine ⟨classified_ok kept.error id report, ?_, ?_, ?_⟩
    · intro other told isRoot member
      by_cases own : some id = root
      · cases own.trans isRoot.symm
        exact ⟨report, by simp, if_pos own⟩
      · have before : (other, .ok told) ∈ joined := by
          refine (List.mem_append.mp member).resolve_right fun last => own ?_
          cases List.mem_singleton.mp last
          exact isRoot
        obtain ⟨first, noted, answer⟩ := kept.answer isRoot before
        exact ⟨first, List.mem_append_left _ noted, (if_neg own).trans answer⟩
    · rw [List.countP_append, ← kept.completed]
      rfl
    · rw [List.map_append, List.sum_append, ← kept.updates]
      rfl
  | error e =>
    obtain ⟨answer, completed, updates⟩ := @note_error root account id e
    refine ⟨classified_error kept.error id e, ?_, ?_, ?_⟩
    · intro other told isRoot member
      have before : (other, .ok told) ∈ joined := by simpa using member
      obtain ⟨first, noted, same⟩ := kept.answer isRoot before
      exact ⟨first, List.mem_append_left _ noted, answer.trans same⟩
    · rw [completed, kept.completed, List.countP_append]
      rfl
    · rw [updates, kept.updates, List.map_append, List.sum_append]
      rfl

theorem Of.foldl (kept : account.Of root joined) (more : List (NodeId × TaskOutcome)) :
    (more.foldl (Account.note root) account).Of root (joined ++ more) := by
  induction more generalizing account joined with
  | nil => rwa [List.append_nil]
  | cons entry rest ih =>
    rw [List.append_cons]
    exact ih (kept.note entry)

theorem Of.completed_eq (kept : account.Of root joined)
    (fine : ∀ id outcome, (id, outcome) ∈ joined → outcome.isOk = true) : account.completed = joined.length :=
  kept.completed.trans (List.countP_eq_length.mpr fun entry => fine entry.1 entry.2)

theorem outcome_eq_error {e : RunError} (failed : account.error = some e) : account.outcome = .error e := by
  rw [outcome, failed]

theorem outcome_eq_ok {result : QueryResult} (well : account.error = none) (answer : account.answer = some result) :
    account.outcome = .ok result := by
  rw [outcome, well, answer]

end Account

namespace RunState

/-- The account that the scheduler closes is one of all joined tasks, in whatever order they were joined. -/
theorem account_of (st : RunState) (root : Option NodeId) : (st.account root).Of root st.joined := by
  have empty : ({} : Account).Of root [] := ⟨.well nofun, nofun, rfl, rfl⟩
  exact empty.foldl st.joined

end RunState

end ApproxQuery
