import Mathlib.Data.List.Forall2

/-! Answers that may be errors: one that succeeds does so step by step, and over a list at every entry. -/
namespace ApproxQuery

variable {ε α β : Type}

theorem bind_eq_ok {act : Except ε α} {next : α → Except ε β} {b : β} :
    act >>= next = .ok b ↔ ∃ a, act = .ok a ∧ next a = .ok b := by
  cases act with
  | error e => exact ⟨nofun, fun ⟨_, same, _⟩ => nomatch same⟩
  | ok a =>
    constructor
    · exact fun done => ⟨a, rfl, done⟩
    · rintro ⟨_, ⟨⟩, done⟩
      exact done

theorem then_eq_ok {first : Except ε Unit} {next : Except ε β} {b : β} :
    (first >>= fun _ => next) = .ok b ↔ first = .ok () ∧ next = .ok b :=
  bind_eq_ok.trans ⟨fun ⟨_, both⟩ => both, fun both => ⟨(), both⟩⟩

theorem mapError_eq_ok {ε' : Type} {act : Except ε α} {wrap : ε → ε'} {a : α} :
    act.mapError wrap = .ok a ↔ act = .ok a := by
  cases act with
  | error e => exact iff_of_false nofun nofun
  | ok own =>
    constructor
    · exact fun same => congrArg Except.ok (Except.ok.inj same)
    · exact fun same => congrArg Except.ok (Except.ok.inj same)

theorem mapM_eq_ok {act : α → Except ε β} {as : List α} {bs : List β} :
    as.mapM act = .ok bs ↔ List.Forall₂ (fun a b => act a = .ok b) as bs := by
  induction as generalizing bs with
  | nil =>
    constructor
    · rintro ⟨⟩
      exact .nil
    · rintro ⟨⟩
      rfl
  | cons a as ih =>
    simp only [List.mapM_cons, bind_eq_ok, ih]
    constructor
    · rintro ⟨b, first, bs, rest, ⟨⟩⟩
      exact .cons first rest
    · rintro (_ | ⟨first, rest⟩)
      exact ⟨_, first, _, rest, rfl⟩

theorem forM_eq_ok {act : α → Except ε Unit} {as : List α} :
    as.forM act = .ok () ↔ ∀ a ∈ as, act a = .ok () := by
  induction as with
  | nil => exact iff_of_true rfl fun _ member => nomatch member
  | cons a as ih =>
    change (act a >>= fun _ => as.forM act) = .ok () ↔ _
    rw [then_eq_ok, List.forall_mem_cons, ih]

/-- There is an answer that is no error. -/
def Answers (act : Except ε α) : Prop := ∃ a, act = .ok a

@[simp] theorem answers_ok (a : α) : Answers (.ok a : Except ε α) := ⟨a, rfl⟩

@[simp] theorem answers_pure (a : α) : Answers (pure a : Except ε α) := ⟨a, rfl⟩

theorem not_answers_iff {act : Except ε α} : ¬ Answers act ↔ ∃ e, act = .error e := by
  cases act with
  | error e => exact iff_of_true nofun ⟨e, rfl⟩
  | ok a => exact iff_of_false (not_not.mpr ⟨a, rfl⟩) nofun

/-- Whether the next step answers does not hang on what came before it. -/
theorem answers_bind {act : Except ε α} {next : α → Except ε β} {P : Prop}
    (each : ∀ a, Answers (next a) ↔ P) : Answers (act >>= next) ↔ Answers act ∧ P := by
  cases act with
  | error e => exact iff_of_false nofun fun both => nomatch both.1
  | ok a => exact (each a).trans (and_iff_right ⟨a, rfl⟩).symm

theorem answers_map {act : Except ε α} (f : α → β) :
    Answers (act >>= fun a => pure (f a)) ↔ Answers act :=
  (answers_bind fun _ => iff_true_intro (answers_pure _)).trans (iff_of_eq (and_true _))

theorem answers_mapM {act : α → Except ε β} {as : List α} :
    Answers (as.mapM act) ↔ ∀ a ∈ as, Answers (act a) := by
  induction as with
  | nil => exact iff_of_true (answers_pure _) nofun
  | cons a as ih =>
    rw [List.mapM_cons, List.forall_mem_cons, ← ih]
    exact answers_bind fun b => answers_map _

/-- A fold that succeeds has succeeded at every entry. -/
theorem foldlM_ok_step {act : β → α → Except ε β} {as : List α} {start last : β}
    (done : as.foldlM act start = .ok last) {a : α} (member : a ∈ as) : ∃ b b', act b a = .ok b' := by
  induction as generalizing start with
  | nil => cases member
  | cons first rest ih =>
    rw [List.foldlM_cons, bind_eq_ok] at done
    obtain ⟨b, here, later⟩ := done
    rcases List.mem_cons.mp member with rfl | inRest
    · exact ⟨start, b, here⟩
    · exact ih later inRest

end ApproxQuery
