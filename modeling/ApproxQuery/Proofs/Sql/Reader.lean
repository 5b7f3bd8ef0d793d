import ApproxQuery.Sql.Render
import Mathlib.Data.List.Infix

/-! Readers of SQL text, put together from words, quoted names and runs of characters. A reader that
takes a text does so whatever stands behind it, as long as that opens with one of some words. -/
namespace ApproxQuery.Sql

/-- Takes a value off the front of a text, if there is one. -/
abbrev Reader := StateT (List Char) Option

namespace Reader

variable {α β : Type}

def word (w : String) : Reader Unit := fun text => (text.dropPrefix? w.toList).map fun rest => ((), rest)

/-- Goes on as the first word of a table says that is there. -/
def choose (otherwise : Reader α) : List (String × Reader α) → Reader α
  | [], text => otherwise text
  | (w, read) :: rest, text =>
    match text.dropPrefix? w.toList with
    | some left => read left
    | none => choose otherwise rest text

/-- What follows a word, or else a value for its absence. -/
def clause (w : String) (read : Reader α) (absent : α) : Reader α := choose (pure absent) [(w, read)]

/-- The longest run of characters that pass. -/
def run (pass : Char → Bool) : Reader String := fun text =>
  some (String.ofList (text.takeWhile pass), text.dropWhile pass)

/-- A text up to a quote that is not doubled. -/
def enclosed (quote : Char) : List Char → Option (List Char × List Char)
  | [] => none
  | c :: rest =>
    if c = quote then
      match rest with
      | [] => some ([], [])
      | next :: more =>
        if next = quote then (enclosed quote more).map fun (text, left) => (quote :: text, left)
        else some ([], next :: more)
    else (enclosed quote rest).map fun (text, left) => (c :: text, left)

/-- A text whose opening quote has been read. -/
def closing (quote : Char) : Reader String := fun text =>
  (enclosed quote text).map fun (text, left) => (String.ofList text, left)

/-- Further values behind commas. -/
def further (read : Reader α) : Nat → Reader (List α)
  | 0 => pure []
  | count + 1 => clause ", " (do
      let first ← read
      return first :: (← further read count)) []

/-- One value or more, separated by commas. -/
def separated (read : Reader α) : Reader (List α) := fun text => (do
  let first ← read
  return first :: (← further read text.length)) text

end Reader

section Opening

/-- The text is over, or opens with one of the words. -/
def Opens (words : List String) (text : List Char) : Prop :=
  text = [] ∨ ∃ w ∈ words, w.toList <+: text

/-- Neither word opens with the other. -/
def Apart (v w : String) : Prop := ¬ v.toList <+: w.toList ∧ ¬ w.toList <+: v.toList

instance (v w : String) : Decidable (Apart v w) := inferInstanceAs (Decidable (_ ∧ _))

variable {words more : List String} {v w : String} {text rest : List Char}

theorem Opens.mono (opens : Opens words text) (covered : ∀ w ∈ words, ∃ v ∈ more, v.toList <+: w.toList) :
    Opens more text := by
  refine opens.imp_right fun ⟨w, member, begins⟩ => ?_
  obtain ⟨v, inMore, shorter⟩ := covered w member
  exact ⟨v, inMore, shorter.trans begins⟩

theorem Opens.subset (opens : Opens words text) (subset : words ⊆ more) : Opens more text :=
  opens.mono fun w member => ⟨w, subset member, List.prefix_rfl⟩

theorem opens_append (member : v ∈ words) (s : String) (rest : List Char) :
    Opens words ((v ++ s).toList ++ rest) := by
  refine .inr ⟨v, member, ?_⟩
  rw [String.toList_append, List.append_assoc]
  exact List.prefix_append _ _

theorem dropPrefix?_word (w : String) (rest : List Char) :
    (w.toList ++ rest).dropPrefix? w.toList = some rest :=
  List.dropPrefix?_eq_some_iff.mpr ⟨w.toList, rfl, beq_self_eq_true _⟩

/-- A word is not there where only words apart from it may be. -/
theorem Opens.refuses (opens : Opens words text) (apart : ∀ v ∈ words, Apart v w) (some : w ≠ "") :
    text.dropPrefix? w.toList = none := by
  cases found : text.dropPrefix? w.toList with
  | none => rfl
  | some rest =>
    obtain ⟨w', rfl, same⟩ := List.dropPrefix?_eq_some_iff.mp found
    obtain rfl := eq_of_beq same
    rcases opens with none | ⟨v, member, begins⟩
    · exact absurd (String.toList_eq_nil_iff.mp (List.append_eq_nil_iff.mp none).1) some
    · obtain ⟨forth, back⟩ := apart v member
      exact (List.prefix_or_prefix_of_prefix begins (List.prefix_append _ _)).elim (absurd · forth)
        (absurd · back)

end Opening

/-- The reader takes the value off the text, whatever follows as it may. -/
def Takes {α : Type} (read : Reader α) (s : String) (value : α) (follow : List Char → Prop) : Prop :=
  ∀ rest, follow rest → read (s.toList ++ rest) = some (value, rest)

namespace Takes

open Reader

variable {α β : Type} {read : Reader α} {next : α → Reader β} {s t w : String} {a : α} {b : β}
  {follow later : List Char → Prop}

theorem mono (takes : Takes read s a follow) (allowed : ∀ rest, later rest → follow rest) :
    Takes read s a later := fun rest follows => takes rest (allowed rest follows)

theorem pure (a : α) : Takes (pure a) "" a follow := fun _ _ => rfl

theorem bind (first : Takes read s a follow) (second : Takes (next a) t b later)
    (allowed : ∀ rest, later rest → follow (t.toList ++ rest)) : Takes (read >>= next) (s ++ t) b later := by
  intro rest follows
  rw [String.toList_append, List.append_assoc]
  change (read _).bind (fun p => next p.1 p.2) = _
  rw [first _ (allowed rest follows)]
  exact second rest follows

theorem bind_pure (takes : Takes read s a follow) (f : α → β) :
    Takes (do return f (← read)) s (f a) follow := by
  have both : Takes (do return f (← read)) (s ++ "") (f a) follow :=
    takes.bind (pure (f a)) fun _ follows => follows
  rwa [String.append_empty] at both

theorem word (w : String) : Takes (word w) w () follow := by
  intro rest _
  rw [Reader.word, dropPrefix?_word]
  rfl

theorem behind (w : String) (takes : Takes read s a follow) :
    Takes (do
      Reader.word w
      read) (w ++ s) a follow :=
  have there : Takes (Reader.word w) w () fun _ => True := word w
  there.bind takes fun _ _ => trivial

theorem upTo {words : List String} (takes : Takes read s a (Opens words)) (f : α → β)
    (closes : ∃ v ∈ words, v.toList <+: w.toList) : Takes (do
      let a ← read
      Reader.word w
      return f a) (s ++ w) (f a) follow := by
  refine takes.bind ((word w).bind_pure fun _ => f a) fun rest _ => ?_
  obtain ⟨v, member, begins⟩ := closes
  exact .inr ⟨v, member, begins.trans (List.prefix_append _ _)⟩

/-- One entry of a table, of which no word opens another. -/
theorem choose {table : List (String × Reader α)} {otherwise : Reader α} (member : (w, read) ∈ table)
    (apart : (table.map Prod.fst).Pairwise Apart) (filled : "" ∉ table.map Prod.fst)
    (takes : Takes read s a follow) : Takes (choose otherwise table) (w ++ s) a follow := by
  induction table with
  | nil => cases member
  | cons entry rest ih =>
    obtain ⟨first, apartRest⟩ := List.pairwise_cons.mp apart
    rw [List.map_cons, List.mem_cons, not_or] at filled
    intro left follows
    rcases List.mem_cons.mp member with rfl | later
    · rw [Reader.choose, String.toList_append, List.append_assoc, dropPrefix?_word]
      exact takes left follows
    · -- The word that is there rules out the earlier one.
      have here : Opens [w] ((w ++ s).toList ++ left) := opens_append List.mem_cons_self s left
      have other : Apart w entry.1 := (first w (List.mem_map_of_mem later)).symm
      rw [Reader.choose, here.refuses (fun v own => List.mem_singleton.mp own ▸ other) (Ne.symm filled.1)]
      exact ih later apartRest filled.2 left follows

/-- Where no word of a table is there, the text is read otherwise. -/
theorem otherwise {table : List (String × Reader α)} (takes : Takes read s a follow) (words : List String)
    (apart : ∀ w ∈ table.map Prod.fst, w ≠ "" ∧ ∀ v ∈ words, Apart v w)
    (opens : ∀ rest, follow rest → Opens words (s.toList ++ rest)) :
    Takes (Reader.choose read table) s a follow := by
  induction table with
  | nil => exact takes
  | cons entry rest ih =>
    obtain ⟨⟨filled, own⟩, apartRest⟩ := List.forall_mem_cons.mp apart
    intro left follows
    rw [Reader.choose, (opens left follows).refuses own filled]
    exact ih apartRest left follows

theorem present {otherwise : Reader α} (filled : w ≠ "") (takes : Takes read s a follow) :
    Takes (Reader.choose otherwise [(w, read)]) (w ++ s) a follow :=
  takes.choose List.mem_cons_self (List.pairwise_singleton _ _) (by simpa using Ne.symm filled)

theorem absent {other : Reader α} (takes : Takes read s a follow) (words : List String) (filled : w ≠ "")
    (apart : ∀ v ∈ words, Apart v w) (opens : ∀ rest, follow rest → Opens words (s.toList ++ rest)) :
    Takes (Reader.choose read [(w, other)]) s a follow :=
  takes.otherwise words (fun _ member => List.mem_singleton.mp member ▸ ⟨filled, apart⟩) opens

end Takes

section Phrases

variable {α : Type} {read : Reader α} {absent a : α} {s w : String} {words : List String}

/-- A clause is left out, or stands behind its word. -/
structure Phrase (w : String) (read : Reader α) (absent : α) (s : String) (a : α) (words : List String) :
    Prop where
  takes : Takes (Reader.clause w read absent) s a (Opens words)
  opens : ∀ rest, Opens words rest → Opens (w :: words) (s.toList ++ rest)

theorem Phrase.leftOut (filled : w ≠ "") (apart : ∀ v ∈ words, Apart v w) :
    Phrase w read absent "" absent words where
  takes := (Takes.pure absent).absent words filled apart fun _ opens => opens
  opens := fun _ opens => opens.subset (List.subset_cons_self w words)

theorem Phrase.stands (filled : w ≠ "") (takes : Takes read s a (Opens words)) :
    Phrase w read absent (w ++ s) a words where
  takes := takes.present filled
  opens := fun rest _ => opens_append List.mem_cons_self s rest

variable {β : Type} {next : α → Reader β} {b : β} {t : String} {ends : List String}

/-- The clauses that are left of a statement. They are taken up to what ends it. -/
structure Tail (read : Reader β) (t : String) (b : β) (words ends : List String) : Prop where
  takes : Takes read t b (Opens ends)
  opens : ∀ rest, Opens ends rest → Opens words (t.toList ++ rest)

theorem Phrase.tail (clause : Phrase w read absent s a words) (tail : Tail (next a) t b words ends) :
    Tail (Reader.clause w read absent >>= next) (s ++ t) b (w :: words) ends where
  takes := clause.takes.bind tail.takes tail.opens
  opens := fun rest follows => by
    rw [String.toList_append, List.append_assoc]
    exact clause.opens _ (tail.opens rest follows)

theorem Phrase.last (clause : Phrase w read absent s a ends) (f : α → β) :
    Tail (do return f (← Reader.clause w read absent)) s (f a) (w :: ends) ends where
  takes := clause.takes.bind_pure f
  opens := clause.opens

end Phrases

section Runs

/-- The characters with which words open. -/
def heads (words : List String) : List Char := words.filterMap fun w => w.toList.head?

variable {words : List String} {rest : List Char}

theorem Opens.head (opens : Opens words rest) (filled : "" ∉ words) {c : Char} (first : rest.head? = some c) :
    c ∈ heads words := by
  rcases opens with rfl | ⟨w, member, tail, rfl⟩
  · cases first
  · refine List.mem_filterMap.mpr ⟨w, member, ?_⟩
    cases characters : w.toList with
    | nil => exact absurd (String.toList_eq_nil_iff.mp characters ▸ member) filled
    | cons c' more =>
      rw [characters] at first
      exact first

theorem Takes.run {pass : Char → Bool} {s : String} (all : s.toList.all pass = true)
    (filled : "" ∉ words) (stops : (heads words).any pass = false) :
    Takes (Reader.run pass) s s (Opens words) := by
  rw [List.all_eq_true] at all
  rw [List.any_eq_false] at stops
  intro rest opens
  have none : rest.takeWhile pass = [] ∧ rest.dropWhile pass = rest := by
    cases rest with
    | nil => exact ⟨rfl, rfl⟩
    | cons c more =>
      have stop : ¬ pass c = true := stops c (opens.head filled rfl)
      exact ⟨List.takeWhile_cons_of_neg stop, List.dropWhile_cons_of_neg stop⟩
  rw [Reader.run, List.takeWhile_append_of_pos all, List.dropWhile_append_of_pos all, none.1, none.2,
    List.append_nil, String.ofList_toList]

private theorem enclosed_doubled (quote : Char) (text rest : List Char) (ends : rest.head? ≠ some quote) :
    Reader.enclosed quote (doubled quote text ++ quote :: rest) = some (text, rest) := by
  induction text with
  | nil =>
    cases rest with
    | nil => simp [doubled, Reader.enclosed]
    | cons next more =>
      have other : next ≠ quote := fun same => ends (congrArg some same)
      simp [doubled, Reader.enclosed, other]
  | cons c text ih =>
    by_cases same : c = quote
    · subst same
      simp [doubled, Reader.enclosed, ih]
    · rw [doubled, if_neg same, List.cons_append, Reader.enclosed.eq_def]
      simp [same, ih]

/-- A quoted text ends where no other quote follows. -/
theorem Takes.closing {quote : Char} (name : String) (filled : "" ∉ words) (stops : quote ∉ heads words) :
    Takes (Reader.closing quote) (String.ofList (doubled quote name.toList ++ [quote])) name
      (Opens words) := by
  intro rest opens
  have ends : rest.head? ≠ some quote := fun first => stops (opens.head filled first)
  rw [String.toList_ofList, List.append_assoc, List.singleton_append, Reader.closing,
    enclosed_doubled quote name.toList rest ends, Option.map_some]
  exact congrArg (fun name => some (name, rest)) String.ofList_toList

end Runs

section Lists

variable {α : Type} {read : Reader α} {texts : List String} {values : List α} {words : List String}

private theorem Takes.cons {more : Reader (List α)} {s t : String} {a : α} {follow later : List Char → Prop}
    (first : Takes read s a follow) (rest : Takes more t values later)
    (allowed : ∀ rest, later rest → follow (t.toList ++ rest)) :
    Takes (do
      let first ← read
      return first :: (← more)) (s ++ t) (a :: values) later :=
  first.bind (rest.bind_pure (a :: ·)) allowed

/-- What stands behind the first of several items. -/
private def behind : List String → String
  | [] => ""
  | s :: rest => ", " ++ (s ++ behind rest)

private theorem commas_cons (s : String) (rest : List String) : commas (s :: rest) = s ++ behind rest := by
  induction rest generalizing s with
  | nil => exact String.append_empty.symm
  | cons t rest ih =>
    rw [commas, ih, behind, String.append_assoc]
    exact nofun

/-- A list opens as its first item does. -/
theorem opens_commas {s : String} (opens : ∀ rest, Opens words (s.toList ++ rest)) (texts : List String)
    (rest : List Char) : Opens words ((commas (s :: texts)).toList ++ rest) := by
  rw [commas_cons, String.toList_append, List.append_assoc]
  exact opens _

theorem length_le_commas {s : String} (member : s ∈ texts) : s.length ≤ (commas texts).length := by
  induction texts with
  | nil => cases member
  | cons first rest ih =>
    have tail : (commas rest).length ≤ (behind rest).length := by
      cases rest with
      | nil => exact Nat.zero_le _
      | cons t rest =>
        rw [commas_cons, behind, String.length_append ", "]
        exact Nat.le_add_left _ _
    rw [commas_cons, String.length_append]
    rcases List.mem_cons.mp member with rfl | later
    · exact Nat.le_add_right _ _
    · exact (ih later).trans (tail.trans (Nat.le_add_left _ _))

private theorem length_behind (rest : List String) : rest.length ≤ (behind rest).length := by
  induction rest with
  | nil => exact Nat.zero_le _
  | cons s rest ih =>
    have comma : ", ".length = 2 := rfl
    rw [behind, String.length_append, String.length_append, List.length_cons]
    omega

private theorem takes_further (apart : ∀ v ∈ words, Apart v ", ")
    (each : List.Forall₂ (fun s a => Takes read s a (Opens (", " :: words))) texts values)
    (count : Nat) (enough : texts.length ≤ count) :
    Takes (Reader.further read count) (behind texts) values (Opens words)
      ∧ ∀ rest, Opens words rest → Opens (", " :: words) ((behind texts).toList ++ rest) := by
  induction each generalizing count with
  | nil =>
    cases count with
    | zero => exact ⟨.pure [], fun rest opens => opens.subset (List.subset_cons_self _ _)⟩
    | succ count =>
      have clause : Phrase ", " (do
        let first ← read
        return first :: (← Reader.further read count)) [] "" [] words := .leftOut nofun apart
      exact ⟨clause.takes, clause.opens⟩
  | @cons s a texts values first _ ih =>
    obtain ⟨count, rfl⟩ := Nat.exists_eq_add_of_lt (Nat.lt_of_lt_of_le (Nat.zero_lt_succ _) enough)
    rw [Nat.zero_add] at enough ⊢
    obtain ⟨takes, opens⟩ := ih count (Nat.le_of_succ_le_succ enough)
    have clause : Phrase ", " _ [] (", " ++ (s ++ behind texts)) (a :: values) words :=
      .stands nofun (first.cons takes opens)
    exact ⟨clause.takes, clause.opens⟩

/-- The items of a list are taken one after the other. -/
theorem Takes.separated (apart : ∀ v ∈ words, Apart v ", ") (some : texts ≠ [])
    (each : List.Forall₂ (fun s a => Takes read s a (Opens (", " :: words))) texts values) :
    Takes (Reader.separated read) (commas texts) values (Opens words) := by
  cases each with
  | nil => exact absurd rfl some
  | @cons s a texts values first later =>
    intro rest follows
    have enough : texts.length ≤ ((commas (s :: texts)).toList ++ rest).length := by
      have behind := length_behind texts
      rw [commas_cons, List.length_append, String.length_toList, String.length_append]
      omega
    obtain ⟨takes, opens⟩ := takes_further apart later _ enough
    have both := first.cons takes opens rest follows
    rw [← commas_cons] at both
    exact both

end Lists

end ApproxQuery.Sql
