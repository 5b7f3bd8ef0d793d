import ApproxQuery.Proofs.Answers
import ApproxQuery.Proofs.AscendingMap
import ApproxQuery.Scramble.Catalog
import Mathlib.Data.List.Chain
import Mathlib.Data.String.Basic

/-! What validation of scramble metadata is good for: whatever is stored in a catalog is valid, has a
share for each of its blocks, and stands under its own name. -/
namespace ApproxQuery

instance : IsStrictTotalOrder TableName (· < ·) where
  trichotomous := by
    rintro ⟨schema, table⟩ ⟨schema', table'⟩ notBelow notAbove
    change ¬ (schema < schema' ∨ schema = schema' ∧ table < table') at notBelow
    change ¬ (schema' < schema ∨ schema' = schema ∧ table' < table) at notAbove
    obtain ⟨notBelow, sameBelow⟩ := not_or.mp notBelow
    obtain ⟨notAbove, sameAbove⟩ := not_or.mp notAbove
    obtain rfl : schema = schema' := le_antisymm (not_lt.mp notAbove) (not_lt.mp notBelow)
    obtain rfl : table = table' :=
      le_antisymm (not_lt.mp fun above => sameAbove ⟨rfl, above⟩) (not_lt.mp fun below => sameBelow ⟨rfl, below⟩)
    rfl
  irrefl := by
    rintro ⟨schema, table⟩ (below | ⟨_, below⟩)
    · exact lt_irrefl schema below
    · exact lt_irrefl table below
  trans := by
    rintro ⟨schema, table⟩ ⟨schema', table'⟩ ⟨schema'', table''⟩ (first | ⟨rfl, first⟩)
      (second | ⟨rfl, second⟩)
    · exact .inl (first.trans second)
    · exact .inl first
    · exact .inl second
    · exact .inr ⟨rfl, first.trans second⟩

namespace ScrambleMeta

/-- There are blocks, and there is a share for each of them. -/
def Covered (s : ScrambleMeta) : Prop := 0 < s.blockCount ∧ s.coverage.length = s.blockCount

/-- Metadata from which every prefix of the blocks can be scaled to the whole: the shares lie within
zero and one, do not fall, and end at one. -/
structure Valid (s : ScrambleMeta) : Prop where
  covered : s.Covered
  column : s.blockColumn ≠ ""
  within : ∀ share ∈ s.coverage, share > 0.0 ∧ share ≤ 1.0 + tolerance
  growing : (0.0 :: s.coverage).IsChain fun previous share => ¬ share + tolerance < previous
  whole : ¬ (s.coverage.getLast?.getD 0.0 - 1.0).abs > tolerance

/-- The metadata with the coverage filled in, if there is none. -/
def filled (s : ScrambleMeta) : ScrambleMeta :=
  if s.coverage.isEmpty then { s with coverage := uniformCoverage s.blockCount } else s

variable {s raw : ScrambleMeta}

theorem checkCoverage_eq_ok {index : Nat} {previous : Float} {shares : List Float} :
    checkCoverage index previous shares = .ok () ↔
      (∀ share ∈ shares, share > 0.0 ∧ share ≤ 1.0 + tolerance)
        ∧ (previous :: shares).IsChain (fun previous share => ¬ share + tolerance < previous)
        ∧ ¬ (shares.getLast?.getD previous - 1.0).abs > tolerance := by
  induction shares generalizing index previous with
  | nil =>
    unfold checkCoverage
    split
    · rename_i far
      exact iff_of_false nofun fun all => all.2.2 far
    · rename_i near
      exact iff_of_true rfl ⟨nofun, List.isChain_singleton previous, near⟩
  | cons share rest ih =>
    rw [List.forall_mem_cons, List.isChain_cons_cons, List.getLast?_cons, Option.getD_some]
    unfold checkCoverage
    split
    · rename_i bad
      refine iff_of_false nofun fun all => ?_
      simp [all.1.1, all.2.1.1] at bad
    · rename_i good
      simp only [Bool.or_eq_true, Bool.not_eq_true', Bool.and_eq_false_iff, decide_eq_true_eq,
        decide_eq_false_iff_not, not_or, not_not] at good
      obtain ⟨here, grows⟩ := good
      rw [ih, and_iff_right here, and_iff_right grows]

/-- The check accepts exactly the valid metadata. -/
theorem check_eq_ok : s.check = .ok () ↔ s.Valid := by
  unfold check
  split
  · rename_i none
    exact iff_of_false nofun fun valid => Nat.ne_of_gt valid.covered.1 none
  rename_i some
  split
  · rename_i unnamed
    exact iff_of_false nofun fun valid => valid.column (String.isEmpty_iff.mp unnamed)
  rename_i named
  split
  · rename_i uneven
    exact iff_of_false nofun fun valid => uneven valid.covered.2
  rename_i even
  rw [checkCoverage_eq_ok]
  constructor
  · rintro ⟨within, growing, whole⟩
    have column : s.blockColumn ≠ "" := fun empty => named (String.isEmpty_iff.mpr empty)
    exact ⟨⟨Nat.pos_of_ne_zero some, not_not.mp even⟩, column, within, growing, whole⟩
  · exact fun valid => ⟨valid.within, valid.growing, valid.whole⟩

theorem accept_eq_ok {s' : ScrambleMeta} : s.accept = .ok s' ↔ s.Valid ∧ s' = s := by
  unfold accept
  cases checked : s.check with
  | error fault =>
    refine iff_of_false nofun fun both => ?_
    cases checked.symm.trans (check_eq_ok.mpr both.1)
  | ok _ =>
    constructor
    · rintro ⟨⟩
      exact ⟨check_eq_ok.mp checked, rfl⟩
    · rintro ⟨_, rfl⟩
      rfl

/-- Validation answers with the metadata filled in, when that is valid. -/
theorem validated_eq_ok : raw.validated = .ok s ↔ raw.filled.Valid ∧ s = raw.filled := accept_eq_ok

theorem name_filled (s : ScrambleMeta) : s.filled.name = s.name := by
  unfold filled
  split <;> rfl

/-- Valid metadata has its coverage filled in already. -/
theorem Valid.filled_eq (valid : s.Valid) : s.filled = s := by
  have some : s.coverage ≠ [] := by
    rw [← List.length_pos_iff, valid.covered.2]
    exact valid.covered.1
  rw [filled, if_neg (mt List.isEmpty_iff.mp some)]

/-- Validation accepts what it has accepted as it is. -/
theorem Valid.validated_eq (valid : s.Valid) : s.validated = .ok s :=
  validated_eq_ok.mpr ⟨valid.filled_eq.symm ▸ valid, valid.filled_eq.symm⟩

theorem covered_of_check (checked : s.check = .ok ()) : s.Covered := (check_eq_ok.mp checked).covered

theorem check_of_validated (validated : raw.validated = .ok s) : s.check = .ok () := by
  obtain ⟨valid, rfl⟩ := validated_eq_ok.mp validated
  exact check_eq_ok.mpr valid

theorem Covered.scaleFactor {k : Nat} (covered : s.Covered) (started : 0 < k)
    (within : k ≤ s.blockCount) : ∃ scale, s.scaleFactor k = some scale := by
  cases k with
  | zero => cases started
  | succ k =>
    have inList : k < s.coverage.length := covered.2 ▸ within
    exact ⟨1.0 / s.coverage[k], by simp [ScrambleMeta.scaleFactor, inList]⟩

end ScrambleMeta

namespace Catalog

/-- All scrambles of the catalog are covered. -/
def Covered (c : Catalog) : Prop := ∀ name s, c.find? name = some s → s.Covered

/-- What every change of a catalog keeps: entries stand in the order of their names, each under its own
name and valid. -/
structure Kept (c : Catalog) : Prop where
  ordered : c.Ordered
  named : ∀ entry ∈ c.entries, entry.2.name = entry.1
  valid : ∀ entry ∈ c.entries, entry.2.Valid

variable {c c' : Catalog} {s : ScrambleMeta} {metas : List ScrambleMeta}

theorem kept_empty : Kept AscendingMap.empty := ⟨AscendingMap.ordered_empty, nofun, nofun⟩

theorem Kept.covered (kept : c.Kept) : c.Covered :=
  fun name _ found => (kept.valid (name, _) (kept.ordered.mem_entries.mpr found)).covered

theorem Kept.insert (kept : c.Kept) (valid : s.Valid) : Kept (AscendingMap.insert c s.name s) where
  ordered := kept.ordered.insert s.name s
  named := by
    intro entry member
    rcases AscendingMap.mem_insertIn member with rfl | old
    · rfl
    · exact kept.named entry old
  valid := by
    intro entry member
    rcases AscendingMap.mem_insertIn member with rfl | old
    · exact valid
    · exact kept.valid entry old

/-- Valid metadata is stored filled in. -/
theorem store_of_valid (c : Catalog) (valid : s.filled.Valid) :
    store s c = (.ok (), AscendingMap.insert c s.name s.filled) := by
  have validated : s.validated = .ok s.filled := ScrambleMeta.validated_eq_ok.mpr ⟨valid, rfl⟩
  unfold store
  rw [validated, ← s.name_filled]
  rfl

/-- Metadata is refused before anything is stored. -/
theorem store_of_invalid (c : Catalog) (invalid : ¬ s.filled.Valid) : ∃ e, store s c = (.error e, c) := by
  cases validated : s.validated with
  | error e =>
    refine ⟨e, ?_⟩
    unfold store
    rw [validated]
    rfl
  | ok own => exact absurd (ScrambleMeta.validated_eq_ok.mp validated).1 invalid

/-- Adding answers with what storing leaves. -/
theorem add_eq_ok : c.add s = .ok c' ↔ s.filled.Valid ∧ c' = AscendingMap.insert c s.name s.filled := by
  by_cases valid : s.filled.Valid
  · rw [add, store_of_valid c valid, and_iff_right valid, Except.ok.injEq, eq_comm]
  · obtain ⟨e, refused⟩ := store_of_invalid c valid
    rw [add, refused]
    exact iff_of_false nofun fun both => valid both.1

theorem Kept.store (kept : c.Kept) (s : ScrambleMeta) : Kept (store s c).2 := by
  by_cases valid : s.filled.Valid
  · rw [store_of_valid c valid, ← s.name_filled]
    exact kept.insert valid
  · obtain ⟨e, refused⟩ := store_of_invalid c valid
    rw [refused]
    exact kept

theorem Kept.add (kept : c.Kept) (added : c.add s = .ok c') : c'.Kept := by
  obtain ⟨valid, rfl⟩ := add_eq_ok.mp added
  rw [← s.name_filled]
  exact kept.insert valid

theorem Kept.addAll (kept : c.Kept) (added : c.addAll metas = .ok c') : c'.Kept := by
  induction metas generalizing c with
  | nil =>
    cases added
    exact kept
  | cons s rest ih =>
    obtain ⟨next, first, later⟩ := bind_eq_ok.mp added
    exact ih (kept.add first) later

theorem kept_ofList (read : ofList metas = .ok c) : c.Kept := kept_empty.addAll read

/-- Adding the values of a catalog behind smaller ones gives their entries back. -/
private theorem addAll_values (front : List (TableName × ScrambleMeta))
    {rest : List (TableName × ScrambleMeta)} (kept : Kept ⟨front ++ rest⟩) :
    addAll ⟨front⟩ (rest.map Prod.snd) = .ok ⟨front ++ rest⟩ := by
  induction rest generalizing front with
  | nil => rw [List.append_nil]; rfl
  | cons entry rest ih =>
    rcases entry with ⟨name, s⟩
    have member : (name, s) ∈ front ++ (name, s) :: rest := List.mem_append_right _ List.mem_cons_self
    have valid : s.Valid := kept.valid _ member
    obtain rfl : s.name = name := kept.named _ member
    have above : ∀ entry ∈ front, entry.1 < s.name :=
      fun entry inFront => (List.pairwise_append.mp kept.ordered).2.2 entry inFront _ List.mem_cons_self
    have stored : AscendingMap.insert ⟨front⟩ s.name s = (⟨front ++ [(s.name, s)]⟩ : Catalog) :=
      congrArg AscendingMap.mk (AscendingMap.insertIn_of_above above s)
    have first : add ⟨front⟩ s = .ok ⟨front ++ [(s.name, s)]⟩ := by
      refine add_eq_ok.mpr ⟨valid.filled_eq.symm ▸ valid, ?_⟩
      rw [valid.filled_eq, stored]
    have split : front ++ (s.name, s) :: rest = front ++ [(s.name, s)] ++ rest := List.append_cons _ _ _
    rw [List.map_cons, Catalog.addAll, first, split]
    exact ih _ (split ▸ kept)

/-- A catalog is read back from its list. -/
theorem Kept.ofList_toList (kept : c.Kept) : ofList c.toList = .ok c :=
  addAll_values [] kept

/-- A catalog is reached from the empty one by storing in place, refused or not, by adding, and by
reading lists. -/
inductive Reached : Catalog → Prop
  | empty : Reached AscendingMap.empty
  | stored {c : Catalog} (s : ScrambleMeta) : Reached c → Reached (store s c).2
  | added {c c' : Catalog} {s : ScrambleMeta} : Reached c → c.add s = .ok c' → Reached c'
  | listed {metas : List ScrambleMeta} {c : Catalog} : ofList metas = .ok c → Reached c

theorem Reached.kept (reached : c.Reached) : c.Kept := by
  induction reached with
  | empty => exact kept_empty
  | stored s _ ih => exact ih.store s
  | added _ added ih => exact ih.add added
  | listed read => exact kept_ofList read

/-- Storing succeeds in place where adding does. -/
theorem store_eq_ok : store s c = (.ok (), c') ↔ c.add s = .ok c' := by
  by_cases valid : s.filled.Valid
  · rw [add_eq_ok, store_of_valid c valid, and_iff_right valid, Prod.mk.injEq, and_iff_right rfl, eq_comm]
  · obtain ⟨e, refused⟩ := store_of_invalid c valid
    rw [add_eq_ok, refused]
    exact iff_of_false nofun fun both => valid both.1

/-- A reached catalog holds valid entries, filled in, each under its own name. Storing is refused
exactly for invalid metadata and then changes nothing; else it changes the entry of the one name. The
catalog is read back from its list. -/
theorem Reached.self_named (reached : c.Reached) :
    c.Ordered
      ∧ (∀ entry ∈ c.entries, entry.2.name = entry.1 ∧ entry.2.Valid ∧ entry.2.validated = .ok entry.2)
      ∧ (∀ s, (∃ c', store s c = (.ok (), c')) ↔ s.filled.Valid)
      ∧ (∀ s c' e, store s c = (.error e, c') → c' = c)
      ∧ (∀ s c', store s c = (.ok (), c') ∨ c.add s = .ok c' → c'.find? s.name = some s.filled
        ∧ ∀ name, name ≠ s.name → c'.find? name = c.find? name)
      ∧ ofList c.toList = .ok c := by
  have kept := reached.kept
  refine ⟨kept.ordered, fun entry member => ?_, fun s => ?_, fun s c' e refused => ?_,
    fun s c' done => ?_, kept.ofList_toList⟩
  · have valid := kept.valid entry member
    exact ⟨kept.named entry member, valid, valid.validated_eq⟩
  · simp only [store_eq_ok, add_eq_ok, exists_and_left, exists_eq, and_true]
  · by_cases valid : s.filled.Valid
    · cases (store_of_valid c valid).symm.trans refused
    · obtain ⟨e, kept⟩ := store_of_invalid c valid
      cases kept.symm.trans refused
      rfl
  · rw [store_eq_ok, or_self, add_eq_ok] at done
    obtain ⟨_, rfl⟩ := done
    refine ⟨?_, fun name other => ?_⟩
    · rw [AscendingMap.find?_insert, if_pos rfl]
    · rw [AscendingMap.find?_insert, if_neg other.symm]

section Sample

/-- The orders in two blocks, with no coverage given. -/
def unsharedOrders : ScrambleMeta := ⟨"shop", "orders", "block", 2, []⟩

/-- The second block would take away from the first. -/
def fallingRefunds : ScrambleMeta := ⟨"shop", "refunds", "block", 2, [0.5, 0.4]⟩

/-- A catalog into which both were to be stored. -/
def shopCatalog : Catalog := (store fallingRefunds (store unsharedOrders AscendingMap.empty).2).2

theorem shopCatalog_self_named : shopCatalog.Reached
    ∧ shopCatalog.find? ⟨"shop", "orders"⟩ = some unsharedOrders.filled
    ∧ shopCatalog.find? ⟨"shop", "refunds"⟩ = none
    ∧ ofList shopCatalog.toList = .ok shopCatalog := by
  have reached : shopCatalog.Reached := .stored _ (.stored _ .empty)
  obtain ⟨_, _, _, _, _, back⟩ := reached.self_named
  exact ⟨reached, rfl, rfl, back⟩

end Sample

end Catalog

end ApproxQuery
