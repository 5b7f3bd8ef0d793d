import ApproxQuery.Ascending
import ApproxQuery.AscendingMap
import ApproxQuery.Id
import Mathlib.Data.List.Sort

/-! Ascending sets and maps over a strict total order: a set is determined by its members, and
the entries of a map are exactly what it answers for its keys. -/
namespace ApproxQuery

instance : IsStrictTotalOrder NodeId (· < ·) where
  trichotomous := by
    rintro ⟨a⟩ ⟨b⟩ notBelow notAbove
    exact congrArg NodeId.mk (Nat.le_antisymm (Nat.not_lt.mp notAbove) (Nat.not_lt.mp notBelow))
  irrefl := fun a => Nat.lt_irrefl a.index
  trans := fun _ _ _ first second => Nat.lt_trans first second

instance : IsStrictTotalOrder QueueId (· < ·) where
  trichotomous := by
    rintro ⟨a⟩ ⟨b⟩ notBelow notAbove
    exact congrArg QueueId.mk (Nat.le_antisymm (Nat.not_lt.mp notAbove) (Nat.not_lt.mp notBelow))
  irrefl := fun a => Nat.lt_irrefl a.index
  trans := fun _ _ _ first second => Nat.lt_trans first second

variable {κ α : Type} [LT κ] [DecidableLT κ] [DecidableEq κ] [IsStrictTotalOrder κ (· < ·)]

omit [DecidableLT κ] [DecidableEq κ] in
private theorem below_of_not_above {a b : κ} (different : a ≠ b) (notAbove : ¬ a < b) : b < a := by
  rcases trichotomous_of (· < ·) a b with below | same | above
  · exact False.elim (notAbove below)
  · exact False.elim (different same)
  · exact above

theorem pairwise_insertAscending (a : κ) {values : List κ} (sorted : values.Pairwise (· < ·)) :
    (insertAscending a values).Pairwise (· < ·) := by
  induction values with
  | nil => simp [insertAscending]
  | cons b rest ih =>
    obtain ⟨above, sortedRest⟩ := List.pairwise_cons.mp sorted
    unfold insertAscending
    split
    · exact sorted
    · rename_i different
      split
      · rename_i below
        refine List.pairwise_cons.mpr ⟨?_, sorted⟩
        intro c member
        rcases List.mem_cons.mp member with same | later
        · exact same ▸ below
        · exact trans_of (· < ·) below (above c later)
      · rename_i notBelow
        refine List.pairwise_cons.mpr ⟨?_, ih sortedRest⟩
        intro c member
        rcases mem_insertAscending.mp member with same | later
        · exact same ▸ below_of_not_above different notBelow
        · exact above c later

theorem pairwise_ascending (values : List κ) : (ascending values).Pairwise (· < ·) := by
  induction values with
  | nil => exact List.Pairwise.nil
  | cons a rest ih => exact pairwise_insertAscending a ih

theorem nodup_ascending (values : List κ) : (ascending values).Nodup :=
  (pairwise_ascending values).nodup

/-- Lists with the same members make the same ascending set. -/
theorem ascending_eq_iff {left right : List κ} :
    ascending left = ascending right ↔ ∀ x, x ∈ left ↔ x ∈ right := by
  constructor
  · intro same x
    rw [← mem_ascending, same, mem_ascending]
  · intro same
    refine (pairwise_ascending left).eq_of_mem_iff (pairwise_ascending right) ?_
    intro x
    rw [mem_ascending, mem_ascending]
    exact same x

/-- The first of an ascending set is the least of its values. -/
theorem head?_ascending_eq_some {values : List κ} {least : κ} :
    (ascending values).head? = some least ↔ least ∈ values ∧ ∀ other ∈ values, ¬ other < least := by
  have sorted := pairwise_ascending values
  have member : ∀ x, x ∈ values ↔ x ∈ ascending values := fun _ => mem_ascending.symm
  simp only [member]
  cases all : ascending values with
  | nil => exact iff_of_false nofun fun member => nomatch member.1
  | cons first rest =>
    rw [all] at sorted
    have above := (List.pairwise_cons.mp sorted).1
    rw [List.head?_cons, Option.some_inj]
    constructor
    · rintro rfl
      refine ⟨List.mem_cons_self, List.forall_mem_cons.mpr ⟨irrefl_of (· < ·) first, fun other later => ?_⟩⟩
      exact asymm_of (· < ·) (above other later)
    · rintro ⟨member, minimal⟩
      refine ((List.mem_cons.mp member).resolve_right fun later => ?_).symm
      exact minimal first List.mem_cons_self (above least later)

theorem length_ascending_le (values : List κ) : (ascending values).length ≤ values.length := by
  have within : ascending values ⊆ values := fun _ => mem_ascending.mp
  exact (List.subperm_of_subset (nodup_ascending values) within).length_le

namespace AscendingMap

/-- Keys ascend strictly, so no key stands twice. -/
def Ordered (m : AscendingMap κ α) : Prop := m.entries.Pairwise fun a b => a.1 < b.1

omit [DecidableLT κ] [DecidableEq κ] [IsStrictTotalOrder κ (· < ·)] in
theorem ordered_empty : (empty : AscendingMap κ α).Ordered := List.Pairwise.nil

omit [IsStrictTotalOrder κ (· < ·)] in
theorem mem_insertIn {key : κ} {value : α} {entries : List (κ × α)} {entry : κ × α}
    (member : entry ∈ insertIn key value entries) : entry = (key, value) ∨ entry ∈ entries := by
  induction entries with
  | nil => simpa [insertIn] using member
  | cons first rest ih =>
    rcases first with ⟨k, old⟩
    unfold insertIn at member
    split at member
    · rcases List.mem_cons.mp member with same | later
      · exact .inl same
      · exact .inr (List.mem_cons_of_mem _ later)
    · split at member
      · exact List.mem_cons.mp member
      · rcases List.mem_cons.mp member with same | later
        · exact .inr (same ▸ List.mem_cons_self)
        · exact (ih later).imp id (List.mem_cons_of_mem _)

theorem Ordered.insert {m : AscendingMap κ α} (ordered : m.Ordered) (key : κ) (value : α) :
    (m.insert key value).Ordered := by
  rcases m with ⟨entries⟩
  simp only [Ordered, AscendingMap.insert] at ordered ⊢
  induction entries with
  | nil => simp [insertIn]
  | cons first rest ih =>
    rcases first with ⟨k, old⟩
    obtain ⟨above, sortedRest⟩ := List.pairwise_cons.mp ordered
    unfold insertIn
    split
    · rename_i same
      exact List.pairwise_cons.mpr ⟨fun entry member => same ▸ above entry member, sortedRest⟩
    · rename_i different
      split
      · rename_i below
        refine List.pairwise_cons.mpr ⟨?_, ordered⟩
        intro entry member
        rcases List.mem_cons.mp member with same | later
        · exact same ▸ below
        · exact trans_of (· < ·) below (above entry later)
      · rename_i notBelow
        refine List.pairwise_cons.mpr ⟨?_, ih sortedRest⟩
        intro entry member
        rcases mem_insertIn member with same | later
        · rw [same]
          exact below_of_not_above (Ne.symm different) notBelow
        · exact above entry later

/-- A key above all others is set behind them. -/
theorem insertIn_of_above {key : κ} {entries : List (κ × α)} (above : ∀ entry ∈ entries, entry.1 < key)
    (value : α) : insertIn key value entries = entries ++ [(key, value)] := by
  induction entries with
  | nil => rfl
  | cons first rest ih =>
    rcases first with ⟨k, old⟩
    obtain ⟨here, later⟩ := List.forall_mem_cons.mp above
    have different : k ≠ key := fun same => irrefl_of (· < ·) key (same ▸ here)
    rw [insertIn, if_neg different, if_neg (asymm_of (· < ·) here), ih later, List.cons_append]

omit [DecidableLT κ] [IsStrictTotalOrder κ (· < ·)] in
theorem Ordered.erase {m : AscendingMap κ α} (ordered : m.Ordered) (key : κ) :
    (m.erase key).Ordered :=
  List.Pairwise.filter _ ordered

theorem Ordered.modify {m : AscendingMap κ α} (ordered : m.Ordered) (key : κ) (change : α → α) :
    (m.modify key change).Ordered := by
  unfold AscendingMap.modify
  split
  · exact ordered.insert key _
  · exact ordered

theorem Ordered.append {m : AscendingMap κ (List α)} (ordered : m.Ordered) (key : κ)
    (more : List α) : (m.append key more).Ordered :=
  ordered.insert key _

omit [DecidableLT κ] in
/-- The entries of an ordered map are the values found under their keys. -/
theorem Ordered.mem_entries {m : AscendingMap κ α} (ordered : m.Ordered) {key : κ} {value : α} :
    (key, value) ∈ m.entries ↔ m.find? key = some value := by
  rcases m with ⟨entries⟩
  simp only [Ordered, find?] at ordered ⊢
  induction entries with
  | nil => simp [findIn]
  | cons first rest ih =>
    rcases first with ⟨k, old⟩
    obtain ⟨above, sortedRest⟩ := List.pairwise_cons.mp ordered
    rw [List.mem_cons, findIn, ih sortedRest]
    by_cases same : k = key
    · subst same
      have absent : findIn k rest ≠ some value := by
        intro found
        exact irrefl_of (· < ·) k (above _ ((ih sortedRest).mpr found))
      simp [absent, eq_comm]
    · simp [same, Ne.symm same]

omit [DecidableLT κ] in
theorem Ordered.mem_values {m : AscendingMap κ α} (ordered : m.Ordered) {value : α} :
    value ∈ m.values ↔ ∃ key, m.find? key = some value := by
  simp only [values, List.mem_map, Prod.exists, ordered.mem_entries, exists_eq_right]

omit [DecidableLT κ] in
theorem Ordered.mem_keys {m : AscendingMap κ α} (ordered : m.Ordered) {key : κ} :
    key ∈ m.keys ↔ ∃ value, m.find? key = some value := by
  simp only [keys, List.mem_map, Prod.exists, ordered.mem_entries, exists_and_right,
    exists_eq_right]

omit [DecidableLT κ] [DecidableEq κ] [IsStrictTotalOrder κ (· < ·)] in
theorem Ordered.pairwise_keys {m : AscendingMap κ α} (ordered : m.Ordered) :
    m.keys.Pairwise (· < ·) :=
  List.pairwise_map.mpr ordered

omit [DecidableLT κ] [DecidableEq κ] in
theorem Ordered.nodup_keys {m : AscendingMap κ α} (ordered : m.Ordered) : m.keys.Nodup :=
  ordered.pairwise_keys.nodup

omit [IsStrictTotalOrder κ (· < ·)] in
theorem find?_modify (m : AscendingMap κ α) (key other : κ) (change : α → α) :
    (m.modify key change).find? other
      = if key = other then (m.find? key).map change else m.find? other := by
  unfold modify
  split
  · rename_i value found
    rw [find?_insert, found]
    rfl
  · rename_i missing
    by_cases same : key = other
    · simp [← same, missing]
    · simp [same]

omit [IsStrictTotalOrder κ (· < ·)] in
theorem find?_append (m : AscendingMap κ (List α)) (key other : κ) (more : List α) :
    (m.append key more).find? other
      = if key = other then some ((m.find? key).getD [] ++ more) else m.find? other :=
  find?_insert m key other _

theorem Ordered.mem_keys_append {m : AscendingMap κ (List α)} (ordered : m.Ordered) {key other : κ}
    {more : List α} : other ∈ (m.append key more).keys ↔ other = key ∨ other ∈ m.keys := by
  rw [(ordered.append key more).mem_keys, ordered.mem_keys, find?_append]
  by_cases same : key = other
  · simp [same]
  · simp [same, Ne.symm same]

omit [IsStrictTotalOrder κ (· < ·)] in
theorem getD_append (m : AscendingMap κ (List α)) (key other : κ) (more : List α) :
    ((m.append key more).find? other).getD []
      = (m.find? other).getD [] ++ if key = other then more else [] := by
  rw [find?_append]
  by_cases same : key = other
  · simp [same]
  · simp [same]

theorem ordered_foldl_append (entries : List (κ × List α)) {m : AscendingMap κ (List α)}
    (ordered : m.Ordered) : (entries.foldl (fun m entry => m.append entry.1 entry.2) m).Ordered := by
  induction entries generalizing m with
  | nil => exact ordered
  | cons entry rest ih => exact ih (ordered.append _ _)

theorem mem_keys_foldl_append {entries : List (κ × List α)} {m : AscendingMap κ (List α)}
    (ordered : m.Ordered) {key : κ} :
    key ∈ (entries.foldl (fun m entry => m.append entry.1 entry.2) m).keys
      ↔ key ∈ m.keys ∨ key ∈ entries.map Prod.fst := by
  induction entries generalizing m with
  | nil => simp
  | cons entry rest ih =>
    rw [List.foldl_cons, ih (ordered.append _ _), ordered.mem_keys_append, List.map_cons,
      List.mem_cons, or_assoc, or_left_comm]

/-- All of one map appended to another: each key has its values of both. -/
theorem getD_foldl_append (m : AscendingMap κ (List α)) {other : AscendingMap κ (List α)}
    (ordered : other.Ordered) (key : κ) :
    ((other.entries.foldl (fun m entry => m.append entry.1 entry.2) m).find? key).getD []
      = (m.find? key).getD [] ++ (other.find? key).getD [] := by
  rcases other with ⟨entries⟩
  simp only [Ordered, find?] at ordered ⊢
  induction entries generalizing m with
  | nil => simp [findIn]
  | cons entry rest ih =>
    rcases entry with ⟨k, values⟩
    obtain ⟨above, sortedRest⟩ := List.pairwise_cons.mp ordered
    have appended := getD_append m k key values
    simp only [find?] at appended
    rw [List.foldl_cons, ih _ sortedRest, appended, findIn]
    by_cases same : k = key
    · subst same
      have absent : findIn k rest = none := by
        by_contra present
        obtain ⟨value, found⟩ := Option.ne_none_iff_exists'.mp present
        have member := (Ordered.mem_entries (m := ⟨rest⟩) sortedRest).mpr found
        exact irrefl_of (· < ·) k (above _ member)
      simp [absent]
    · simp [same]

omit [DecidableLT κ] in
theorem Ordered.mem_keys_erase {m : AscendingMap κ α} (ordered : m.Ordered) {gone key : κ} :
    key ∈ (m.erase gone).keys ↔ key ≠ gone ∧ key ∈ m.keys := by
  rw [(ordered.erase gone).mem_keys, ordered.mem_keys]
  simp only [find?_erase]
  by_cases same : gone = key
  · simp [same]
  · simp [same, Ne.symm same]

end AscendingMap

end ApproxQuery
