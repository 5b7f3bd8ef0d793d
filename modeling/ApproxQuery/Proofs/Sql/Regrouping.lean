import ApproxQuery.Proofs.Sql.Joins
import Mathlib.Data.Set.Insert

/-! Which join trees have the same text. The text of a join behind a CROSS join does not show whether it joins
the whole of that or only its right operand, so the text determines a join tree up to such regrouping. -/
namespace ApproxQuery

open Sql

namespace FromItem

/-- Equal but for the grouping of CROSS joins with joins of some kinds that stand behind them. Conditions
have the same text. -/
inductive Regrouped (d : Dialect) (kinds : Set JoinKind) : FromItem → FromItem → Prop where
  | refl (a : FromItem) : Regrouped d kinds a a
  | symm {a b : FromItem} (same : Regrouped d kinds a b) : Regrouped d kinds b a
  | trans {a b c : FromItem} (first : Regrouped d kinds a b) (second : Regrouped d kinds b c) :
      Regrouped d kinds a c
  | join {a b a' b' : FromItem} {on on' : Option Expr} (left : Regrouped d kinds a a')
      (right : Regrouped d kinds b b') (kind : JoinKind) (text : on.map (Sql.expr d) = on'.map (Sql.expr d)) :
      Regrouped d kinds (.join a b kind on) (.join a' b' kind on')
  | regroup {kind : JoinKind} (member : kind ∈ kinds) (a b c : FromItem) (on : Option Expr) :
      Regrouped d kinds (.join (.join a b .cross none) c kind on) (.join a (.join b c kind on) .cross none)

/-- The kinds of the joins whose first table is that of the item. -/
def leading : FromItem → List JoinKind
  | .join left _ kind _ => left.leading ++ [kind]
  | .table _ => []
  | .subquery _ => []
  | .placeholder _ => []

/-- The joins that stand right behind a CROSS join, in its right operand, are of some kinds. -/
def Crosses (kinds : Set JoinKind) : FromItem → Prop
  | .join left right kind _ =>
    left.Crosses kinds ∧ right.Crosses kinds ∧ (kind = .cross → ∀ k ∈ right.leading, k ∈ kinds)
  | .table _ => True
  | .subquery _ => True
  | .placeholder _ => True

theorem crosses_univ (item : FromItem) : item.Crosses Set.univ := by
  induction item using treeInduction with
  | join left right kind on ihLeft ihRight => exact ⟨ihLeft, ihRight, fun _ _ _ => Set.mem_univ _⟩
  | table t => trivial
  | subquery q => trivial
  | placeholder ref => trivial

variable {d : Dialect} {kinds : Set JoinKind} {s t : FromItem}

/-- Regrouping leaves the text as it is. -/
theorem Regrouped.fromItem_eq (same : s.Regrouped d kinds t) : fromItem d s = fromItem d t := by
  induction same with
  | refl => rfl
  | symm _ ih => exact ih.symm
  | trans _ _ ihFirst ihSecond => exact ihFirst.trans ihSecond
  | @join a b a' b' on on' _ _ kind text ihLeft ihRight =>
    have clause : condition d " ON " on = condition d " ON " on' := by
      have same {on : Option Expr} : condition d " ON " on
          = (on.map (Sql.expr d)).elim (.ok "") fun text => do return " ON " ++ (← text) := by
        cases on <;> rfl
      rw [same, same, text]
    rw [fromItem_join, fromItem_join, ihLeft, ihRight, clause]
  | regroup _ a b c on =>
    have none : condition d " ON " none = .ok "" := rfl
    simp only [fromItem_join, none]
    cases fromItem d a <;> cases fromItem d b <;> cases fromItem d c <;> try rfl
    cases condition d " ON " on with
    | error e => rfl
    | ok clause => exact congrArg Except.ok (by simp [joinWords, String.append_assoc])

/-- The kind of the join at the root. -/
def kind? : FromItem → Option JoinKind
  | .join _ _ kind _ => some kind
  | .table _ => none
  | .subquery _ => none
  | .placeholder _ => none

/-- Among CROSS joins alone, regrouping keeps the root. -/
theorem Regrouped.kind?_eq (same : s.Regrouped d {.cross} t) : s.kind? = t.kind? := by
  induction same with
  | refl => rfl
  | symm _ ih => exact ih.symm
  | trans _ _ ihFirst ihSecond => exact ihFirst.trans ihSecond
  | join => rfl
  | regroup member => exact congrArg some member

section Building

/-- Reads the steps from left to right, as long as there are joins that await their condition. A CROSS join
takes the next table alone. -/
def build : FromItem → List (FromItem × JoinKind) → List JoinStep → FromItem
  | current, _, [] => current
  | current, awaiting, .table kind t :: rest =>
    if kind = .cross then build (.join current (.table t) .cross none) awaiting rest
    else build (.table t) ((current, kind) :: awaiting) rest
  | current, (left, kind) :: awaiting, .on e :: rest => build (.join left current kind (some e)) awaiting rest
  | current, [], .on _ :: _ => current

/-- The item, as the right operand of a CROSS join with what stands before it. -/
def behind (item : FromItem) : Option FromItem → FromItem
  | some before => .join before item .cross none
  | none => item

theorem Regrouped.behind_join {before : Option FromItem} {a b : FromItem} {kind : JoinKind} {on : Option Expr}
    (member : ∀ own ∈ before, kind ∈ kinds) :
    (FromItem.join (a.behind before) b kind on).Regrouped d kinds ((FromItem.join a b kind on).behind before) := by
  cases before with
  | none => exact .refl _
  | some own => exact .regroup (member own rfl) own a b on

/-- Steps with the same text build the same tree. -/
theorem build_congr {current current' : FromItem} {awaiting awaiting' : List (FromItem × JoinKind)}
    {steps steps' : List JoinStep} {tokens : List JoinToken} (same : current.Regrouped d kinds current')
    (awaited : List.Forall₂ (fun a b => a.1.Regrouped d kinds b.1 ∧ a.2 = b.2) awaiting awaiting')
    (shown : List.Forall₂ (Shows d) steps tokens) (shown' : List.Forall₂ (Shows d) steps' tokens) :
    (build current awaiting steps).Regrouped d kinds (build current' awaiting' steps') := by
  induction shown generalizing current current' awaiting awaiting' steps' with
  | nil =>
    cases shown'
    simpa only [build] using same
  | cons first _ ih =>
    cases shown' with
    | cons first' later' =>
      cases first with
      | table kind t =>
        cases first'
        rw [build, build]
        split
        · exact ih (.join same (.refl _) .cross rfl) awaited later'
        · exact ih (.refl _) (.cons ⟨same, rfl⟩ awaited) later'
      | on text _ =>
        cases first' with
        | on text' _ =>
          cases awaited with
          | nil => simpa only [build] using same
          | @cons a b _ _ own rest =>
            rcases a with ⟨left, kind⟩
            rcases b with ⟨left', kind'⟩
            obtain ⟨grouped, rfl⟩ := own
            rw [build, build]
            exact ih (.join grouped same kind (congrArg some (text.trans text'.symm))) rest later'

/-- What is laid out is built again, up to regrouping, whatever stands before it and whatever awaits it. -/
theorem LaidOut.build_regrouped {item : FromItem} {t : BaseTable} {steps : List JoinStep}
    (laid : item.LaidOut t steps) (cross : .cross ∈ kinds) (crosses : item.Crosses kinds)
    (before : Option FromItem) (leads : ∀ own ∈ before, ∀ k ∈ item.leading, k ∈ kinds)
    (awaiting : List (FromItem × JoinKind)) (rest : List JoinStep) :
    ∃ built, build ((FromItem.table t).behind before) awaiting (steps ++ rest) = build built awaiting rest
      ∧ built.Regrouped d kinds (item.behind before) := by
  induction laid generalizing before awaiting rest with
  | table t => exact ⟨_, rfl, .refl _⟩
  | @cross a b t u steps more _ _ ihLeft ihRight =>
    obtain ⟨crossesLeft, crossesRight, spread⟩ := crosses
    obtain ⟨left, builtLeft, sameLeft⟩ := ihLeft crossesLeft before
      (fun own member k leading => leads own member k (List.mem_append_left _ leading)) awaiting
      (.table .cross u :: (more ++ rest))
    -- The tree so far is the left operand of what is built behind it.
    obtain ⟨whole, builtWhole, sameWhole⟩ := ihRight crossesRight (some left) (fun _ _ => spread rfl) awaiting rest
    refine ⟨whole, ?_, ?_⟩
    · rw [List.append_assoc, List.cons_append, builtLeft, ← builtWhole, build, if_pos rfl]
      rfl
    · have joined : (FromItem.join left b .cross none).Regrouped d kinds (.join (a.behind before) b .cross none) :=
        .join sameLeft (.refl b) .cross rfl
      exact (sameWhole.trans joined).trans (.behind_join fun _ _ => cross)
  | @conditioned a b t u steps more kind outer _ _ e ihLeft ihRight =>
    obtain ⟨crossesLeft, crossesRight, _⟩ := crosses
    obtain ⟨left, builtLeft, sameLeft⟩ := ihLeft crossesLeft before
      (fun own member k leading => leads own member k (List.mem_append_left _ leading)) awaiting
      (.table kind u :: (more ++ .on e :: rest))
    obtain ⟨right, builtRight, sameRight⟩ := ihRight crossesRight none nofun ((left, kind) :: awaiting)
      (.on e :: rest)
    refine ⟨.join left right kind (some e), ?_, ?_⟩
    · rw [List.append_assoc, List.cons_append, List.append_assoc, List.singleton_append, builtLeft, build,
        if_neg outer]
      exact builtRight
    · have joined : (FromItem.join left right kind (some e)).Regrouped d kinds
          (.join (a.behind before) b kind (some e)) := .join sameLeft sameRight kind rfl
      have own : ∀ own ∈ before, kind ∈ kinds := fun own member =>
        leads own member kind (List.mem_append_right _ List.mem_cons_self)
      exact joined.trans (.behind_join own)

/-- A join tree is built again from its steps, up to regrouping. -/
theorem LaidOut.build_self {item : FromItem} {t : BaseTable} {steps : List JoinStep}
    (laid : item.LaidOut t steps) (cross : .cross ∈ kinds) (crosses : item.Crosses kinds) :
    (build (.table t) [] steps).Regrouped d kinds item := by
  obtain ⟨built, same, grouped⟩ := laid.build_regrouped cross crosses none nofun [] []
  rw [List.append_nil] at same
  change build (.table t) [] steps = build built [] [] at same
  rw [same, build]
  exact grouped

end Building

end FromItem

section Texts

variable {d : Dialect} {s t : FromItem} {text : String}

/-- Of two join trees with the same text, each is the other regrouped. Only such joins are regrouped as stand
right behind a CROSS join in its right operand, in either tree. -/
theorem Sql.fromItem_eq_iff_regrouped {kinds : Set JoinKind} (cross : .cross ∈ kinds) (tree : s.IsJoinTree)
    (tree' : t.IsJoinTree) (delimited : s.isDelimited = true) (delimited' : t.isDelimited = true)
    (crosses : s.Crosses kinds) (crosses' : t.Crosses kinds) (rendered : fromItem d s = .ok text) :
    fromItem d t = .ok text ↔ s.Regrouped d kinds t := by
  constructor
  · intro rendered'
    obtain ⟨first, steps, laid⟩ := tree.laidOut
    obtain ⟨first', steps', laid'⟩ := tree'.laidOut
    obtain ⟨tokens, shown, rfl⟩ :=
      fromItem_laidOut laid (fun e own => FromItem.delimits_condition delimited own) rendered
    obtain ⟨tokens', shown', same⟩ :=
      fromItem_laidOut laid' (fun e own => FromItem.delimits_condition delimited' own) rendered'
    have ends {steps : List JoinStep} {tokens : List JoinToken} (shown : List.Forall₂ (Shows d) steps tokens) :
        ∀ token ∈ tokens, token.Ends d := forall_of_forall₂ shown fun _ _ _ shows' => shows'.ends
    obtain ⟨rfl, rfl⟩ := joinTexts_injective (ends shown) (ends shown') same
    have built : (FromItem.build (.table first) [] steps).Regrouped d kinds (.build (.table first) [] steps') :=
      FromItem.build_congr (.refl _) .nil shown shown'
    exact ((laid.build_self cross crosses).symm.trans built).trans (laid'.build_self cross crosses')
  · exact fun same => same.fromItem_eq.symm.trans rendered

/-- Join trees have the same text if and only if they are equal up to the grouping of CROSS joins with the
joins behind them. Where none but CROSS joins stand right behind a CROSS join in its right operand, they are
equal up to re-association of CROSS joins. -/
theorem Sql.joins_nested (tree : s.IsJoinTree) (tree' : t.IsJoinTree) (delimited : s.isDelimited = true)
    (delimited' : t.isDelimited = true) (rendered : fromItem d s = .ok text) :
    (fromItem d t = .ok text ↔ s.Regrouped d Set.univ t)
      ∧ (s.Crosses {.cross} → t.Crosses {.cross} → (fromItem d t = .ok text ↔ s.Regrouped d {.cross} t)) := by
  constructor
  · exact fromItem_eq_iff_regrouped (Set.mem_univ _) tree tree' delimited delimited' s.crosses_univ
      t.crosses_univ rendered
  · intro crosses crosses'
    exact fromItem_eq_iff_regrouped (Set.mem_singleton _) tree tree' delimited delimited' crosses crosses' rendered

/-- A name with an unmatched parenthesis or quote can hide a join in a string. -/
example : fromItem .ansi (.join (.join (.table ⟨"s", "a", none⟩) (.table ⟨"s", "b", none⟩) .left
      (some (.func "g('" [] false))) (.table ⟨"s", "", none⟩) .left
      (some (.func "', f" [.func "h" [] false, .star none] false)))
    = fromItem .ansi (.join (.table ⟨"s", "a", none⟩) (.table ⟨"s", "b", none⟩) .left
      (some (.func "g" [.literal (.str "() LEFT JOIN \x22s\x22.\x22\x22 ON "), .func "f(h" [] false, .star none]
        false))) := rfl

end Texts

section Sample

namespace FromItem

private def stored (name : String) : FromItem := .table ⟨"s", name, some name⟩

private def crossing (left right : FromItem) : FromItem := .join left right .cross none

private def matching (left right : FromItem) : FromItem :=
  .join left right .left (some (.binary .eq (.column (some "b") "k") (.column (some "c") "k")))

private theorem IsJoinTree.matching {a b : FromItem} (left : a.IsJoinTree) (right : b.IsJoinTree) :
    (matching a b).IsJoinTree :=
  have outer : JoinKind.left ≠ .cross := nofun
  .conditioned outer left right _

/-- Three tables in CROSS joins to the left of an outer join. -/
def leftGrouped : FromItem := matching (crossing (crossing (stored "e") (stored "a")) (stored "b")) (stored "c")

def rightGrouped : FromItem := matching (crossing (stored "e") (crossing (stored "a") (stored "b"))) (stored "c")

/-- An outer join of a CROSS join with a table. -/
def crossFirst : FromItem := matching (crossing (stored "a") (stored "b")) (stored "c")

/-- A CROSS join of a table with an outer join. -/
def outerFirst : FromItem := crossing (stored "a") (matching (stored "b") (stored "c"))

end FromItem

open FromItem

theorem Sql.joins_nested_cross : ∃ text, leftGrouped.IsJoinTree ∧ rightGrouped.IsJoinTree
    ∧ leftGrouped.isDelimited = true ∧ rightGrouped.isDelimited = true
    ∧ fromItem .ansi leftGrouped = .ok text ∧ leftGrouped.Crosses {.cross} ∧ rightGrouped.Crosses {.cross}
    ∧ fromItem .ansi rightGrouped = .ok text ∧ leftGrouped.Regrouped .ansi {.cross} rightGrouped := by
  have tree : leftGrouped.IsJoinTree := .matching (.cross (.cross (.table _) (.table _)) (.table _)) (.table _)
  have tree' : rightGrouped.IsJoinTree := .matching (.cross (.table _) (.cross (.table _) (.table _))) (.table _)
  have crosses : leftGrouped.Crosses {.cross} := by
    simp [leftGrouped, matching, crossing, stored, Crosses, leading]
  have crosses' : rightGrouped.Crosses {.cross} := by
    simp [rightGrouped, matching, crossing, stored, Crosses, leading]
  have whole := joins_nested (d := .ansi) tree tree' rfl rfl rfl
  exact ⟨_, tree, tree', rfl, rfl, rfl, crosses, crosses', rfl, (whole.2 crosses crosses').mp rfl⟩

/-- The text of an outer join behind a CROSS join does not show which of the two is the operand of the
other. -/
theorem Sql.outer_join_ambiguous : ∃ text, crossFirst.IsJoinTree ∧ outerFirst.IsJoinTree
    ∧ crossFirst.boundNames = ["a", "b", "c"] ∧ outerFirst.boundNames = ["a", "b", "c"]
    ∧ fromItem .ansi crossFirst = .ok text ∧ fromItem .ansi outerFirst = .ok text
    ∧ ¬ crossFirst.Regrouped .ansi {.cross} outerFirst := by
  have tree : crossFirst.IsJoinTree := .matching (.cross (.table _) (.table _)) (.table _)
  have tree' : outerFirst.IsJoinTree := .cross (.table _) (.matching (.table _) (.table _))
  refine ⟨_, tree, tree', rfl, rfl, rfl, rfl, fun same => ?_⟩
  cases same.kind?_eq

end Sample

end ApproxQuery
