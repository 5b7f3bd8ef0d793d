import ApproxQuery.PlanRequest
import ApproxQuery.Proofs.Plan.Fillable
import ApproxQuery.Proofs.Plan.Origins
import ApproxQuery.Run.Engine

/-! Preparation of a query that is accepted. The passes after the checks go through, unless what
aggregates reads a lookalike; then the conversion may have no place for a node. -/
namespace ApproxQuery

/-- No level that aggregates, and none reached within it, has a lookalike among its derived
tables. -/
def Query.BlocksPlain (q : Query) : Prop :=
  q.Throughout fun level => level.isAggregateLevel = true → level.Throughout Query.TablesPlain

namespace Plan

variable {p p' : Plan} {q : Query} {c : Config} {root : NodeId}

theorem ofQuery_eq (schema tag : String) (catalog : Catalog) (accepted : q.validate = .ok ()) :
    ∃ root p, (unbuilt schema tag catalog).build q = .ok (root, p)
      ∧ Plan.ofQuery schema tag catalog q = .ok p := by
  have built := build_eq (p := unbuilt schema tag catalog) rfl accepted
  refine ⟨_, _, built, ?_⟩
  unfold ofQuery
  rw [built]
  rfl

/-- The nodes of a plan for such a query are fillable, up to projections. -/
theorem fillableIn_of_build (empty : p.nodes = .empty) (closed : q.placeholders = [])
    (plain : q.BlocksPlain) (built : p.build q = .ok (root, p')) :
    p'.FillableIn fun kind => kind ≠ .projection := by
  intro id n found kind
  obtain ⟨origin, member, stems⟩ := stems_of_build empty closed built found
  have aggregates : origin.isAggregateLevel = true := by
    by_contra plainLevel
    exact kind (stems.kind.trans (if_neg plainLevel))
  have throughout : origin.Throughout Query.TablesPlain := by
    rcases List.mem_cons.mp member with rfl | cut
    · exact plain.1 aggregates
    · exact plain.2 origin (Query.mem_cuts.mp cut).1 aggregates
  exact stems.fillable throughout (Query.isLookalike_of_isAggregateLevel aggregates)

private theorem compressPlan_eq (c : Config) (p : Plan) :
    (c.compressPlan p).1 = p ∨ (c.compressPlan p).1 = p.compress.1 := by
  unfold Config.compressPlan
  split
  · exact .inr rfl
  · exact .inl rfl

private theorem convertPlan_outcome (c : Config) (sound : p.Sound [root]) (rooted : p.root = some root) :
    (∃ converted, c.convertPlan p = .ok converted)
      ∨ ∃ d id, c.convertPlan p = .error (.invalid (.placeholderMissing d id))
        ∧ c.progressive = true ∧ ¬ p.FillableIn fun kind => kind ≠ .projection := by
  unfold Config.convertPlan
  split
  · rename_i progressive
    rcases sound.makeProgressive_outcome wide_rest rooted with ⟨conversions, p', done⟩ | ⟨d, id, p', failed, unfillable⟩
    · rw [done]
      exact .inl ⟨_, rfl⟩
    · rw [failed]
      exact .inr ⟨d, id, rfl, progressive, unfillable⟩
  · exact .inl ⟨_, rfl⟩

/-- All passes go through, or else the last one has no place for a node; it is switched on then, and
something that aggregates reads a lookalike. -/
theorem prepare_outcome (schema tag : String) (catalog : Catalog) (valid : c.validate = .ok ())
    (closed : q.placeholders = []) (accepted : q.validate = .ok ()) :
    (∃ prepared, Plan.prepare c schema tag catalog q = .ok prepared)
      ∨ ∃ d id, Plan.prepare c schema tag catalog q = .error (.plan (.invalid (.placeholderMissing d id)))
        ∧ c.progressive = true ∧ ¬ q.BlocksPlain := by
  obtain ⟨root, built, done, made⟩ := ofQuery_eq schema tag catalog accepted
  obtain ⟨rooted, sound⟩ := sound_of_build rfl closed done
  have compressed : (c.compressPlan built).1.Sound [root] ∧ (c.compressPlan built).1.root = some root
      ∧ (q.BlocksPlain → (c.compressPlan built).1.FillableIn fun kind => kind ≠ .projection) := by
    have fillable (plain : q.BlocksPlain) := fillableIn_of_build rfl closed plain done
    rcases compressPlan_eq c built with same | same
    · rw [same]
      exact ⟨sound, rooted, fillable⟩
    · rw [same]
      exact ⟨sound.keeps_compress.sound, sound.keeps_compress.root.trans rooted,
        fun plain => (fillable plain).compress wide_rest sound⟩
  obtain ⟨sound', rooted', fillable⟩ := compressed
  unfold prepare
  rw [valid, made]
  rcases convertPlan_outcome c sound' rooted' with ⟨converted, went⟩ | ⟨d, id, failed, progressive, unfillable⟩
  · simp only [Except.mapError, bind, Except.bind, went]
    exact .inl ⟨_, rfl⟩
  · simp only [Except.mapError, bind, Except.bind, failed]
    exact .inr ⟨d, id, rfl, progressive, mt fillable unfillable⟩

end Plan

/-- Preparing an accepted query goes through under valid settings, whatever passes are switched on,
both in an engine and for a request. The one exception is a level that aggregates and reads a
lookalike, and the one error is then that a node has no place in a query that reads it. -/
theorem Config.prepares_accepted {c : Config} {q : Query} (valid : c.validate = .ok ())
    (closed : q.placeholders = []) (accepted : q.validate = .ok ()) :
    (∀ (backend : Backend) (tag : String) (catalog : Catalog),
      ((c.progressive = true → q.BlocksPlain) →
          ∃ p, (Engine.mk c backend).prepare tag catalog q = .ok p)
        ∧ ∀ e, (Engine.mk c backend).prepare tag catalog q = .error e →
          ∃ d id, e = .planning (.invalid (.placeholderMissing d id)))
      ∧ ∀ (r : PlanRequest) (tag : String), r.query = q →
        ((c.progressive = true → q.BlocksPlain) → ∃ prepared, r.prepare c tag = .ok prepared)
          ∧ ∀ e, r.prepare c tag = .error e → ∃ d id, e = .plan (.invalid (.placeholderMissing d id)) := by
  constructor
  · intro backend tag catalog
    unfold Engine.prepare
    rcases Plan.prepare_outcome c.scratchSchema tag catalog valid closed accepted
      with ⟨prepared, done⟩ | ⟨d, id, failed, progressive, lookalike⟩
    · rw [done]
      exact ⟨fun _ => ⟨prepared.plan, rfl⟩, nofun⟩
    · rw [failed]
      refine ⟨fun plain => absurd (plain progressive) lookalike, ?_⟩
      rintro _ ⟨⟩
      exact ⟨d, id, rfl⟩
  · rintro r tag rfl
    unfold PlanRequest.prepare
    rcases Plan.prepare_outcome (r.schema c) tag r.scrambles valid closed accepted
      with ⟨prepared, done⟩ | ⟨d, id, failed, progressive, lookalike⟩
    · rw [done]
      exact ⟨fun _ => ⟨prepared, rfl⟩, nofun⟩
    · rw [failed]
      refine ⟨fun plain => absurd (plain progressive) lookalike, ?_⟩
      rintro _ ⟨⟩
      exact ⟨d, id, rfl⟩

section Sample

open Plan

theorem busyDays_blocksPlain : busyDays.BlocksPlain := by
  apply busyDays_throughout
  · exact fun _ => busyDays_tablesPlain
  · intro table asName _
    apply Query.Throughout.of_parts
    · exact fun d member => nomatch member
    · exact fun sub member => nomatch member

theorem busyDays_prepared : ({} : Config).validate = .ok () ∧ busyDays.validate = .ok ()
    ∧ (∀ backend, ∃ p, (Engine.mk {} backend).prepare "0" .empty busyDays = .ok p)
    ∧ ∃ prepared, (PlanRequest.mk none .empty busyDays).prepare {} "0" = .ok prepared := by
  obtain ⟨engine, request⟩ := Config.prepares_accepted (c := {}) (q := busyDays) rfl rfl rfl
  refine ⟨rfl, rfl, fun backend => ?_, ?_⟩
  · exact (engine backend "0" .empty).1 fun _ => busyDays_blocksPlain
  · exact (request ⟨none, .empty, busyDays⟩ "0" rfl).1 fun _ => busyDays_blocksPlain

/-- `SELECT sum(b.n) AS total FROM (SELECT * FROM (SELECT count(*) AS n FROM shop.orders) AS a) AS b`. -/
def rewrapped : Query :=
  ⟨[⟨.func "sum" [.column (some "b") "n"] false, some "total"⟩],
    [.subquery ⟨[⟨.star none, none⟩], [.subquery { countAll "orders" with asName := some "a" }],
      none, [], none, [], none, some "b"⟩],
    none, [], none, [], none, none⟩

/-- The lookalike in between is taken for the marker of a slot, and not found in any. -/
theorem rewrapped_not_prepared : ({} : Config).validate = .ok () ∧ rewrapped.placeholders = []
    ∧ rewrapped.validate = .ok ()
    ∧ ((PlanRequest.mk none .empty rewrapped).prepare {} "0").map (fun _ => ())
      = .error (.plan (.invalid (.placeholderMissing ⟨1⟩ ⟨0⟩))) := by
  refine ⟨rfl, rfl, ?_, ?_⟩
  · decide +kernel
  · decide +kernel

end Sample

end ApproxQuery
