import ApproxQuery.Config
import ApproxQuery.Plan.Block
import ApproxQuery.Plan.Build
import ApproxQuery.Plan.Compress

/-! Planning as configured: build, then compress, then convert to progressive nodes. -/
namespace ApproxQuery

/-- Why no plan was prepared. -/
inductive PrepareError where
  | config (error : ConfigError)
  | plan (error : PlanError)
deriving DecidableEq, Repr

def PrepareError.message : PrepareError → String
  | config error => error.message
  | plan error => error.message

/-- A plan with what the optional passes did to it. -/
structure Prepared where
  plan : Plan
  /-- There is none when compression is switched off. -/
  compression : Option Compression
  conversions : List Conversion

/-- The compression pass, if it is switched on. -/
def Config.compressPlan (c : Config) (p : Plan) : Plan × Option Compression :=
  if c.compress then
    let (p, report) := p.compress
    (p, some report)
  else (p, none)

/-- The conversion pass, if it is switched on. -/
def Config.convertPlan (c : Config) (p : Plan) : Except PlanError (Plan × List Conversion) :=
  if c.progressive then
    match Plan.makeProgressive p with
    | (.ok conversions, p) => .ok (p, conversions)
    | (.error e, _) => .error e
  else .ok (p, [])

/-- Prepares the plan of a query, with its scratch tables in the given schema. -/
def Plan.prepare (c : Config) (scratchSchema tag : String) (catalog : Catalog) (q : Query) :
    Except PrepareError Prepared := do
  c.validate.mapError .config
  let built ← (Plan.ofQuery scratchSchema tag catalog q).mapError .plan
  let (compressed, compression) := c.compressPlan built
  let (plan, conversions) ← (c.convertPlan compressed).mapError .plan
  return { plan, compression, conversions }

end ApproxQuery
