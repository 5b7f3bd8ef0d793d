import ApproxQuery.AscendingMap
import ApproxQuery.Scramble.Meta

/-! The catalog of the tables that have a scramble, each under its own name. -/
namespace ApproxQuery

abbrev Catalog := AscendingMap TableName ScrambleMeta

/-- Changes to a catalog. One that fails keeps what it had done before. -/
abbrev CatalogM := ExceptT ScrambleError (StateM Catalog)

namespace Catalog

/-- Validates metadata, then stores it under its name; an entry of the same name gives way. -/
def store (s : ScrambleMeta) : CatalogM Unit := do
  let s ← ExceptT.mk (pure s.validated)
  modify fun c => AscendingMap.insert c s.name s

/-- The catalog with metadata stored in it, if the metadata is accepted. -/
def add (c : Catalog) (s : ScrambleMeta) : Except ScrambleError Catalog :=
  match store s c with
  | (.ok (), c) => .ok c
  | (.error e, _) => .error e

/-- Adds all, up to the first that is refused. -/
def addAll (c : Catalog) : List ScrambleMeta → Except ScrambleError Catalog
  | [] => .ok c
  | s :: rest => do (← c.add s).addAll rest

def ofList (metas : List ScrambleMeta) : Except ScrambleError Catalog :=
  Catalog.addAll AscendingMap.empty metas

/-- Entries in the order of their names. -/
def toList (c : Catalog) : List ScrambleMeta := c.values

def encode (c : Catalog) : Data := .list (c.toList.map ScrambleMeta.encode)

end Catalog

end ApproxQuery
