import KeepTree.Counters
import KeepTree.Limits
import KeepTree.Namespace
import KeepTree.Store

/-!
# Engines

An engine is what all stacks over one namespace share: the store of tables, the durable tables
among them (one for everything, one for each site) and the counters.
-/

namespace KeepTree

/-- What all stacks over a namespace share. -/
structure Engine where
  ns : Namespace
  limits : Limits
  store : Store
  /-- The durable table of what belongs to no single site. -/
  global : TableId
  /-- The durable tables of the sites used so far. -/
  sites : Dictionary DefId TableId
  counters : Counters

namespace Engine

/-- An engine with empty tables. -/
def new (ns : Namespace) (limits : Limits) : Engine :=
  let (global, store) := Store.empty.newTable .empty
  { ns, limits, store, global, sites := .empty, counters := {} }

/-- Count something. -/
def count (e : Engine) (f : Counters → Counters) : Engine := { e with counters := f e.counters }

/-- Change the tables. -/
def withStore (e : Engine) (store : Store) : Engine := { e with store }

/-- The durable table of a site, created on first use. -/
def siteTable (e : Engine) (site : DefId) : TableId × Engine :=
  match e.sites.get? site with
  | some table => (table, e)
  | none =>
    let (table, store) := e.store.newTable .empty
    (table, { e with store, sites := e.sites.insert site table })

/-- The durable table for the values of a definition. -/
def durableTable (e : Engine) (d : Definition) : TableId × Engine :=
  match d.durability, d.site with
  | .global, some site => e.siteTable site
  | _, _ => (e.global, e)

end Engine

end KeepTree
