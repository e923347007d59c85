import WiredViews.Distinct
import WiredViews.Template

namespace WiredViews

namespace Context

-- The services whose outputs feed a service, each once, in the order in which
-- its arguments ask for them. Constants and undeclared names feed nothing.
def producers (context : Context) (service : Service) : List String :=
  let references := context.references
  distinct (service.dependencies.filterMap fun dependency =>
    (references.get? dependency.source).map Prod.fst)

def parents (context : Context) : Table String (List String) :=
  context.services.mapRows fun _ service => context.producers service

def children (context : Context) : Table String (List String) :=
  let parents := context.parents
  context.services.mapRows fun name _ =>
    (parents.rows.filter fun row => name ∈ row.2).map Prod.fst

def roots (context : Context) : List String :=
  (context.parents.rows.filter fun row => row.2.isEmpty).map Prod.fst

end Context
end WiredViews
