import WiredViews.Ranking

namespace WiredViews

namespace Context

def longestPathLevels (context : Context) : List (List String) :=
  let ranks := context.ranks
  let count := (ranks.values.map (· + 1)).foldl max 0
  (List.range count).map fun rank =>
    context.services.keys.filter fun name => ranks.get? name = some rank

def nextFrontier (context : Context) (frontier : List String) : List String :=
  let children := context.children
  context.services.keys.filter fun name =>
    frontier.any fun parent => name ∈ children.getD parent []

def frontiers (context : Context) : Nat → List String → List (List String)
  | 0, _ => []
  | _ + 1, [] => []
  | count + 1, frontier => frontier :: frontiers context count (context.nextFrontier frontier)

-- No chain is longer than there are services, so this many levels are enough.
def singleHopLevels (context : Context) : List (List String) :=
  context.frontiers context.services.size context.roots

end Context
end WiredViews
