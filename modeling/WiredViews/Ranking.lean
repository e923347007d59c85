import WiredViews.DependencyGraph

-- The rank of a service is the length of the longest chain of services it waits for.
-- On a cycle there is no such chain, and the services behind it stay unresolved.
namespace WiredViews

structure RankingState where
  pending : Table String Nat
  ranks : Table String Nat
  queue : List String
deriving DecidableEq

namespace RankingState

def visit (rank : Nat) (state : RankingState) (child : String) : RankingState :=
  let left := state.pending.getD child 0 - 1
  { pending := state.pending.insert child left
    ranks := state.ranks.insert child (max (state.ranks.getD child 0) (rank + 1))
    queue := if left = 0 then state.queue ++ [child] else state.queue }

def step (children : Table String (List String)) (state : RankingState) : RankingState :=
  match state.queue with
  | [] => state
  | name :: rest =>
    (children.getD name []).foldl (visit (state.ranks.getD name 0)) { state with queue := rest }

def steps (children : Table String (List String)) : Nat → RankingState → RankingState
  | 0, state => state
  | count + 1, state => steps children count (step children state)

end RankingState

namespace Context

def rankingStart (context : Context) : RankingState where
  pending := context.parents.mapRows fun _ parents => parents.length
  ranks := Table.ofList (context.roots.map fun name => (name, 0))
  queue := context.roots

def rankingEnd (context : Context) : RankingState :=
  RankingState.steps context.children context.services.size context.rankingStart

def unresolved (context : Context) : List String :=
  (context.rankingEnd.pending.rows.filter fun row => 0 < row.2).map Prod.fst

def ranks (context : Context) : Table String Nat :=
  context.rankingEnd.ranks

end Context
end WiredViews
