import WiredViews.Policy
import WiredViews.Table

namespace WiredViews

abbrev ChildTable := Table String (List String)

def ChildTable.childrenOf (children : ChildTable) (name : String) : List String :=
  children.getD name []

-- What is still ahead of a walk: one for every name not visited, and one for each
-- of its children. It bounds the walk also where names wait for each other.
def ahead (visited : List String) : List (String × List String) → Nat
  | [] => 0
  | row :: rest => (if row.1 ∈ visited then 0 else row.2.length + 1) + ahead visited rest

theorem ahead_cons_le (name : String) (visited : List String) (rows : List (String × List String)) :
    ahead (name :: visited) rows ≤ ahead visited rows := by
  induction rows with
  | nil => simp [ahead]
  | cons row rest ih =>
    simp only [ahead, List.mem_cons]
    grind

theorem ahead_visit {name : String} {visited : List String} (fresh : name ∉ visited)
    (rows : List (String × List String)) :
    ahead (name :: visited) rows + ((Table.lookup name rows).getD []).length ≤ ahead visited rows := by
  induction rows with
  | nil => simp [ahead, Table.lookup]
  | cons row rest ih =>
    have shorter := ahead_cons_le name visited rest
    simp only [ahead, Table.lookup, List.mem_cons]
    by_cases same : row.1 = name
    · simp [same, fresh]
      omega
    · simp only [same, false_or, if_false]
      omega

def reach (children : ChildTable) (visited : List String) : List String → List String
  | [] => visited
  | name :: rest =>
    if name ∈ visited then reach children visited rest
    else reach children (name :: visited) (children.childrenOf name ++ rest)
termination_by frontier => frontier.length + ahead visited children.rows
decreasing_by
  · simp
  · rename_i fresh
    have fewer := ahead_visit fresh children.rows
    simp only [List.length_append, List.length_cons, ChildTable.childrenOf, Table.getD, Table.get?]
    omega

-- The services given up after the named ones failed. The named ones are only
-- among them if they wait for each other.
def dependents (cascade : FailureCascade) (children : ChildTable) (names : List String) : List String :=
  let first := names.flatMap children.childrenOf
  match cascade with
  | .direct => first
  | .transitive => reach children [] first

end WiredViews
