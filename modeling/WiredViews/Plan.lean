import WiredViews.Levels
import WiredViews.Wiring

namespace WiredViews

structure Member where
  name : String
  dependencies : List Dependency
deriving DecidableEq

structure Group where
  provider : String
  members : List Member
deriving DecidableEq

structure Level where
  index : Nat
  groups : List Group
deriving DecidableEq

-- A context made ready to run any number of times. For every service, fields
-- says which variables take which output field.
structure Plan where
  levels : List Level
  constants : Table String String
  fields : Table String (Table String (List String))
  children : Table String (List String)
  providers : Providers
  policy : Policy
deriving DecidableEq

def Group.names (group : Group) : List String :=
  group.members.map Member.name

def Level.names (level : Level) : List String :=
  level.groups.flatMap Group.names

namespace Context

def groupServices (context : Context) (names : List String) : List Group :=
  let grouped : Table String (List Member) := names.foldl (fun grouped name =>
    match context.services.get? name with
    | none => grouped
    | some service => grouped.push service.provider ⟨name, service.dependencies⟩) ∅
  grouped.rows.map fun row => ⟨row.1, row.2⟩

def fieldTable (context : Context) : Table String (Table String (List String)) :=
  context.references.rows.foldl (fun fields row =>
    fields.alter row.2.1 fun held => (held.getD ∅).push row.2.2 row.1) ∅

def levelNames (context : Context) : LevelStrategy → List (List String)
  | .longestPath => context.longestPathLevels
  | .singleHop => context.singleHopLevels

def plan (context : Context) (providers : Providers) (policy : Policy) : Plan where
  levels := (context.levelNames policy.levels).mapIdx fun index names =>
    ⟨index, context.groupServices names⟩
  constants := context.constants
  fields := context.fieldTable
  children := context.children
  providers := providers
  policy := policy

end Context

def Plan.build (context : Context) (providers : Providers) (policy : Policy) : Except WiringError Plan :=
  match context.wiringError? providers policy with
  | some error => .error error
  | none => .ok (context.plan providers policy)

def Plan.builtNotice (plan : Plan) (context : Context) : Notice :=
  .planBuilt context.services.size context.roots.length plan.levels.length plan.policy.levels.name

end WiredViews
