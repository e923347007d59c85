import WiredViews.Cascade
import WiredViews.Round

namespace WiredViews

structure Progress where
  values : Record
  pruned : List String
  failed : List String
  skipped : List String
  tally : Tally
  rounds : List Round

inductive Ending where
  | completed
  | stopped (level : Nat)
  | aborted (error : RunError)

structure Run where
  progress : Progress
  ending : Ending

structure RunResult where
  values : Record
  failed : List String
  skipped : List String
  levelsExecuted : Nat

namespace Progress

def start (plan : Plan) (overrides : Record) (tally : Tally) : Progress where
  values := ((∅ : Record).insertAll (plan.constants.rows.map fun row => (row.1, .str row.2))).insertAll
    overrides.rows
  pruned := []
  failed := []
  skipped := []
  tally := tally
  rounds := []

def isPruned (progress : Progress) (member : Member) : Bool :=
  progress.pruned.contains member.name

def candidates (progress : Progress) (level : Level) : List Group :=
  level.groups.filterMap fun group =>
    match group.members.filter fun member => !progress.isPruned member with
    | [] => none
    | members => some ⟨group.provider, members⟩

def leaveOut (progress : Progress) (level : Level) : Progress :=
  { progress with
    skipped := progress.skipped ++ level.groups.flatMap fun group =>
      (group.members.filter progress.isPruned).map Member.name }

end Progress

def Plan.updates (plan : Plan) (group : Group) (records : List Record) : List (String × Value) :=
  (group.members.zip records).flatMap fun pair =>
    (plan.fields.getD pair.1.name ∅).rows.flatMap fun row =>
      row.2.map fun name => (name, pair.2.read row.1)

def Plan.dependents (plan : Plan) (names : List String) : List String :=
  WiredViews.dependents plan.policy.cascade plan.children names

def Plan.settle (plan : Plan) (overrides : Record) (progress : Progress) (attempt : Attempt) : Progress :=
  match attempt.outcome with
  | .resolved records =>
    { progress with
      values := progress.values.insertAll
        ((plan.updates attempt.group records).filter fun update => !overrides.contains update.1) }
  | .placeholder => { progress with skipped := progress.skipped ++ attempt.group.names }
  | .failed _ =>
    { progress with
      failed := progress.failed ++ attempt.group.names
      pruned := progress.pruned ++ plan.dependents attempt.group.names }
  | .rejected _ | .mistyped _ => progress

-- Level by level. Nothing is written before all groups of a level have ended, so
-- all of them see the values of the level's start.
def Plan.runLevels (plan : Plan) (world : World) (overrides : Record) : Progress → List Level → Run
  | progress, [] => ⟨progress, .completed⟩
  | progress, level :: rest =>
    let groups := progress.candidates level
    let progress := progress.leaveOut level
    if groups.isEmpty then ⟨progress, .stopped level.index⟩
    else
      let (attempts, tally) := attemptAll world plan.providers progress.values progress.tally groups
      let round : Round := ⟨level.index, attempts⟩
      let progress := { progress with tally := tally, rounds := progress.rounds ++ [round] }
      match round.fatal? with
      | some error => ⟨progress, .aborted error⟩
      | none => plan.runLevels world overrides (attempts.foldl (plan.settle overrides) progress) rest

def Plan.run (plan : Plan) (world : World) (overrides : Record) (tally : Tally) : Run :=
  plan.runLevels world overrides (.start plan overrides tally) plan.levels

def Progress.result (progress : Progress) : RunResult where
  values := progress.values
  failed := distinct progress.failed
  skipped := distinct progress.skipped
  levelsExecuted := progress.rounds.length

def Run.result (run : Run) : Except RunError RunResult :=
  match run.ending with
  | .aborted error => .error error
  | _ => .ok run.progress.result

end WiredViews
