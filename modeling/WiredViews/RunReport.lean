import WiredViews.Run

namespace WiredViews

inductive CallEvent where
  | started (provider : String)
  | ended (provider : String)
deriving DecidableEq

namespace Round

def calls (round : Round) : List (String × Batch) :=
  (round.attempts.filter Attempt.called).map fun attempt => (attempt.group.provider, attempt.batch)

-- A call without delay ends before the next one starts.
def startEvents (round : Round) : List CallEvent :=
  (round.attempts.filter Attempt.called).flatMap fun attempt =>
    .started attempt.group.provider ::
      if attempt.delay = 0 then [.ended attempt.group.provider] else []

def events (round : Round) : List CallEvent :=
  round.startEvents ++
    ((round.settled.filter fun attempt => attempt.called && 0 < attempt.delay).map fun attempt =>
      .ended attempt.group.provider)

def cancelled (round : Round) : List String :=
  (round.attempts.filter fun attempt => !round.isSettled attempt).map fun attempt =>
    attempt.group.provider

def attemptNotices (attempt : Attempt) : List Notice :=
  match attempt.outcome with
  | .rejected (.typing error) =>
    [.typingFailed error.provider error.service error.complaints.value]
  | .placeholder => [.placeholderSkipped attempt.group.provider attempt.group.names]
  | .failed failure =>
    [.groupFailed attempt.group.provider attempt.group.names failure.message failure.kind]
  | .resolved _ | .rejected .breakdown | .mistyped _ => []

def notices (round : Round) : List Notice :=
  .levelStarted round.index (round.attempts.map fun attempt =>
    (attempt.group.provider, attempt.group.members.length)) ::
    round.settled.flatMap attemptNotices

end Round

namespace Run

def calls (run : Run) : List (String × Batch) :=
  run.progress.rounds.flatMap Round.calls

def events (run : Run) : List CallEvent :=
  run.progress.rounds.flatMap Round.events

def cancelled (run : Run) : List String :=
  sortedNames (run.progress.rounds.flatMap Round.cancelled)

def completedNotice (run : Run) : Notice :=
  let result := run.progress.result
  .runCompleted result.levelsExecuted result.failed result.skipped

def notices (run : Run) : List Notice :=
  run.progress.rounds.flatMap Round.notices ++
    match run.ending with
    | .completed => [run.completedNotice]
    | .stopped level => [.noCandidates level, run.completedNotice]
    | .aborted _ => []

end Run
end WiredViews
