import WiredViews.Conduct
import WiredViews.Plan

namespace WiredViews

inductive RunError where
  | typing (error : TypingError)
  | breakdown

def RunError.message : RunError → String
  | .typing error => error.message
  | .breakdown => breakdownText

inductive Outcome where
  | resolved (records : List Record)
  | placeholder
  | failed (failure : ProviderFailure)
  | rejected (error : RunError)
  | mistyped (error : TypingError)

structure Attempt where
  group : Group
  batch : Batch
  called : Bool
  outcome : Outcome
  delay : Nat

structure Round where
  index : Nat
  attempts : List Attempt

def Member.arguments (member : Member) (values : Record) : Record :=
  Table.ofList (member.dependencies.map fun dependency =>
    (dependency.argument, values.read dependency.source))

def Group.batch (group : Group) (values : Record) : Batch :=
  group.members.map fun member => member.arguments values

def Member.error? (member : Member) (provider : String) (model : ArgumentModel) (values : Record) :
    Option RunError :=
  match model.check (member.arguments values) with
  | none => some .breakdown
  | some complaints =>
    if complaints.isEmpty then none else some (.typing ⟨provider, member.name, complaints⟩)

def Group.error? (group : Group) (model : ArgumentModel) (values : Record) : Option RunError :=
  group.members.findSome? fun member => member.error? group.provider model values

def Reply.outcome (provider : String) : Reply → Outcome
  | .returned left result =>
    match result.records provider left.length with
    | .ok records => .resolved records
    | .error failure => .failed failure
  | .raised (.typing error) => .mistyped error
  | .raised (.placeholder _) => .placeholder
  | .raised (.failure failure) => .failed failure

-- A group is checked before anything is called for it. Plans only name providers
-- they hold, so the stand-in for a missing one is never met.
def attempt (world : World) (providers : Providers) (values : Record) (tally : Tally) (group : Group) :
    Attempt × Tally :=
  let provider := providers.getD group.provider systemProvider
  let batch := group.batch values
  match group.error? provider.model values with
  | some error => (⟨group, batch, false, .rejected error, 0⟩, tally)
  | none =>
    match provider.callback with
    | .placeholder => (⟨group, batch, false, .placeholder, 0⟩, tally)
    | .registered number =>
      let conduct := world number
      let outcome := (conduct.reply (tally number) batch).outcome group.provider
      (⟨group, batch, true, outcome, conduct.delay (tally number) batch⟩, tally.count number)

def attemptAll (world : World) (providers : Providers) (values : Record) :
    Tally → List Group → List Attempt × Tally
  | tally, [] => ([], tally)
  | tally, group :: rest =>
    let (first, tally) := attempt world providers values tally group
    let (others, tally) := attemptAll world providers values tally rest
    (first :: others, tally)

def Outcome.fatal? : Outcome → Option RunError
  | .rejected error => some error
  | .mistyped error => some (.typing error)
  | _ => none

def Attempt.isFatal (attempt : Attempt) : Bool :=
  attempt.outcome.fatal?.isSome

def earliest : List Attempt → Option Attempt
  | [] => none
  | attempt :: rest =>
    match earliest rest with
    | none => some attempt
    | some other => if other.delay < attempt.delay then some other else some attempt

namespace Round

def firstFatal? (round : Round) : Option Attempt :=
  earliest (round.attempts.filter Attempt.isFatal)

def fatal? (round : Round) : Option RunError :=
  round.firstFatal?.bind fun attempt => attempt.outcome.fatal?

-- Attempts as long as the fatal one still come to their end, longer ones do not.
def isSettled (round : Round) (attempt : Attempt) : Bool :=
  match round.firstFatal? with
  | none => true
  | some fatal => attempt.delay ≤ fatal.delay

-- Shorter delays end first; among equal ones the order of the groups decides.
def settled (round : Round) : List Attempt :=
  (round.attempts.filter round.isSettled).mergeSort fun left right => left.delay ≤ right.delay

end Round
end WiredViews
