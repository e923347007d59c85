import WiredViews.Proofs.ServiceArguments
import WiredViews.Proofs.Snapshots

-- The final values of a run solve the equations that the template states: what was
-- handed to providers is read off the final values, and what they gave back is in them.
namespace WiredViews

def Member.Given (member : Member) (values arguments : Record) : Prop :=
  ∀ argument, arguments.get? argument =
    ((member.dependencies.filter fun dependency => dependency.argument = argument).getLast?).map
      fun dependency => (values.get? dependency.source).getD .null

theorem arguments_given (member : Member) (values : Record) : member.Given values (member.arguments values) := by
  intro argument
  rw [Member.arguments, Table.get?_ofList, List.filter_map, List.getLast?_map, Option.map_map]
  rfl

theorem batch_given (group : Group) (values : Record) :
    List.Forall₂ (fun member arguments => member.Given values arguments) group.members (group.batch values) := by
  unfold Group.batch
  rw [List.forall₂_map_right_iff, List.forall₂_same]
  exact fun member _ => arguments_given member values

namespace Context
variable {context : Context} {providers : Providers} {policy : Policy} {world : World} {overrides : Record}

def Outputs (context : Context) (overrides values : Record) (service : String) (record : Option Record) : Prop :=
  ∀ name field, context.bindings.get? name = some (.reference service field) → name ∉ overrides.keys →
    values.get? name = record.map fun record => (record.get? field).getD .null

-- Services and records belong together by their places. Where the provider has taken entries out
-- of its batch, there are no records for the last services.
structure Gives (context : Context) (overrides values : Record) (attempt : Attempt) (left : Batch)
    (records : List Record) : Prop where
  placed : ∀ (index : Nat) (member : Member), attempt.group.members[index]? = some member →
    context.Outputs overrides values member.name records[index]?
  whole : left.length = attempt.batch.length →
    List.Forall₂ (fun member record => context.Filled overrides values member.name record)
      attempt.group.members records

structure Solved (context : Context) (providers : Providers) (world : World) (overrides values : Record)
    (attempt : Attempt) : Prop where
  served : ∀ member ∈ attempt.group.members,
    context.services.get? member.name = some ⟨attempt.group.provider, member.dependencies⟩
  made : ∃ provider, providers.get? attempt.group.provider = some provider ∧ attempt.Made world provider
  given : List.Forall₂ (fun member arguments => member.Given values arguments)
    attempt.group.members attempt.batch
  filled : ∀ records, attempt.outcome = .resolved records → ∃ provider left,
    providers.get? attempt.group.provider = some provider ∧ attempt.Answered world provider left records ∧
      context.Gives overrides values attempt left records

structure Consistent (context : Context) (providers : Providers) (world : World) (overrides : Record)
    (count : Nat) (progress : Progress) : Prop where
  served : ∀ attempt ∈ progress.attempts, ∀ member ∈ attempt.group.members,
    context.services.get? member.name = some ⟨attempt.group.provider, member.dependencies⟩ ∧
      context.rankOf member.name < count
  used : ∀ attempt ∈ progress.attempts, attempt.group.members ≠ []
  once : (progress.attempts.flatMap fun attempt => attempt.group.names).Nodup
  made : ∀ attempt ∈ progress.attempts,
    attempt.Made world (providers.getD attempt.group.provider systemProvider)
  handed : ∀ attempt ∈ progress.attempts, attempt.batch = attempt.group.batch progress.values
  written : ∀ answer ∈ progress.attempts.flatMap Attempt.answers,
    context.Filled overrides progress.values answer.1.name answer.2

section Step
variable {count : Nat} {level : Level} {progress : Progress}

theorem pass_batch (layered : context.Layered providers policy)
    (place : (context.plan providers policy).levels[count]? = some level) {group : Group}
    (served : ∀ member ∈ group.members,
      context.services.get? member.name = some ⟨group.provider, member.dependencies⟩ ∧
        context.rankOf member.name ≤ count) :
    group.batch ((context.plan providers policy).pass world overrides progress level).values =
      group.batch progress.values := by
  have held := fun member listed => (served member listed).1
  rw [group_batch_eq held, group_batch_eq held]
  exact List.map_congr_left fun member listed => pass_arguments layered.timely place (served member listed).2

theorem fresh_member (layered : context.Layered providers policy)
    (place : (context.plan providers policy).levels[count]? = some level) {attempt : Attempt}
    (made : attempt ∈ ((context.plan providers policy).roundOf world progress level).attempts)
    {member : Member} (listed : member ∈ attempt.group.members) :
    context.services.get? member.name = some ⟨attempt.group.provider, member.dependencies⟩ ∧
      context.rankOf member.name = count := by
  obtain ⟨held, rank, _⟩ := candidate_member layered place (round_candidate made) listed
  exact ⟨held, rank⟩

theorem Consistent.once_pass (layered : context.Layered providers policy)
    (place : (context.plan providers policy).levels[count]? = some level)
    (before : context.Consistent providers world overrides count progress) :
    (((context.plan providers policy).pass world overrides progress level).attempts.flatMap
      fun attempt => attempt.group.names).Nodup := by
  rw [pass_attempts, List.flatMap_append, List.nodup_append]
  refine ⟨before.once, layered.timely.round_once place, fun name old other new same => ?_⟩
  subst same
  obtain ⟨attempt, made, named⟩ := List.mem_flatMap.mp old
  obtain ⟨member, listed, rfl⟩ := List.mem_map.mp named
  obtain ⟨later, remade, renamed⟩ := List.mem_flatMap.mp new
  obtain ⟨twin, relisted, equal⟩ := List.mem_map.mp renamed
  have low := (before.served attempt made member listed).2
  have high := (fresh_member layered place remade relisted).2
  rw [equal] at high
  omega

theorem Consistent.handed_pass (layered : context.Layered providers policy)
    (place : (context.plan providers policy).levels[count]? = some level)
    (before : context.Consistent providers world overrides count progress) {attempt : Attempt}
    (made : attempt ∈ ((context.plan providers policy).pass world overrides progress level).attempts) :
    attempt.batch =
      attempt.group.batch ((context.plan providers policy).pass world overrides progress level).values := by
  rw [pass_attempts] at made
  rcases List.mem_append.mp made with old | new
  · rw [before.handed attempt old, pass_batch layered place fun member listed => ?_]
    obtain ⟨held, rank⟩ := before.served attempt old member listed
    exact ⟨held, Nat.le_of_lt rank⟩
  · rw [round_batch new, pass_batch layered place fun member listed => ?_]
    obtain ⟨held, rank⟩ := fresh_member layered place new listed
    exact ⟨held, Nat.le_of_eq rank⟩

theorem Consistent.written_pass (layered : context.Layered providers policy)
    (place : (context.plan providers policy).levels[count]? = some level)
    (before : context.Consistent providers world overrides count progress) {answer : Member × Record}
    (answered : answer ∈
      ((context.plan providers policy).pass world overrides progress level).attempts.flatMap Attempt.answers) :
    context.Filled overrides ((context.plan providers policy).pass world overrides progress level).values
      answer.1.name answer.2 := by
  rw [pass_attempts, List.flatMap_append] at answered
  rcases List.mem_append.mp answered with old | new
  · intro name field bound free
    rw [pass_low layered.timely place fun _ service field rebound => ?_]
    · exact before.written answer old name field bound free
    · obtain ⟨attempt, made, listed⟩ := answer_member old
      rw [bound] at rebound
      cases rebound
      exact (before.served attempt made answer.1 listed).2
  · exact pass_written (layered.timely.round_once place) new

theorem consistent_pass (layered : context.Layered providers policy)
    (place : (context.plan providers policy).levels[count]? = some level)
    (before : context.Consistent providers world overrides count progress) :
    context.Consistent providers world overrides (count + 1)
      ((context.plan providers policy).pass world overrides progress level) := by
  constructor
  case served =>
    rw [pass_attempts]
    intro attempt made member listed
    rcases List.mem_append.mp made with old | new
    · obtain ⟨held, rank⟩ := before.served attempt old member listed
      exact ⟨held, Nat.lt_succ_of_lt rank⟩
    · obtain ⟨held, rank⟩ := fresh_member layered place new listed
      exact ⟨held, by omega⟩
  case used =>
    rw [pass_attempts]
    intro attempt made
    rcases List.mem_append.mp made with old | new
    · exact before.used attempt old
    · exact (mem_candidates.mp (round_candidate new)).1
  case once => exact before.once_pass layered place
  case made =>
    rw [pass_attempts]
    intro attempt made
    rcases List.mem_append.mp made with old | new
    · exact before.made attempt old
    · exact round_made new
  case handed =>
    intro attempt made
    exact before.handed_pass layered place made
  case written =>
    intro answer answered
    exact before.written_pass layered place answered

end Step

theorem consistent_start (tally : Tally) : context.Consistent providers world overrides 0
    (.start (context.plan providers policy) overrides tally) := by
  constructor <;> simp [Progress.attempts, Progress.start]

-- A service takes part in one attempt, so what has no place there has none anywhere.
theorem unanswered {attempts : List Attempt} (once : (attempts.flatMap fun attempt => attempt.group.names).Nodup)
    {attempt : Attempt} (made : attempt ∈ attempts) {records : List Record}
    (resolved : attempt.outcome = .resolved records) {index : Nat} {member : Member}
    (placed : attempt.group.members[index]? = some member) (beyond : records.length ≤ index) :
    ∀ answer ∈ attempts.flatMap Attempt.answers, answer.1.name ≠ member.name := by
  intro answer answered same
  obtain ⟨other, remade, found⟩ := List.mem_flatMap.mp answered
  obtain ⟨others, place, ended, standing, held⟩ := answer_placed.mp found
  have named : member.name ∈ attempt.group.names := List.mem_map_of_mem (List.mem_of_getElem? placed)
  have renamed : member.name ∈ other.group.names := same ▸ List.mem_map_of_mem (List.mem_of_getElem? standing)
  obtain rfl := attempts_apart once made remade named renamed
  rw [resolved] at ended
  cases ended
  have first : attempt.group.names[index]? = some member.name := by simp [Group.names, placed]
  have second : attempt.group.names[place]? = some member.name := by simp [Group.names, standing, same]
  have inside := (List.getElem?_eq_some_iff.mp first).1
  have equal := (List.getElem?_inj inside ((List.nodup_flatMap.mp once).1 attempt made)).mp (first.trans second.symm)
  have within := (List.getElem?_eq_some_iff.mp held).1
  omega

theorem Consistent.gives {count : Nat} {progress : Progress} {rounds : List Round} {attempt : Attempt} {left : Batch}
    {records : List Record} (consistent : context.Consistent providers world overrides count progress)
    (values : progress.values = (context.plan providers policy).snapshot overrides rounds)
    (attempts : progress.attempts = rounds.flatMap Round.attempts) (made : attempt ∈ progress.attempts)
    (resolved : attempt.outcome = .resolved records) (even : records.length = left.length) :
    context.Gives overrides progress.values attempt left records := by
  have filled : ∀ (index : Nat) (member : Member) (record : Record), attempt.group.members[index]? = some member →
      records[index]? = some record → context.Filled overrides progress.values member.name record := by
    intro index member record placed held
    have answered : (member, record) ∈ attempt.answers := answer_placed.mpr ⟨records, index, resolved, placed, held⟩
    exact consistent.written _ (List.mem_flatMap.mpr ⟨attempt, made, answered⟩)
  constructor
  case placed =>
    intro index member placed
    cases held : records[index]? with
    | some record => exact filled index member record placed held
    | none =>
      intro name field bound free
      rw [values]
      refine snapshot_lacking bound free ?_
      rw [← attempts]
      exact unanswered consistent.once made resolved placed (List.getElem?_eq_none_iff.mp held)
  case whole =>
    intro kept
    have sized : attempt.batch.length = attempt.group.members.length := by
      rw [consistent.handed attempt made, Group.batch, List.length_map]
    refine List.forall₂_iff_get.mpr ⟨by rw [even, kept, sized], fun index within _ => ?_⟩
    exact filled index _ _ (List.getElem?_eq_getElem within) (List.getElem?_eq_getElem _)

theorem Consistent.given {count : Nat} {progress : Progress}
    (consistent : context.Consistent providers world overrides count progress) {attempt : Attempt}
    (made : attempt ∈ progress.attempts) :
    List.Forall₂ (fun member arguments => member.Given progress.values arguments) attempt.group.members
      attempt.batch := by
  rw [consistent.handed attempt made]
  exact batch_given _ _

theorem Consistent.solved {count : Nat} {progress : Progress} {rounds : List Round}
    (consistent : context.Consistent providers world overrides count progress)
    (known : context.ProvidersKnown providers)
    (values : progress.values = (context.plan providers policy).snapshot overrides rounds)
    (attempts : progress.attempts = rounds.flatMap Round.attempts) {attempt : Attempt}
    (made : attempt ∈ progress.attempts) :
    context.Solved providers world overrides progress.values attempt := by
  obtain ⟨first, listed⟩ := List.exists_mem_of_ne_nil _ (consistent.used attempt made)
  obtain ⟨provider, held⟩ := Table.mem_keys.mp
    (known _ (Table.get?_eq_some.mp (consistent.served attempt made first listed).1))
  have call := consistent.made attempt made
  rw [Table.getD_of_get? held] at call
  constructor
  case served => exact fun member listed => (consistent.served attempt made member listed).1
  case made => exact ⟨provider, held, call⟩
  case given => exact consistent.given made
  case filled =>
    intro records resolved
    obtain ⟨left, number, calls, registered, replied⟩ := call.answered resolved
    exact ⟨provider, left, held, ⟨number, calls, registered, replied⟩,
      consistent.gives values attempts made resolved replied.length⟩

theorem returned_consistent {tally : Tally} {result : RunResult} (layered : context.Layered providers policy)
    (returned : ((context.plan providers policy).run world overrides tally).result = .ok result) :
    ∃ count progress, context.Consistent providers world overrides count progress ∧
      ((context.plan providers policy).run world overrides tally).Reaches (context.plan providers policy) result
        count progress :=
  run_invariant returned (consistent_start tally) fun _ _ _ place before _ => consistent_pass layered place before

end Context

def roundTrip : Context where
  bindings := Table.ofList [("start", .constant "Oslo"), ("stop", .reference "out" "goal"),
    ("end", .reference "back" "goal")]
  services := Table.ofList [("back", ⟨"Trip", [⟨"from", "stop"⟩]⟩), ("out", ⟨"Trip", [⟨"from", "start"⟩]⟩)]

def railway : Providers :=
  Table.ofList [("Trip", ⟨∅, .registered 0, false⟩)]

def standstill : World := fun _ =>
  ⟨fun _ batch => .returned batch (.tuple (batch.map fun arguments => .object [("goal", arguments.read "from")])),
    fun _ _ => 0⟩

end WiredViews
