import WiredViews.Proofs.LevelPasses

-- Where a run stood when a round was made can be read off the rounds before it.
namespace WiredViews

def Plan.prunedBy (plan : Plan) (rounds : List Round) : List String :=
  (rounds.flatMap Round.attempts).flatMap plan.givenUp

def Plan.snapshot (plan : Plan) (overrides : Record) (rounds : List Round) : Record :=
  (Progress.start plan overrides .none).values.insertAll
    ((rounds.flatMap Round.attempts).flatMap (plan.writes overrides))

structure Plan.Played (plan : Plan) (world : World) (overrides : Record) (rounds : List Round) (index : Nat)
    (level : Level) (before : Progress) (round : Round) : Prop where
  place : plan.levels[index]? = some level
  earlier : before.rounds = rounds.take index
  pruned : before.pruned = plan.prunedBy (rounds.take index)
  values : before.values = plan.snapshot overrides (rounds.take index)
  busy : before.candidates level ≠ []
  made : round = plan.roundOf world before level

section Played
variable {plan : Plan} {world : World} {overrides : Record} {rounds : List Round} {index : Nat} {level : Level}
  {before : Progress} {round : Round}
  (played : plan.Played world overrides rounds index level before round) {attempt : Attempt}
  (made : attempt ∈ round.attempts)
include played made

theorem Plan.Played.candidate : attempt.group ∈ before.candidates level := by
  rw [played.made] at made
  exact round_candidate made

theorem Plan.Played.batch : attempt.batch = attempt.group.batch before.values := by
  rw [played.made] at made
  exact round_batch made

theorem Plan.Played.attempted :
    Attempted world (plan.providers.getD attempt.group.provider systemProvider) before.values attempt := by
  rw [played.made] at made
  exact round_attempted made

end Played

section Passes
variable {plan : Plan} {world : World} {overrides : Record} {tally : Tally} {passed : List Level}
  {progress : Progress}
  (passes : plan.Passes world overrides (.start plan overrides tally) passed progress)
include passes

theorem Plan.Passes.pruned_eq : progress.pruned = plan.prunedBy progress.rounds := by
  induction passes with
  | start => rfl
  | level _ _ _ ih =>
    rw [pass_pruned, pass_rounds, ih, Plan.prunedBy, Plan.prunedBy, List.flatMap_append, List.flatMap_singleton,
      List.flatMap_append]

theorem Plan.Passes.values_eq : progress.values = plan.snapshot overrides progress.rounds := by
  induction passes with
  | start => rfl
  | level _ _ _ ih =>
    rw [pass_values, pass_rounds, ih, Plan.snapshot, Plan.snapshot, List.flatMap_append, List.flatMap_singleton,
      List.flatMap_append, Table.insertAll_append]

theorem Plan.Passes.rounds_length : progress.rounds.length = passed.length := by
  induction passes with
  | start => rfl
  | level _ _ _ ih =>
    rw [pass_rounds, List.length_append, List.length_append, ih, List.length_singleton, List.length_singleton]

theorem Plan.Passes.calm : ∀ round ∈ progress.rounds, round.fatal? = none := by
  induction passes with
  | start => exact nofun
  | level _ _ calm ih =>
    rw [pass_rounds]
    exact List.forall_mem_append.mpr ⟨ih, by simpa using calm⟩

theorem Plan.Passes.played_next {level : Level} {later : List Level} (split : plan.levels = passed ++ level :: later)
    (busy : progress.candidates level ≠ [])
    (earlier : ∀ index round, progress.rounds[index]? = some round →
      ∃ level before, plan.Played world overrides progress.rounds index level before round)
    {index : Nat} {round : Round}
    (listed : (progress.rounds ++ [plan.roundOf world progress level])[index]? = some round) :
    ∃ own before,
      plan.Played world overrides (progress.rounds ++ [plan.roundOf world progress level]) index own before round := by
  by_cases old : index < progress.rounds.length
  · rw [List.getElem?_append_left old] at listed
    obtain ⟨level, before, played⟩ := earlier index round listed
    refine ⟨level, before, played.place, ?_, ?_, ?_, played.busy, played.made⟩ <;>
      rw [List.take_append_of_le_length (Nat.le_of_lt old)]
    · exact played.earlier
    · exact played.pruned
    · exact played.values
  · have new := (List.getElem?_eq_some_iff.mp listed).1
    rw [List.length_append, List.length_singleton] at new
    have last : index = progress.rounds.length := by omega
    subst last
    rw [List.getElem?_concat_length, Option.some.injEq] at listed
    refine ⟨level, progress, ?_, ?_, ?_, ?_, busy, listed.symm⟩
    · rw [passes.rounds_length]
      exact level_next split
    · exact List.take_left.symm
    · rw [List.take_left, passes.pruned_eq]
    · rw [List.take_left, passes.values_eq]

theorem Plan.Passes.played (within : passed <+: plan.levels) {index : Nat} {round : Round}
    (listed : progress.rounds[index]? = some round) :
    ∃ level before, plan.Played world overrides progress.rounds index level before round := by
  induction passes generalizing index round with
  | start => simp [Progress.start] at listed
  | @level passed progress level earlier busy calm ih =>
    obtain ⟨later, equal⟩ := within
    have split : plan.levels = passed ++ level :: later := by
      rw [← equal, List.append_assoc, List.singleton_append]
    rw [pass_rounds] at listed ⊢
    exact earlier.played_next split busy (fun _ _ => ih ⟨level :: later, split.symm⟩) listed

end Passes

section Runs
variable {plan : Plan} {world : World} {overrides : Record} {tally : Tally}

-- Also a round that ends the run has been made from what the others have led to.
theorem run_played {index : Nat} {round : Round}
    (listed : (plan.run world overrides tally).progress.rounds[index]? = some round) :
    ∃ level before, plan.Played world overrides (plan.run world overrides tally).progress.rounds index
      level before round := by
  have finishes := run_finishes plan world overrides tally
  generalize plan.run world overrides tally = run at finishes listed ⊢
  cases finishes with
  | completed passes => exact passes.played (List.prefix_refl _) listed
  | @stopped passed later level _ passes split _ => exact passes.played ⟨level :: later, split.symm⟩ listed
  | @aborted passed later level _ _ passes split busy _ =>
    exact passes.played_next split busy (fun _ _ => passes.played ⟨level :: later, split.symm⟩) listed

theorem run_played_mem {round : Round} (member : round ∈ (plan.run world overrides tally).progress.rounds) :
    ∃ index level before, plan.Played world overrides (plan.run world overrides tally).progress.rounds index
      level before round := by
  obtain ⟨index, listed⟩ := List.getElem?_of_mem member
  exact ⟨index, run_played listed⟩

theorem run_error_iff {error : RunError} : (plan.run world overrides tally).result = .error error ↔
    ∃ round ∈ (plan.run world overrides tally).progress.rounds, round.fatal? = some error := by
  have finishes := run_finishes plan world overrides tally
  generalize plan.run world overrides tally = run at finishes ⊢
  have quiet : ∀ {passed progress}, plan.Passes world overrides (.start plan overrides tally) passed progress →
      ¬ ∃ round ∈ progress.rounds, round.fatal? = some error := by
    rintro passed progress passes ⟨round, member, fatal⟩
    rw [passes.calm round member] at fatal
    cases fatal
  cases finishes with
  | completed passes => exact ⟨nofun, fun fatal => (quiet passes fatal).elim⟩
  | stopped passes _ _ => exact ⟨nofun, fun fatal => (quiet passes fatal).elim⟩
  | @aborted passed later level progress ending passes _ _ last =>
    have rounds : ∀ round, round ∈ (plan.halt world progress level).rounds ↔
        round ∈ progress.rounds ∨ round = plan.roundOf world progress level := by
      simp [Plan.halt]
    constructor
    · intro returned
      cases returned
      exact ⟨_, (rounds _).mpr (Or.inr rfl), last⟩
    · rintro ⟨round, member, found⟩
      rcases (rounds round).mp member with earlier | rfl
      · exact (quiet passes ⟨round, earlier, found⟩).elim
      · rw [last, Option.some.injEq] at found
        exact congrArg Except.error found

theorem run_calm {result : RunResult} (returned : (plan.run world overrides tally).result = .ok result) :
    ∀ round ∈ (plan.run world overrides tally).progress.rounds, round.fatal? = none := by
  intro round member
  cases fatal : round.fatal? with
  | none => rfl
  | some error =>
    have ended := run_error_iff.mpr ⟨round, member, fatal⟩
    rw [returned] at ended
    cases ended

theorem run_fatal_last {index : Nat} {round : Round} {error : RunError}
    (listed : (plan.run world overrides tally).progress.rounds[index]? = some round)
    (fatal : round.fatal? = some error) :
    index + 1 = (plan.run world overrides tally).progress.rounds.length := by
  have finishes := run_finishes plan world overrides tally
  generalize plan.run world overrides tally = run at finishes listed ⊢
  have quiet : ∀ {passed progress}, plan.Passes world overrides (.start plan overrides tally) passed progress →
      progress.rounds[index]? ≠ some round := by
    intro passed progress passes earlier
    rw [passes.calm round (List.mem_of_getElem? earlier)] at fatal
    cases fatal
  cases finishes with
  | completed passes => exact (quiet passes listed).elim
  | stopped passes _ _ => exact (quiet passes listed).elim
  | @aborted passed later level progress ending passes _ _ last =>
    change (progress.rounds ++ [plan.roundOf world progress level])[index]? = some round at listed
    change index + 1 = (progress.rounds ++ [plan.roundOf world progress level]).length
    have within := (List.getElem?_eq_some_iff.mp listed).1
    rw [List.length_append, List.length_singleton] at within ⊢
    by_contra short
    rw [List.getElem?_append_left (by omega)] at listed
    exact quiet passes listed

end Runs
end WiredViews
