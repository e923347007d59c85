import WiredViews.Proofs.LevelPasses

namespace WiredViews

def Attempt.goesTo (attempt : Attempt) (providers : Providers) (number : Nat) : Bool :=
  attempt.called && decide ((providers.get? attempt.group.provider).map Provider.callback = some (.registered number))

def callsTo (providers : Providers) (number : Nat) (attempts : List Attempt) : Nat :=
  attempts.countP fun attempt => attempt.goesTo providers number

structure Attempt.Replied (attempt : Attempt) (conduct : Conduct) (calls : Nat) : Prop where
  outcome : attempt.outcome =
    (conduct.reply calls attempt.batch).outcome attempt.group.provider
  delay : attempt.delay = conduct.delay calls attempt.batch

structure Tallied (providers : Providers) (world : World) (before : Tally) (attempts : List Attempt)
    (after : Tally) : Prop where
  counted : ∀ number, after number = before number + callsTo providers number attempts
  replied : ∀ (index : Nat) (attempt : Attempt), attempts[index]? = some attempt → attempt.called = true →
    ∃ number, attempt.goesTo providers number = true ∧
      attempt.Replied (world number) (before number + callsTo providers number (attempts.take index))

section Tallies
variable {providers : Providers} {world : World} {before middle after : Tally} {first second : List Attempt}

theorem tallied_nil : Tallied providers world before [] before :=
  ⟨fun _ => rfl, nofun⟩

theorem Tallied.append (early : Tallied providers world before first middle)
    (late : Tallied providers world middle second after) :
    Tallied providers world before (first ++ second) after := by
  constructor
  case counted =>
    intro number
    rw [late.counted, early.counted, callsTo, callsTo, callsTo, List.countP_append, Nat.add_assoc]
  case replied =>
    intro index attempt listed called
    by_cases inside : index < first.length
    · rw [List.getElem?_append_left inside] at listed
      rw [List.take_append_of_le_length (Nat.le_of_lt inside)]
      exact early.replied index attempt listed called
    · rw [List.getElem?_append_right (Nat.le_of_not_lt inside)] at listed
      obtain ⟨number, goes, replied⟩ := late.replied _ attempt listed called
      refine ⟨number, goes, ?_⟩
      have split : (first ++ second).take index = first ++ second.take (index - first.length) := by
        rw [List.take_append, List.take_of_length_le (Nat.le_of_not_lt inside)]
      rw [early.counted] at replied
      rwa [split, callsTo, List.countP_append, ← Nat.add_assoc]

theorem goesTo_iff {attempt : Attempt} {number : Nat} : attempt.goesTo providers number = true ↔
    attempt.called = true ∧
      (providers.get? attempt.group.provider).map Provider.callback = some (.registered number) := by
  simp [Attempt.goesTo]

theorem tallied_uncalled {attempt : Attempt} (quiet : attempt.called = false) :
    Tallied providers world before [attempt] before := by
  constructor
  case counted => simp [callsTo, Attempt.goesTo, quiet]
  case replied =>
    intro index made listed called
    rw [List.mem_singleton.mp (List.mem_of_getElem? listed), quiet] at called
    cases called

theorem tallied_called {attempt : Attempt} {number : Nat} (goes : attempt.goesTo providers number = true)
    (replied : attempt.Replied (world number) (before number)) :
    Tallied providers world before [attempt] (before.count number) := by
  obtain ⟨called, held⟩ := goesTo_iff.mp goes
  constructor
  case counted =>
    intro other
    by_cases same : other = number
    · subst same
      simp [Tally.count, callsTo, goes]
    · have elsewhere : attempt.goesTo providers other = false := by
        simp [Attempt.goesTo, held, Ne.symm same]
      simp [Tally.count, callsTo, elsewhere, same]
  case replied =>
    intro index made listed _
    have within := (List.getElem?_eq_some_iff.mp listed).1
    rw [List.length_singleton, Nat.lt_one_iff] at within
    subst within
    cases listed
    exact ⟨number, goes, replied⟩

end Tallies

section Attempts
variable {providers : Providers} {world : World} {values : Record} {tally : Tally}

theorem held_callback {name : String} {number : Nat}
    (registered : (providers.getD name systemProvider).callback = .registered number) :
    (providers.get? name).map Provider.callback = some (.registered number) := by
  unfold Table.getD at registered
  cases held : providers.get? name with
  | none =>
    rw [held] at registered
    cases registered
  | some provider =>
    rw [held] at registered
    exact congrArg some registered

theorem attempt_tallied (group : Group) : Tallied providers world tally
    [(attempt world providers values tally group).1] (attempt world providers values tally group).2 := by
  unfold attempt
  dsimp only
  split
  · exact tallied_uncalled rfl
  · split
    · exact tallied_uncalled rfl
    · rename_i number registered
      exact tallied_called (goesTo_iff.mpr ⟨rfl, held_callback registered⟩) ⟨rfl, rfl⟩

theorem attemptAll_tallied (groups : List Group) : Tallied providers world tally
    (attemptAll world providers values tally groups).1 (attemptAll world providers values tally groups).2 := by
  induction groups generalizing tally with
  | nil => exact tallied_nil
  | cons group rest ih =>
    rw [attemptAll]
    exact (attempt_tallied group).append ih

end Attempts

section Runs
variable {plan : Plan} {world : World} {overrides : Record} {start progress : Progress} {level : Level}

theorem halt_attempts (plan : Plan) (world : World) : (plan.halt world progress level).attempts =
    progress.attempts ++ (plan.roundOf world progress level).attempts := by
  rw [Progress.attempts, Plan.halt, List.flatMap_append, List.flatMap_singleton]
  rfl

theorem halt_tallied (before : Tallied plan.providers world start.tally progress.attempts progress.tally) :
    Tallied plan.providers world start.tally (plan.halt world progress level).attempts
      (plan.halt world progress level).tally := by
  rw [halt_attempts]
  exact before.append (attemptAll_tallied _)

theorem pass_tally : (plan.pass world overrides progress level).tally = (plan.halt world progress level).tally := by
  rw [Plan.pass, settle_all_eq]

theorem passes_tallied {passed : List Level} (fresh : start.attempts = [])
    (passes : plan.Passes world overrides start passed progress) :
    Tallied plan.providers world start.tally progress.attempts progress.tally := by
  induction passes with
  | start =>
    rw [fresh]
    exact tallied_nil
  | level earlier busy calm ih =>
    rw [pass_tally, pass_attempts, ← halt_attempts]
    exact halt_tallied ih

-- However a run ends, its calls are all counted.
theorem run_tallied (plan : Plan) (world : World) (overrides : Record) (tally : Tally) :
    Tallied plan.providers world tally (plan.run world overrides tally).progress.attempts
      (plan.run world overrides tally).progress.tally := by
  have finishes := run_finishes plan world overrides tally
  generalize plan.run world overrides tally = run at finishes ⊢
  cases finishes with
  | completed passes => exact passes_tallied rfl passes
  | stopped passes split idle => exact passes_tallied rfl passes
  | aborted passes split busy fatal => exact halt_tallied (passes_tallied rfl passes)

end Runs
end WiredViews
