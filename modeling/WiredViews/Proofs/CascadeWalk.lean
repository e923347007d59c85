import WiredViews.Proofs.CascadeReach

-- The walk behind a failure, turn by turn. What is pending is a stack that may grow at a turn,
-- and a name may stand in it several times. Nothing is assumed of the table: services in it may
-- wait for each other, and children may have no row of their own.
namespace WiredViews

structure CascadeWalk where
  lost : List String
  pending : List String
deriving DecidableEq

def CascadeWalk.Covers (walk : CascadeWalk) (name : String) : Prop :=
  name ∈ walk.lost ∨ name ∈ walk.pending

namespace ChildTable
variable {children : ChildTable} {cascade : FailureCascade} {names : List String} {turns : Nat}
  {walk next : CascadeWalk}

def behind (children : ChildTable) : FailureCascade → String → List String
  | .direct, _ => []
  | .transitive, name => children.childrenOf name

def walkStart (children : ChildTable) (names : List String) : CascadeWalk :=
  ⟨[], names.flatMap children.childrenOf⟩

def walkTurn (children : ChildTable) (cascade : FailureCascade) (walk : CascadeWalk) : Option CascadeWalk :=
  match walk.pending.getLast? with
  | none => none
  | some name =>
    if name ∈ walk.lost then some { walk with pending := walk.pending.dropLast }
    else some ⟨name :: walk.lost, walk.pending.dropLast ++ children.behind cascade name⟩

inductive Walked (children : ChildTable) (cascade : FailureCascade) (names : List String) :
    Nat → CascadeWalk → Prop where
  | start : Walked children cascade names 0 (children.walkStart names)
  | turn {turns : Nat} {walk next : CascadeWalk} (earlier : Walked children cascade names turns walk)
      (taken : children.walkTurn cascade walk = some next) : Walked children cascade names (turns + 1) next

-- What is true between turns. Each turn takes one name off the stack, and a name puts others
-- there only when it is given up. So it is known what the turns and the stack come to, and what
-- is still ahead of the walk pays for all that a turn may add.
structure Midway (children : ChildTable) (cascade : FailureCascade) (names : List String) (turns : Nat)
    (walk : CascadeWalk) : Prop where
  once : walk.lost.Nodup
  sound : ∀ name, walk.Covers name → ∃ failed ∈ names, children.Loses cascade failed name
  begun : ∀ failed ∈ names, ∀ child ∈ children.childrenOf failed, walk.Covers child
  followed : ∀ parent ∈ walk.lost, ∀ child ∈ children.behind cascade parent, walk.Covers child
  counted : turns + walk.pending.length =
    (names.flatMap children.childrenOf).length + (walk.lost.flatMap (children.behind cascade)).length
  bounded : turns + walk.pending.length + ahead walk.lost children.rows ≤
    (names.flatMap children.childrenOf).length + ahead [] children.rows

theorem walkTurn_eq_none : children.walkTurn cascade walk = none ↔ walk.pending = [] := by
  unfold walkTurn
  cases last : walk.pending.getLast? with
  | none => simpa using last
  | some name =>
    have some_name : walk.pending ≠ [] := by
      intro empty
      rw [empty] at last
      cases last
    simp only [some_name, iff_false]
    split <;> simp

theorem walkTurn_cases (taken : children.walkTurn cascade walk = some next) :
    ∃ name rest, walk.pending = rest ++ [name] ∧ (name ∈ walk.lost ∧ next = ⟨walk.lost, rest⟩ ∨
      name ∉ walk.lost ∧ next = ⟨name :: walk.lost, rest ++ children.behind cascade name⟩) := by
  unfold walkTurn at taken
  split at taken
  · cases taken
  · rename_i name last
    obtain ⟨rest, split⟩ := List.getLast?_eq_some_iff.mp last
    have front : walk.pending.dropLast = rest := by simp [split]
    rw [front] at taken
    refine ⟨name, rest, split, ?_⟩
    split at taken
    · rename_i seen
      exact Or.inl ⟨seen, (Option.some.inj taken).symm⟩
    · rename_i fresh
      exact Or.inr ⟨fresh, (Option.some.inj taken).symm⟩

section Covered
variable {lost rest more : List String} {top name : String}

theorem covers_again (seen : top ∈ lost) (covered : CascadeWalk.Covers ⟨lost, rest ++ [top]⟩ name) :
    CascadeWalk.Covers ⟨lost, rest⟩ name := by
  rcases covered with before | pending
  · exact Or.inl before
  · rcases List.mem_append.mp pending with early | last
    · exact Or.inr early
    · exact Or.inl (List.mem_singleton.mp last ▸ seen)

theorem covers_fresh (covered : CascadeWalk.Covers ⟨lost, rest ++ [top]⟩ name) :
    CascadeWalk.Covers ⟨top :: lost, rest ++ more⟩ name := by
  rcases covered with before | pending
  · exact Or.inl (List.mem_cons_of_mem _ before)
  · rcases List.mem_append.mp pending with early | last
    · exact Or.inr (List.mem_append_left _ early)
    · exact Or.inl (List.mem_singleton.mp last ▸ List.mem_cons_self)

end Covered

theorem Loses.onwards {failed parent child : String} (lost : children.Loses cascade failed parent)
    (next : child ∈ children.behind cascade parent) : children.Loses cascade failed child := by
  cases cascade with
  | direct => cases next
  | transitive => exact Relation.TransGen.tail lost next

theorem loses_child {failed child : String} (kid : child ∈ children.childrenOf failed) :
    children.Loses cascade failed child := by
  cases cascade with
  | direct => exact kid
  | transitive => exact .single kid

theorem midway_start : children.Midway cascade names 0 (children.walkStart names) := by
  have first : ∀ child, (children.walkStart names).Covers child ↔
      ∃ failed ∈ names, child ∈ children.childrenOf failed := by
    simp [CascadeWalk.Covers, walkStart]
  constructor
  case once => exact List.nodup_nil
  case sound =>
    intro name covered
    obtain ⟨failed, listed, kid⟩ := (first name).mp covered
    exact ⟨failed, listed, loses_child kid⟩
  case begun =>
    intro failed listed child kid
    exact (first child).mpr ⟨failed, listed, kid⟩
  case followed =>
    intro parent lost
    cases lost
  case counted => simp [walkStart]
  case bounded => simp [walkStart]

section Turn
variable {lost rest : List String} {top : String}

theorem Midway.again (midway : children.Midway cascade names turns ⟨lost, rest ++ [top]⟩) (seen : top ∈ lost) :
    children.Midway cascade names (turns + 1) ⟨lost, rest⟩ := by
  have counted := midway.counted
  have bounded := midway.bounded
  simp only [List.length_append, List.length_singleton] at counted bounded
  constructor
  case once => exact midway.once
  case sound =>
    intro name covered
    apply midway.sound name
    exact covered.imp_right (List.mem_append_left _)
  case begun =>
    intro failed listed child kid
    exact covers_again seen (midway.begun failed listed child kid)
  case followed =>
    intro parent known child later
    exact covers_again seen (midway.followed parent known child later)
  case counted =>
    dsimp only
    omega
  case bounded =>
    dsimp only
    omega

theorem Midway.fresh (midway : children.Midway cascade names turns ⟨lost, rest ++ [top]⟩) (fresh : top ∉ lost) :
    children.Midway cascade names (turns + 1) ⟨top :: lost, rest ++ children.behind cascade top⟩ := by
  have counted := midway.counted
  have bounded := midway.bounded
  simp only [List.length_append, List.length_singleton] at counted bounded
  have paid := ahead_visit fresh children.rows
  have within : (children.behind cascade top).length ≤ ((Table.lookup top children.rows).getD []).length := by
    cases cascade with
    | direct => exact Nat.zero_le _
    | transitive => exact Nat.le_refl _
  have topmost : CascadeWalk.Covers ⟨lost, rest ++ [top]⟩ top := Or.inr (by simp)
  constructor
  case once => exact List.nodup_cons.mpr ⟨fresh, midway.once⟩
  case sound =>
    intro name covered
    rcases covered with known | pending
    · rcases List.mem_cons.mp known with rfl | before
      · exact midway.sound name topmost
      · exact midway.sound name (Or.inl before)
    · rcases List.mem_append.mp pending with early | later
      · exact midway.sound name (Or.inr (List.mem_append_left _ early))
      · obtain ⟨failed, listed, loses⟩ := midway.sound top topmost
        exact ⟨failed, listed, loses.onwards later⟩
  case begun =>
    intro failed listed child kid
    exact covers_fresh (midway.begun failed listed child kid)
  case followed =>
    intro parent known child later
    rcases List.mem_cons.mp known with rfl | before
    · exact Or.inr (List.mem_append_right _ later)
    · exact covers_fresh (midway.followed parent before child later)
  case counted =>
    simp only [List.length_append, List.flatMap_cons]
    omega
  case bounded =>
    simp only [List.length_append]
    omega

end Turn

theorem Midway.turn (midway : children.Midway cascade names turns walk)
    (taken : children.walkTurn cascade walk = some next) : children.Midway cascade names (turns + 1) next := by
  obtain ⟨top, rest, split, again⟩ := walkTurn_cases taken
  obtain ⟨lost, pending⟩ := walk
  cases split
  rcases again with ⟨seen, rfl⟩ | ⟨fresh, rfl⟩
  · exact midway.again seen
  · exact midway.fresh fresh

theorem Walked.midway (walked : children.Walked cascade names turns walk) :
    children.Midway cascade names turns walk := by
  induction walked with
  | start => exact midway_start
  | turn _ taken ih => exact ih.turn taken

theorem Walked.bounded (walked : children.Walked cascade names turns walk) :
    turns ≤ (names.flatMap children.childrenOf).length + ahead [] children.rows := by
  have bound := walked.midway.bounded
  omega

-- The induction is on the turns that the bound leaves.
theorem Walked.ends (walked : children.Walked cascade names turns walk) :
    ∃ turns last, children.Walked cascade names turns last ∧ last.pending = [] := by
  induction left : (names.flatMap children.childrenOf).length + ahead [] children.rows - turns
    using Nat.strongRecOn generalizing turns walk with
  | _ left ih =>
    cases taken : children.walkTurn cascade walk with
    | none => exact ⟨turns, walk, walked, walkTurn_eq_none.mp taken⟩
    | some next =>
      have later := walked.turn taken
      have bound := later.bounded
      exact ih _ (by omega) later rfl

theorem Midway.mem_lost (midway : children.Midway cascade names turns walk) (ended : walk.pending = [])
    {name : String} : name ∈ walk.lost ↔ ∃ failed ∈ names, children.Loses cascade failed name := by
  have settled : ∀ name, walk.Covers name → name ∈ walk.lost := by
    intro name covered
    apply covered.resolve_right
    rw [ended]
    exact List.not_mem_nil
  constructor
  · intro lost
    exact midway.sound name (Or.inl lost)
  · intro given
    obtain ⟨failed, listed, lost⟩ := given
    cases cascade with
    | direct => exact settled name (midway.begun failed listed name lost)
    | transitive =>
      change Relation.TransGen children.Child failed name at lost
      induction lost with
      | single kid => exact settled _ (midway.begun failed listed _ kid)
      | tail _ kid ih => exact settled _ (midway.followed _ ih _ kid)

-- What goes with the named services, by what the table says and by the walk through it. At its
-- end the walk has had one turn for each child of the named ones, and one for each child of those
-- it gave up if failures are passed on to these.
structure TakenAlong (children : ChildTable) (names : List String) : Prop where
  transitive : ∀ name, name ∈ dependents .transitive children names ↔
    ∃ failed ∈ names, children.Descends failed name
  direct : ∀ name, name ∈ dependents .direct children names ↔
    ∃ failed ∈ names, name ∈ children.childrenOf failed
  closed : ∀ parent ∈ dependents .transitive children names, ∀ child ∈ children.childrenOf parent,
    child ∈ dependents .transitive children names
  bounded : ∀ cascade turns walk, children.Walked cascade names turns walk →
    turns ≤ (names.flatMap children.childrenOf).length + ahead [] children.rows
  ends : ∀ cascade, ∃ turns last, children.Walked cascade names turns last ∧ last.pending = []
  found : ∀ cascade turns last, children.Walked cascade names turns last → last.pending = [] →
    last.lost.Nodup ∧ (∀ name, name ∈ last.lost ↔ name ∈ dependents cascade children names) ∧
      turns = (names.flatMap children.childrenOf).length + (last.lost.flatMap (children.behind cascade)).length

theorem dependents_reachable (children : ChildTable) (names : List String) : children.TakenAlong names := by
  constructor
  case transitive => exact fun _ => mem_dependents
  case direct => exact fun _ => mem_dependents
  case closed =>
    intro parent lost child kid
    obtain ⟨failed, listed, path⟩ := mem_dependents.mp lost
    exact mem_dependents.mpr ⟨failed, listed, Relation.TransGen.tail path kid⟩
  case bounded => exact fun _ _ _ walked => walked.bounded
  case ends => exact fun _ => Walked.start.ends
  case found =>
    intro cascade turns last walked ended
    have midway := walked.midway
    refine ⟨midway.once, fun name => ?_, ?_⟩
    · rw [midway.mem_lost ended, mem_dependents]
    · have counted := midway.counted
      rwa [ended, List.length_nil, Nat.add_zero] at counted

example : dependents .transitive (Table.ofList [("out", ["over", "over"]), ("over", ["out", "on"])]) ["out"] =
    ["on", "out", "over"] := by decide +kernel

end ChildTable
end WiredViews
