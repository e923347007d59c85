import Mathlib.Logic.Relation
import WiredViews.Cascade

namespace WiredViews
namespace ChildTable
variable {children : ChildTable} {visited frontier : List String} {name : String}

def Child (children : ChildTable) (parent child : String) : Prop :=
  child ∈ children.childrenOf parent

def Descends (children : ChildTable) : String → String → Prop :=
  Relation.TransGen children.Child

theorem reach_keeps : visited ⊆ reach children visited frontier := by
  induction visited, frontier using reach.induct children with
  | case1 visited => simp [reach]
  | case2 visited first rest seen ih =>
    rw [reach, if_pos seen]
    exact ih
  | case3 visited first rest fresh ih =>
    rw [reach, if_neg fresh]
    exact fun _ member => ih (List.mem_cons_of_mem _ member)

theorem reach_enters : frontier ⊆ reach children visited frontier := by
  induction visited, frontier using reach.induct children with
  | case1 visited => simp
  | case2 visited first rest seen ih =>
    rw [reach, if_pos seen]
    intro name member
    rcases List.mem_cons.mp member with rfl | later
    · exact reach_keeps seen
    · exact ih later
  | case3 visited first rest fresh ih =>
    rw [reach, if_neg fresh]
    intro name member
    rcases List.mem_cons.mp member with rfl | later
    · exact reach_keeps (by simp)
    · exact ih (List.mem_append_right _ later)

theorem reach_sound (found : name ∈ reach children visited frontier) :
    name ∈ visited ∨ ∃ first ∈ frontier, Relation.ReflTransGen children.Child first name := by
  induction visited, frontier using reach.induct children with
  | case1 visited =>
    rw [reach] at found
    exact Or.inl found
  | case2 visited first rest seen ih =>
    rw [reach, if_pos seen] at found
    rcases ih found with before | ⟨start, member, path⟩
    · exact Or.inl before
    · exact Or.inr ⟨start, List.mem_cons_of_mem _ member, path⟩
  | case3 visited first rest fresh ih =>
    rw [reach, if_neg fresh] at found
    rcases ih found with before | ⟨start, member, path⟩
    · rcases List.mem_cons.mp before with rfl | earlier
      · exact Or.inr ⟨name, by simp, .refl⟩
      · exact Or.inl earlier
    · rcases List.mem_append.mp member with child | later
      · exact Or.inr ⟨first, by simp, .head child path⟩
      · exact Or.inr ⟨start, List.mem_cons_of_mem _ later, path⟩

-- The children of everything visited are visited or ahead. That stays so, and at the
-- end nothing is ahead.
theorem reach_closed (followed : ∀ parent ∈ visited, ∀ child ∈ children.childrenOf parent,
      child ∈ visited ∨ child ∈ frontier) {parent child : String}
    (found : parent ∈ reach children visited frontier) (kid : child ∈ children.childrenOf parent) :
    child ∈ reach children visited frontier := by
  induction visited, frontier using reach.induct children with
  | case1 visited =>
    rw [reach] at found ⊢
    simpa using followed parent found child kid
  | case2 visited first rest seen ih =>
    rw [reach, if_pos seen] at found ⊢
    refine ih (fun parent before child kid => ?_) found
    rcases followed parent before child kid with visited | ahead
    · exact Or.inl visited
    · rcases List.mem_cons.mp ahead with rfl | later
      · exact Or.inl seen
      · exact Or.inr later
  | case3 visited first rest fresh ih =>
    rw [reach, if_neg fresh] at found ⊢
    refine ih (fun parent before child kid => ?_) found
    rcases List.mem_cons.mp before with rfl | earlier
    · exact Or.inr (List.mem_append_left _ kid)
    · rcases followed parent earlier child kid with visited | ahead
      · exact Or.inl (List.mem_cons_of_mem _ visited)
      · rcases List.mem_cons.mp ahead with rfl | later
        · exact Or.inl (by simp)
        · exact Or.inr (List.mem_append_right _ later)

theorem mem_reach : name ∈ reach children [] frontier ↔
    ∃ first ∈ frontier, Relation.ReflTransGen children.Child first name := by
  constructor
  · intro found
    simpa using reach_sound found
  · intro given
    obtain ⟨first, member, path⟩ := given
    induction path with
    | refl => exact reach_enters member
    | tail _ kid ih => exact reach_closed (by simp) ih kid

def Loses (children : ChildTable) : FailureCascade → String → String → Prop
  | .direct => children.Child
  | .transitive => children.Descends

theorem Loses.descends {cascade : FailureCascade} {failed : String} (lost : children.Loses cascade failed name) :
    children.Descends failed name := by
  cases cascade with
  | direct => exact .single lost
  | transitive => exact lost

theorem mem_dependents {cascade : FailureCascade} {names : List String} :
    name ∈ dependents cascade children names ↔ ∃ failed ∈ names, children.Loses cascade failed name := by
  cases cascade with
  | direct => exact List.mem_flatMap
  | transitive =>
    unfold dependents Loses Descends
    rw [mem_reach]
    simp only [List.mem_flatMap, Relation.TransGen.head'_iff]
    constructor
    · intro given
      obtain ⟨first, ⟨failed, listed, kid⟩, path⟩ := given
      exact ⟨failed, listed, first, kid, path⟩
    · intro given
      obtain ⟨failed, listed, first, kid, path⟩ := given
      exact ⟨first, ⟨failed, listed, kid⟩, path⟩

end ChildTable
end WiredViews
