import Mathlib.Data.Finset.Card
import WiredViews.Proofs.Feeding
import WiredViews.Ranking

namespace WiredViews
namespace RankingState
variable {rank : Nat} {kids : List String} {state : RankingState} {name : String}

def rankOf (state : RankingState) (name : String) : Nat :=
  state.ranks.getD name 0

theorem get?_rankOf (listed : name ∈ state.ranks.keys) : state.ranks.get? name = some (state.rankOf name) := by
  obtain ⟨rank, held⟩ := Table.mem_keys.mp listed
  rw [rankOf, Table.getD_of_get? held, held]

theorem pending_visits (distinct : kids.Nodup) :
    (kids.foldl (visit rank) state).pending.getD name 0 =
      if name ∈ kids then state.pending.getD name 0 - 1 else state.pending.getD name 0 := by
  induction kids generalizing state with
  | nil => simp
  | cons kid rest ih =>
    rw [List.nodup_cons] at distinct
    rw [List.foldl_cons, ih distinct.2]
    unfold visit Table.getD
    simp only [Table.get?_insert, List.mem_cons]
    by_cases same : kid = name
    · subst same
      simp [distinct.1]
    · simp [same, Ne.symm same]

theorem pending_keys_visits (known : ∀ kid ∈ kids, kid ∈ state.pending.keys) :
    (kids.foldl (visit rank) state).pending.keys = state.pending.keys := by
  induction kids generalizing state with
  | nil => rfl
  | cons kid rest ih =>
    have same : (visit rank state kid).pending.keys = state.pending.keys :=
      Table.keys_insert_of_mem (known kid (by simp))
    rw [List.foldl_cons, ih, same]
    intro other member
    rw [same]
    exact known other (List.mem_cons_of_mem _ member)

theorem rankOf_visits (distinct : kids.Nodup) :
    (kids.foldl (visit rank) state).rankOf name =
      if name ∈ kids then max (state.rankOf name) (rank + 1) else state.rankOf name := by
  induction kids generalizing state with
  | nil => simp
  | cons kid rest ih =>
    rw [List.nodup_cons] at distinct
    rw [List.foldl_cons, ih distinct.2]
    unfold visit rankOf Table.getD
    simp only [Table.get?_insert, List.mem_cons]
    by_cases same : kid = name
    · subst same
      simp [distinct.1]
    · simp [same, Ne.symm same]

theorem rank_keys_visits :
    name ∈ (kids.foldl (visit rank) state).ranks.keys ↔ name ∈ kids ∨ name ∈ state.ranks.keys := by
  induction kids generalizing state with
  | nil => simp
  | cons kid rest ih =>
    rw [List.foldl_cons, ih, List.mem_cons]
    unfold visit
    rw [Table.mem_keys_insert]
    tauto

theorem queue_visits (distinct : kids.Nodup) :
    (kids.foldl (visit rank) state).queue =
      state.queue ++ kids.filter fun kid => state.pending.getD kid 0 - 1 = 0 := by
  induction kids generalizing state with
  | nil => simp
  | cons kid rest ih =>
    rw [List.nodup_cons] at distinct
    have kept : ∀ other ∈ rest, (visit rank state kid).pending.getD other 0 = state.pending.getD other 0 := by
      intro other member
      have differ : kid ≠ other := fun same => distinct.1 (same ▸ member)
      unfold visit Table.getD
      simp only [Table.get?_insert, if_neg differ]
    rw [List.foldl_cons, ih distinct.2, List.filter_congr (fun other member => by rw [kept other member]),
      List.filter_cons]
    unfold visit
    by_cases last : state.pending.getD kid 0 - 1 = 0 <;> simp [last]

section Steps
variable {children : Table String (List String)}

theorem steps_idle (idle : state.queue = []) (count : Nat) : state.steps children count = state := by
  have still : state.step children = state := by
    unfold step
    rw [idle]
  induction count with
  | zero => rfl
  | succ count ih => rw [steps, still, ih]

theorem steps_add (first second : Nat) :
    state.steps children (first + second) = (state.steps children first).steps children second := by
  induction first generalizing state with
  | zero => rw [Nat.zero_add]; rfl
  | succ first ih => rw [Nat.succ_add, steps, steps, ih]

end Steps
end RankingState

namespace Context
variable {context : Context}

-- The services that have had their turn are listed apart: the state does not record
-- them. Nobody has a turn twice, or before all parents have had theirs.
structure Ranked (context : Context) (finished : List String) (state : RankingState) : Prop where
  once : (finished ++ state.queue).Nodup
  turns : ∀ name, name ∈ finished ++ state.queue ↔
    name ∈ context.services.keys ∧ ∀ parent ∈ context.parentsOf name, parent ∈ finished
  counted : state.pending.keys = context.services.keys
  pending : ∀ name ∈ context.services.keys,
    state.pending.getD name 0 = (context.parentsOf name).countP (· ∉ finished)
  ranked : ∀ name, name ∈ state.ranks.keys ↔
    name ∈ context.roots ∨ ∃ parent ∈ context.parentsOf name, parent ∈ finished
  above : ∀ name, ∀ parent ∈ context.parentsOf name, parent ∈ finished →
    state.rankOf parent < state.rankOf name
  attained : ∀ name, state.rankOf name = 0 ∨
    ∃ parent ∈ context.parentsOf name, parent ∈ finished ∧ state.rankOf name = state.rankOf parent + 1

theorem ranking_starts : context.Ranked [] context.rankingStart := by
  have zero : ∀ name, context.rankingStart.rankOf name = 0 := by
    intro name
    unfold rankingStart RankingState.rankOf Table.getD
    by_cases root : name ∈ context.roots
    · have held : (Table.ofList (context.roots.map fun name => (name, 0))).get? name = some 0 :=
        Table.get?_insertAll_of_agree (by simpa using root) (by simp)
      simp [held]
    · have absent : (Table.ofList (context.roots.map fun name => (name, 0))).get? name = none :=
        Table.get?_insertAll_of_absent (by simpa using root)
      simp [absent]
  refine ⟨?_, ?_, ?_, ?_, ?_, by simp, fun name => Or.inl (zero name)⟩
  · simpa [rankingStart] using nodup_roots
  · intro name
    simp only [rankingStart, List.nil_append, mem_roots, List.not_mem_nil, imp_false,
      List.eq_nil_iff_forall_not_mem]
  · rw [← context.parents_keys]
    exact Table.keys_mapRows _ _
  · intro name declared
    unfold rankingStart Table.getD
    simp only [Table.get?_mapRows, get?_parents_of_mem declared]
    simp
  · intro name
    unfold rankingStart Table.ofList
    rw [Table.mem_keys_insertAll]
    simp [Table.mem_keys]

section Between
variable {finished : List String} {state : RankingState} {name : String}

theorem Ranked.rank_held (ranked : context.Ranked finished state) (listed : name ∈ finished ++ state.queue) :
    state.ranks.get? name = some (state.rankOf name) := by
  obtain ⟨known, all⟩ := (ranked.turns name).mp listed
  refine RankingState.get?_rankOf ((ranked.ranked name).mpr ?_)
  cases parents : context.parentsOf name with
  | nil => exact Or.inl (mem_roots.mpr ⟨known, parents⟩)
  | cons parent rest => exact Or.inr ⟨parent, by simp, all parent (by simp [parents])⟩

theorem Ranked.bounded (ranked : context.Ranked finished state) :
    finished.length + state.queue.length ≤ context.services.size := by
  have within : (finished ++ state.queue).length ≤ context.services.keys.length :=
    (ranked.once.subperm fun name member => ((ranked.turns name).mp member).1).length_le
  rwa [List.length_append, Table.keys, List.length_map] at within

end Between

theorem countP_waiting {parents finished : List String} {name : String} (distinct : parents.Nodup)
    (listed : name ∈ parents) (fresh : name ∉ finished) :
    parents.countP (· ∉ finished ++ [name]) = parents.countP (· ∉ finished) - 1 := by
  induction parents with
  | nil => simp at listed
  | cons parent rest ih =>
    rw [List.nodup_cons] at distinct
    by_cases same : parent = name
    · subst same
      have others : rest.countP (· ∉ finished ++ [parent]) = rest.countP (· ∉ finished) := by
        refine List.countP_congr fun other member => ?_
        have differ : other ≠ parent := fun equal => distinct.1 (equal ▸ member)
        simp [differ]
      rw [List.countP_cons_of_neg (by simp), List.countP_cons_of_pos (by simpa using fresh), others]
      rfl
    · have later : name ∈ rest := (List.mem_cons.mp listed).resolve_left (Ne.symm same)
      have positive : 0 < rest.countP (· ∉ finished) :=
        List.countP_pos_iff.mpr ⟨name, later, by simpa using fresh⟩
      have fewer := ih distinct.2 later
      by_cases waiting : parent ∈ finished
      · rw [List.countP_cons_of_neg (by simp [waiting]), List.countP_cons_of_neg (by simp [waiting]), fewer]
      · rw [List.countP_cons_of_pos (by simp [waiting, same]), List.countP_cons_of_pos (by simp [waiting]), fewer]
        omega

theorem countP_unchanged {parents finished : List String} {name : String} (unlisted : name ∉ parents) :
    parents.countP (· ∉ finished ++ [name]) = parents.countP (· ∉ finished) := by
  refine List.countP_congr fun parent member => ?_
  have differ : parent ≠ name := fun same => unlisted (same ▸ member)
  simp [differ]

section Turn
variable {finished rest : List String} {state : RankingState} {name : String}

theorem Ranked.next_declared (ranked : context.Ranked finished state) (next : state.queue = name :: rest) :
    name ∈ context.services.keys :=
  ((ranked.turns name).mp (by simp [next])).1

theorem Ranked.next_fresh (ranked : context.Ranked finished state) (next : state.queue = name :: rest) :
    name ∉ finished := by
  have once := ranked.once
  rw [next] at once
  exact fun member => List.disjoint_of_nodup_append once member (by simp)

theorem Ranked.mem_kids (ranked : context.Ranked finished state) (next : state.queue = name :: rest)
    {child : String} : child ∈ context.childrenOf name ↔ name ∈ context.parentsOf child := by
  rw [mem_childrenOf, mem_parentsOf]
  exact and_iff_right (ranked.next_declared next)

theorem Ranked.kids_wait (ranked : context.Ranked finished state) (next : state.queue = name :: rest)
    {child : String} (listed : name ∈ context.parentsOf child) : child ∉ finished ++ state.queue := by
  intro early
  exact ranked.next_fresh next (((ranked.turns child).mp early).2 name listed)

theorem Ranked.kid_counted (ranked : context.Ranked finished state) (next : state.queue = name :: rest)
    {child : String} (listed : name ∈ context.parentsOf child) : 0 < state.pending.getD child 0 := by
  rw [ranked.pending child (feeds_child (mem_parentsOf.mp listed)), List.countP_pos_iff]
  exact ⟨name, listed, by simpa using ranked.next_fresh next⟩

theorem step_eq (next : state.queue = name :: rest) :
    state.step context.children =
      (context.childrenOf name).foldl (RankingState.visit (state.rankOf name)) { state with queue := rest } := by
  unfold RankingState.step
  rw [next]
  rfl

theorem Ranked.pending_after (ranked : context.Ranked finished state) (next : state.queue = name :: rest)
    {child : String} (declared : child ∈ context.services.keys) :
    (state.step context.children).pending.getD child 0 =
      (context.parentsOf child).countP (· ∉ finished ++ [name]) := by
  rw [step_eq next, RankingState.pending_visits (nodup_childrenOf name)]
  dsimp only
  rw [ranked.pending child declared]
  by_cases listed : name ∈ context.parentsOf child
  · rw [if_pos ((ranked.mem_kids next).mpr listed),
      countP_waiting (nodup_parentsOf child) listed (ranked.next_fresh next)]
  · rw [if_neg (fun kid => listed ((ranked.mem_kids next).mp kid)), countP_unchanged listed]

theorem Ranked.rank_after (ranked : context.Ranked finished state) (next : state.queue = name :: rest)
    (child : String) : (state.step context.children).rankOf child =
      if name ∈ context.parentsOf child then max (state.rankOf child) (state.rankOf name + 1)
      else state.rankOf child := by
  rw [step_eq next, RankingState.rankOf_visits (nodup_childrenOf name)]
  simp only [ranked.mem_kids next]
  rfl

theorem Ranked.rank_kept (ranked : context.Ranked finished state) (next : state.queue = name :: rest)
    {parent : String} (had : parent ∈ finished ++ [name]) :
    (state.step context.children).rankOf parent = state.rankOf parent := by
  rw [ranked.rank_after next, if_neg]
  intro listed
  refine ranked.kids_wait next listed ?_
  rw [next]
  simp only [List.mem_append, List.mem_cons, List.not_mem_nil, or_false] at had ⊢
  tauto

theorem Ranked.queue_after (ranked : context.Ranked finished state) (next : state.queue = name :: rest) :
    (state.step context.children).queue = rest ++ (context.childrenOf name).filter fun child =>
      (context.parentsOf child).countP (· ∉ finished ++ [name]) = 0 := by
  rw [step_eq next, RankingState.queue_visits (nodup_childrenOf name)]
  congr 1
  refine List.filter_congr fun child kid => ?_
  have listed := (ranked.mem_kids next).mp kid
  have declared := feeds_child (mem_parentsOf.mp listed)
  rw [countP_waiting (nodup_parentsOf child) listed (ranked.next_fresh next)]
  dsimp only
  rw [ranked.pending child declared]

theorem Ranked.turns_after (ranked : context.Ranked finished state) (next : state.queue = name :: rest)
    (child : String) : child ∈ (finished ++ [name]) ++ (state.step context.children).queue ↔
      child ∈ context.services.keys ∧ ∀ parent ∈ context.parentsOf child, parent ∈ finished ++ [name] := by
  have before := ranked.turns child
  rw [next] at before
  rw [ranked.queue_after next]
  have settled : (context.parentsOf child).countP (· ∉ finished ++ [name]) = 0 ↔
      ∀ parent ∈ context.parentsOf child, parent ∈ finished ++ [name] := by
    rw [List.countP_eq_zero]
    simp only [decide_eq_true_eq, not_not]
  simp only [List.mem_append, List.mem_cons, List.not_mem_nil, or_false, List.mem_filter,
    decide_eq_true_eq, ranked.mem_kids next] at before settled ⊢
  rw [settled]
  constructor
  · intro given
    rcases given with (had | now) | later | ⟨listed, all⟩
    · obtain ⟨declared, all⟩ := before.mp (Or.inl had)
      exact ⟨declared, fun parent member => Or.inl (all parent member)⟩
    · obtain ⟨declared, all⟩ := before.mp (Or.inr (Or.inl now))
      exact ⟨declared, fun parent member => Or.inl (all parent member)⟩
    · obtain ⟨declared, all⟩ := before.mp (Or.inr (Or.inr later))
      exact ⟨declared, fun parent member => Or.inl (all parent member)⟩
    · exact ⟨feeds_child (mem_parentsOf.mp listed), all⟩
  · intro given
    obtain ⟨declared, all⟩ := given
    by_cases listed : name ∈ context.parentsOf child
    · exact Or.inr (Or.inr ⟨listed, all⟩)
    · have earlier : ∀ parent ∈ context.parentsOf child, parent ∈ finished := by
        intro parent member
        rcases all parent member with had | now
        · exact had
        · exact absurd (now ▸ member) listed
      rcases before.mpr ⟨declared, earlier⟩ with had | now | later
      · exact Or.inl (Or.inl had)
      · exact Or.inl (Or.inr now)
      · exact Or.inr (Or.inl later)

theorem Ranked.once_after (ranked : context.Ranked finished state) (next : state.queue = name :: rest) :
    ((finished ++ [name]) ++ (state.step context.children).queue).Nodup := by
  have once := ranked.once
  rw [next] at once
  rw [ranked.queue_after next, ← List.append_assoc, List.append_assoc finished [name] rest]
  refine List.Nodup.append once ((nodup_childrenOf name).sublist List.filter_sublist) ?_
  intro child early kid
  have listed := (ranked.mem_kids next).mp (List.mem_filter.mp kid).1
  have wait := ranked.kids_wait next listed
  rw [next] at wait
  exact wait early

theorem Ranked.step (ranked : context.Ranked finished state) (next : state.queue = name :: rest) :
    context.Ranked (finished ++ [name]) (state.step context.children) := by
  refine ⟨ranked.once_after next, ranked.turns_after next, ?_, fun _ => ranked.pending_after next, ?_, ?_, ?_⟩
  · rw [step_eq next, RankingState.pending_keys_visits, ranked.counted]
    intro child kid
    rw [ranked.counted]
    exact feeds_child (mem_childrenOf.mp kid).2
  · intro child
    rw [step_eq next, RankingState.rank_keys_visits, ranked.mem_kids next, ranked.ranked]
    simp only [List.mem_append, List.mem_singleton]
    grind
  · intro child parent listed had
    rw [ranked.rank_kept next had, ranked.rank_after next]
    rcases List.mem_append.mp had with early | now
    · have higher := ranked.above child parent listed early
      split <;> omega
    · rw [List.mem_singleton.mp now] at listed ⊢
      rw [if_pos listed]
      omega
  · intro child
    rw [ranked.rank_after next]
    by_cases listed : name ∈ context.parentsOf child
    · rw [if_pos listed]
      right
      -- The new parent decides, unless an earlier one is at least as high.
      by_cases higher : state.rankOf child ≤ state.rankOf name + 1
      · exact ⟨name, listed, by simp, by rw [ranked.rank_kept next (by simp)]; omega⟩
      · rcases ranked.attained child with zero | ⟨parent, member, early, equal⟩
        · omega
        · exact ⟨parent, member, by simp [early], by rw [ranked.rank_kept next (by simp [early])]; omega⟩
    · rw [if_neg listed]
      rcases ranked.attained child with zero | ⟨parent, member, early, equal⟩
      · exact Or.inl zero
      · exact Or.inr ⟨parent, member, by simp [early], by rw [ranked.rank_kept next (by simp [early]), equal]⟩

end Turn

inductive Turned (context : Context) : List String → RankingState → Prop where
  | start : Turned context [] context.rankingStart
  | turn {had rest : List String} {state : RankingState} {name : String} (earlier : Turned context had state)
      (next : state.queue = name :: rest) : Turned context (had ++ [name]) (state.step context.children)

theorem Turned.ranked {had : List String} {state : RankingState} (turned : context.Turned had state) :
    context.Ranked had state := by
  induction turned with
  | start => exact ranking_starts
  | turn _ next ih => exact ih.step next

theorem turned_on (count : Nat) : ∃ had, context.Turned had (context.rankingStart.steps context.children count) ∧
    ((context.rankingStart.steps context.children count).queue = [] ∨ had.length = count) := by
  induction count with
  | zero => exact ⟨[], .start, Or.inr rfl⟩
  | succ count ih =>
    obtain ⟨had, turned, ended⟩ := ih
    rw [RankingState.steps_add]
    cases next : (context.rankingStart.steps context.children count).queue with
    | nil =>
      rw [RankingState.steps_idle next]
      exact ⟨had, turned, Or.inl next⟩
    | cons name rest =>
      have all : had.length = count := ended.resolve_left (by simp [next])
      exact ⟨had ++ [name], turned.turn next, Or.inr (by rw [List.length_append, List.length_singleton, all])⟩

theorem ranking_ends : ∃ finished, context.Ranked finished context.rankingEnd ∧ context.rankingEnd.queue = [] := by
  obtain ⟨finished, turned, ended⟩ := context.turned_on context.services.size
  have ranked : context.Ranked finished context.rankingEnd := turned.ranked
  refine ⟨finished, ranked, ended.elim id fun all => ?_⟩
  have within := ranked.bounded
  exact List.length_eq_zero_iff.mp (by omega)

end Context
end WiredViews
