import Mathlib.Data.List.Nodup
import WiredViews.Plan
import WiredViews.Proofs.Cycles

namespace WiredViews
namespace Context
variable {context : Context} {name : String}

theorem le_foldl_max {numbers : List Nat} {least number : Nat}
    (low : number ≤ least ∨ number ∈ numbers) : number ≤ numbers.foldl max least := by
  induction numbers generalizing least with
  | nil => simpa using low
  | cons first rest ih =>
    rw [List.foldl_cons]
    rcases low with below | member
    · exact ih (Or.inl (Nat.le_trans below (Nat.le_max_left _ _)))
    · rcases List.mem_cons.mp member with rfl | later
      · exact ih (Or.inl (Nat.le_max_right _ _))
      · exact ih (Or.inr later)

theorem lt_foldl_max {numbers : List Nat} {least bound : Nat} (low : bound < numbers.foldl max least) :
    bound < least ∨ ∃ number ∈ numbers, bound < number := by
  induction numbers generalizing least with
  | nil => exact Or.inl low
  | cons first rest ih =>
    rw [List.foldl_cons] at low
    cases ih low with
    | inl start =>
      cases lt_max_iff.mp start with
      | inl old => exact Or.inl old
      | inr here => exact Or.inr ⟨first, List.mem_cons_self, here⟩
    | inr later =>
      obtain ⟨number, member, above⟩ := later
      exact Or.inr ⟨number, List.mem_cons_of_mem _ member, above⟩

theorem getElem?_longestPathLevels {index : Nat} {names : List String}
    (found : context.longestPathLevels[index]? = some names) :
    names = context.services.keys.filter fun name => context.ranks.get? name = some index := by
  unfold longestPathLevels at found
  rw [List.getElem?_map, Option.map_eq_some_iff] at found
  obtain ⟨rank, listed, rfl⟩ := found
  rw [List.getElem?_range (by simpa using (List.getElem?_eq_some_iff.mp listed).1)] at listed
  rw [Option.some.inj listed]

theorem rank_lt_levels (settled : context.unresolved = []) (known : name ∈ context.services.keys) :
    context.rankOf name < context.longestPathLevels.length := by
  unfold longestPathLevels
  rw [List.length_map, List.length_range]
  have listed : context.rankOf name + 1 ∈ context.ranks.values.map (· + 1) :=
    List.mem_map_of_mem (List.mem_map_of_mem (f := Prod.snd)
      (Table.get?_eq_some.mp (get?_ranks settled known)))
  exact le_foldl_max (Or.inr listed)

theorem mem_level (settled : context.unresolved = []) {index : Nat} {names : List String}
    (found : context.longestPathLevels[index]? = some names) :
    name ∈ names ↔ name ∈ context.services.keys ∧ context.rankOf name = index := by
  rw [getElem?_longestPathLevels found, List.mem_filter, decide_eq_true_eq, get?_ranks_eq_some settled]
  tauto

theorem rank_filled (declared : context.Declared) (known : name ∈ context.services.keys) {rank : Nat}
    (within : rank ≤ context.rankOf name) : ∃ other ∈ context.services.keys, context.rankOf other = rank := by
  induction height : context.rankOf name generalizing name with
  | zero => exact ⟨name, known, by omega⟩
  | succ below ih =>
    by_cases top : rank = below + 1
    · exact ⟨name, known, by omega⟩
    · rcases context.rank_attained name with zero | ⟨parent, feeds, equal⟩
      · omega
      · exact ih (feeds_parent declared feeds) (by omega) (by omega)

theorem level_filled (declared : context.Declared) (settled : context.unresolved = []) {index : Nat}
    (within : index < context.longestPathLevels.length) :
    ∃ name ∈ context.services.keys, context.rankOf name = index := by
  unfold longestPathLevels at within
  rw [List.length_map, List.length_range] at within
  cases lt_foldl_max within with
  | inl below => exact absurd below (Nat.not_lt_zero _)
  | inr attained =>
    obtain ⟨_, listed, above⟩ := attained
    obtain ⟨rank, ranked, rfl⟩ := List.mem_map.mp listed
    obtain ⟨⟨name, _⟩, row, rfl⟩ := List.mem_map.mp ranked
    obtain ⟨known, equal⟩ := (get?_ranks_eq_some settled).mp (Table.get?_eq_some.mpr row)
    exact rank_filled declared known (by omega)

theorem rank_lt_size (declared : context.Declared) (known : name ∈ context.services.keys) :
    context.rankOf name < context.services.size := by
  have filled : List.range (context.rankOf name + 1) ⊆ context.services.keys.map context.rankOf := by
    intro rank below
    obtain ⟨other, member, rfl⟩ := rank_filled declared known (Nat.lt_succ_iff.mp (List.mem_range.mp below))
    exact List.mem_map_of_mem member
  have fits := (List.nodup_range.subperm filled).length_le
  rw [List.length_range, List.length_map] at fits
  simp only [Table.keys, Table.size, List.length_map] at fits ⊢
  omega

theorem mem_nextFrontier {frontier : List String} :
    name ∈ context.nextFrontier frontier ↔
      ∃ parent ∈ frontier, parent ∈ context.services.keys ∧ context.Feeds parent name := by
  unfold nextFrontier
  simp only [List.mem_filter, List.any_eq_true, decide_eq_true_eq]
  constructor
  · intro given
    obtain ⟨_, parent, member, kid⟩ := given
    exact ⟨parent, member, mem_childrenOf.mp kid⟩
  · intro given
    obtain ⟨parent, member, known, feeds⟩ := given
    exact ⟨feeds_child feeds, parent, member, mem_childrenOf.mpr ⟨known, feeds⟩⟩

-- The frontier after the given number of hops, had there been no end to them.
def frontierAfter (context : Context) : Nat → List String
  | 0 => context.roots
  | hops + 1 => context.nextFrontier (context.frontierAfter hops)

theorem frontier_declared {hops : Nat} (member : name ∈ context.frontierAfter hops) :
    name ∈ context.services.keys := by
  cases hops with
  | zero => exact (mem_roots.mp member).1
  | succ hops =>
    obtain ⟨_, _, _, feeds⟩ := mem_nextFrontier.mp member
    exact feeds_child feeds

theorem hops_le_rank (settled : context.unresolved = []) {hops : Nat}
    (member : name ∈ context.frontierAfter hops) : hops ≤ context.rankOf name := by
  induction hops generalizing name with
  | zero => exact Nat.zero_le _
  | succ hops ih =>
    obtain ⟨parent, earlier, _, feeds⟩ := mem_nextFrontier.mp member
    have higher := rank_lt_of_ancestor settled (.single feeds)
    have before := ih earlier
    omega

theorem frontier_dies (declared : context.Declared) (settled : context.unresolved = []) :
    context.frontierAfter context.services.size = [] := by
  rw [List.eq_nil_iff_forall_not_mem]
  intro name member
  have low := rank_lt_size declared (frontier_declared member)
  have high := hops_le_rank settled member
  omega

theorem getElem?_frontiers {count hops index : Nat} {names : List String}
    (found : (context.frontiers count (context.frontierAfter hops))[index]? = some names) :
    names = context.frontierAfter (hops + index) := by
  induction count generalizing hops index with
  | zero => simp [frontiers] at found
  | succ count ih =>
    cases here : context.frontierAfter hops with
    | nil => simp [here, frontiers] at found
    | cons first rest =>
      simp only [here, frontiers] at found
      cases index with
      | zero => simpa [here] using found.symm
      | succ index =>
        rw [List.getElem?_cons_succ, ← here] at found
        rw [@ih (hops + 1) index found]
        congr 1
        omega

theorem frontier_listed {count hops index : Nat} (within : index < count)
    (alive : ∀ later, later ≤ index → context.frontierAfter (hops + later) ≠ []) :
    (context.frontiers count (context.frontierAfter hops))[index]? = some (context.frontierAfter (hops + index)) := by
  induction count generalizing hops index with
  | zero => omega
  | succ count ih =>
    obtain ⟨first, rest, here⟩ := List.exists_cons_of_ne_nil (alive 0 (Nat.zero_le _))
    rw [Nat.add_zero] at here
    simp only [here, frontiers]
    rw [← here]
    cases index with
    | zero => rfl
    | succ index =>
      rw [List.getElem?_cons_succ]
      have next : ∀ later, hops + 1 + later = hops + (later + 1) := fun later => by omega
      have tail := @ih (hops + 1) index (by omega) fun later below => by
        rw [next]
        exact alive (later + 1) (by omega)
      rw [← next]
      exact tail

theorem mem_frontier_rank (declared : context.Declared) (settled : context.unresolved = [])
    (known : name ∈ context.services.keys) : name ∈ context.frontierAfter (context.rankOf name) := by
  induction height : context.rankOf name generalizing name with
  | zero =>
    refine mem_roots.mpr ⟨known, List.eq_nil_iff_forall_not_mem.mpr fun parent listed => ?_⟩
    have higher := rank_lt_of_ancestor settled (.single (mem_parentsOf.mp listed))
    omega
  | succ below ih =>
    rcases context.rank_attained name with zero | ⟨parent, feeds, equal⟩
    · omega
    · have parent_known := feeds_parent declared feeds
      exact mem_nextFrontier.mpr ⟨parent, ih parent_known (by omega), parent_known, feeds⟩

theorem level_listed (declared : context.Declared) (settled : context.unresolved = [])
    (known : name ∈ context.services.keys) {hops : Nat} (within : hops ≤ context.rankOf name) :
    context.singleHopLevels[hops]? = some (context.frontierAfter hops) := by
  have low := rank_lt_size declared known
  have listed := @frontier_listed context context.services.size 0 hops (by omega) fun later below => ?_
  · simpa [singleHopLevels, frontierAfter] using listed
  · obtain ⟨other, member, equal⟩ := rank_filled declared known (Nat.le_trans below within)
    have placed := mem_frontier_rank declared settled member
    rw [equal] at placed
    rw [Nat.zero_add]
    exact List.ne_nil_of_mem placed

theorem level_of_rank (declared : context.Declared) (settled : context.unresolved = [])
    (known : name ∈ context.services.keys) :
    context.singleHopLevels[context.rankOf name]? = some (context.frontierAfter (context.rankOf name)) :=
  level_listed declared settled known (Nat.le_refl _)

theorem frontiers_filled {count : Nat} {frontier names : List String}
    (listed : names ∈ context.frontiers count frontier) : names ≠ [] := by
  induction count generalizing frontier with
  | zero => simp [frontiers] at listed
  | succ count ih =>
    cases frontier with
    | nil => simp [frontiers] at listed
    | cons first rest =>
      simp only [frontiers, List.mem_cons] at listed
      cases listed with
      | inl here => simp [here]
      | inr later => exact ih later

theorem nodup_frontier (hops : Nat) : (context.frontierAfter hops).Nodup := by
  cases hops with
  | zero => exact nodup_roots
  | succ hops => exact context.services.keys_nodup.filter _

theorem levelNames_declared {strategy : LevelStrategy} {names : List String}
    (level : names ∈ context.levelNames strategy) (member : name ∈ names) :
    name ∈ context.services.keys := by
  cases strategy with
  | longestPath =>
    obtain ⟨index, found⟩ := List.getElem?_of_mem level
    rw [getElem?_longestPathLevels found] at member
    exact (List.mem_filter.mp member).1
  | singleHop =>
    obtain ⟨index, found⟩ := List.getElem?_of_mem level
    rw [@getElem?_frontiers _ _ 0 _ _ found] at member
    exact frontier_declared member

section Groups
variable {names : List String}

def entry? (context : Context) (name : String) : Option (String × Member) :=
  (context.services.get? name).map fun service => (service.provider, ⟨name, service.dependencies⟩)

theorem entry?_eq_some {entry : String × Member} :
    context.entry? name = some entry ↔
      entry.2.name = name ∧ context.services.get? name = some ⟨entry.1, entry.2.dependencies⟩ := by
  unfold entry?
  rw [Option.map_eq_some_iff]
  constructor
  · intro given
    obtain ⟨service, held, rfl⟩ := given
    exact ⟨rfl, held⟩
  · intro given
    obtain ⟨rfl, held⟩ := given
    exact ⟨_, held, rfl⟩

theorem groupServices_eq (names : List String) :
    context.groupServices names =
      (distinct ((names.filterMap context.entry?).map Prod.fst)).map fun provider =>
        ⟨provider, ((names.filterMap context.entry?).filter fun entry => entry.1 = provider).map Prod.snd⟩ := by
  have grouped : context.groupServices names =
      ((names.filterMap context.entry?).foldl (fun table entry => table.push entry.1 entry.2)
        (∅ : Table String (List Member))).rows.map fun row => ⟨row.1, row.2⟩ := by
    unfold groupServices
    dsimp only
    rw [List.foldl_filterMap]
    congr 3
    funext table name
    unfold entry?
    cases context.services.get? name <;> rfl
  rw [grouped, Table.rows_group, List.map_map]
  rfl

theorem mem_groupServices {group : Group} {member : Member}
    (grouped : group ∈ context.groupServices names) (listed : member ∈ group.members) :
    member.name ∈ names ∧
      context.services.get? member.name = some ⟨group.provider, member.dependencies⟩ := by
  rw [groupServices_eq, List.mem_map] at grouped
  obtain ⟨provider, _, rfl⟩ := grouped
  obtain ⟨entry, kept, rfl⟩ := List.mem_map.mp listed
  obtain ⟨found, same⟩ := List.mem_filter.mp kept
  obtain ⟨name, place, entered⟩ := List.mem_filterMap.mp found
  obtain ⟨rfl, held⟩ := entry?_eq_some.mp entered
  rw [decide_eq_true_eq] at same
  exact ⟨place, same ▸ held⟩

theorem groupServices_covers {service : Service} (place : name ∈ names)
    (held : context.services.get? name = some service) :
    ∃ group ∈ context.groupServices names, group.provider = service.provider ∧
      ⟨name, service.dependencies⟩ ∈ group.members := by
  have entered : (service.provider, ⟨name, service.dependencies⟩) ∈ names.filterMap context.entry? :=
    List.mem_filterMap.mpr ⟨name, place, entry?_eq_some.mpr ⟨rfl, held⟩⟩
  rw [groupServices_eq]
  refine ⟨_, List.mem_map_of_mem (mem_distinct.mpr (List.mem_map_of_mem (f := Prod.fst) entered)), rfl, ?_⟩
  exact List.mem_map_of_mem (f := Prod.snd) (List.mem_filter.mpr ⟨entered, by simp⟩)

theorem groupServices_providers (names : List String) :
    ((context.groupServices names).map Group.provider).Nodup := by
  rw [groupServices_eq, List.map_map]
  have same : Group.provider ∘ (fun provider => (⟨provider,
      ((names.filterMap context.entry?).filter fun entry => entry.1 = provider).map Prod.snd⟩ : Group)) = id := rfl
  rw [same, List.map_id]
  exact nodup_distinct _

theorem entries_names (names : List String) :
    ((names.filterMap context.entry?).map fun entry => entry.2.name).Sublist names := by
  induction names with
  | nil => simp
  | cons name rest ih =>
    cases entered : context.entry? name with
    | none =>
      rw [List.filterMap_cons_none entered]
      exact ih.cons name
    | some entry =>
      rw [List.filterMap_cons_some entered, List.map_cons, (entry?_eq_some.mp entered).1]
      exact ih.cons_cons name

theorem group_names_nodup (distinct : names.Nodup) {group : Group}
    (grouped : group ∈ context.groupServices names) : group.names.Nodup := by
  rw [groupServices_eq, List.mem_map] at grouped
  obtain ⟨provider, _, rfl⟩ := grouped
  unfold Group.names
  rw [List.map_map]
  exact (distinct.sublist (entries_names names)).sublist (List.filter_sublist.map _)

theorem groupServices_names_nodup (distinct : names.Nodup) :
    ((context.groupServices names).flatMap Group.names).Nodup := by
  rw [List.nodup_flatMap]
  refine ⟨fun group grouped => group_names_nodup distinct grouped, ?_⟩
  have apart : (context.groupServices names).Pairwise fun left right => left.provider ≠ right.provider :=
    List.pairwise_map.mp (groupServices_providers names)
  refine apart.imp_of_mem fun {left right} leftGrouped rightGrouped differ => ?_
  intro name inLeft inRight
  obtain ⟨first, firstListed, rfl⟩ := List.mem_map.mp inLeft
  obtain ⟨second, secondListed, same⟩ := List.mem_map.mp inRight
  have one := (mem_groupServices leftGrouped firstListed).2
  have two := (mem_groupServices rightGrouped secondListed).2
  rw [same, one] at two
  exact differ (Service.mk.inj (Option.some.inj two)).1

end Groups
end Context
end WiredViews
