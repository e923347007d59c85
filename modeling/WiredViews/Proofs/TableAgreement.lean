import Mathlib.Data.List.Nodup
import WiredViews.Proofs.TableWrites

namespace WiredViews

def Table.Agree {κ α β : Type} [DecidableEq κ] (related : α → β → Prop) (table : Table κ α) (other : Table κ β) :
    Prop :=
  ∀ key, Option.Rel related (table.get? key) (other.get? key)

-- Of the errors it is only said that they come together.
inductive Together {ε α β : Type} (related : α → β → Prop) : Except ε α → Except ε β → Prop where
  | accepted {first : α} {second : β} (same : related first second) : Together related (.ok first) (.ok second)
  | refused (first second : ε) : Together related (.error first) (.error second)

namespace Table
variable {κ α β : Type} [DecidableEq κ] {related : α → β → Prop}

theorem agree_eq {table other : Table κ α} : table.Agree Eq other ↔ ∀ key, table.get? key = other.get? key := by
  refine forall_congr' fun key => ?_
  cases table.get? key <;> cases other.get? key <;> simp

section Same
variable {table other : Table κ α} (same : ∀ key, table.get? key = other.get? key)
include same

theorem rows_perm : table.rows.Perm other.rows := by
  have apart : ∀ table : Table κ α, table.rows.Nodup := fun table => List.Nodup.of_map Prod.fst table.keys_distinct
  rw [List.perm_ext_iff_of_nodup (apart table) (apart other)]
  intro row
  rw [← get?_eq_some, ← get?_eq_some, same]

theorem mem_keys_same {key : κ} : key ∈ table.keys ↔ key ∈ other.keys := by
  rw [mem_keys, mem_keys, same]

end Same

theorem agree_of_getD {table : Table κ α} {other : Table κ β} (reserve : α) (spare : β)
    (keys : ∀ key, key ∈ table.keys ↔ key ∈ other.keys)
    (held : ∀ key ∈ table.keys, related (table.getD key reserve) (other.getD key spare)) :
    table.Agree related other := by
  intro key
  by_cases listed : key ∈ table.keys
  · obtain ⟨first, mine⟩ := mem_keys.mp listed
    obtain ⟨second, theirs⟩ := mem_keys.mp ((keys key).mp listed)
    have both := held key listed
    rw [getD_of_get? mine, getD_of_get? theirs] at both
    rw [mine, theirs]
    exact .some both
  · rw [get?_eq_none.mpr listed, get?_eq_none.mpr fun found => listed ((keys key).mpr found)]
    exact .none

end Table

section Outcomes
variable {ε α β : Type} {related : α → β → Prop} {outcome : Except ε α} {twin : Except ε β}

theorem together_of (forth : ∀ first, outcome = .ok first → ∃ second, twin = .ok second ∧ related first second)
    (back : ∀ second, twin = .ok second → ∃ first, outcome = .ok first) : Together related outcome twin := by
  cases ended : outcome with
  | ok first =>
    obtain ⟨second, same, both⟩ := forth first ended
    rw [same]
    exact .accepted both
  | error first =>
    cases other : twin with
    | ok second =>
      obtain ⟨first, accepted⟩ := back second other
      rw [accepted] at ended
      cases ended
    | error second => exact .refused first second

end Outcomes
end WiredViews
