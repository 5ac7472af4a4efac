/-
# The parts of a die

A die may hold other dice at any depth: under the pools and the chains that it is
made of.  `leaves` lists the dice at the bottom, which are fixed values, intervals
and custom dice, and `pools` lists all pools on the way down, those of counts
included.  A property of everything inside a die is a property of all of these.
-/

import DiceFormula.Die.Basic

namespace DiceFormula

variable {α : Type}

/-- A fixed value or an interval. -/
inductive Die.Simple : Die α → Prop where
  | fixed (value : α) : Simple (.fixed value)
  | uniform (u : Uniform) : Simple (.uniform u)

mutual

/-- The fixed values, intervals and custom dice inside a die. -/
def Die.leaves : Die α → List (Die α)
  | .fixed value => [.fixed value]
  | .uniform u => [.uniform u]
  | .pool p => p.leaves
  | .link c | .chain c => c.leaves
  | .custom k => [.custom k]

@[inherit_doc Die.leaves]
def Pool.leaves : Pool α → List (Die α)
  | .single value => value.leaves
  | .counted count value => count.leaves ++ value.leaves

@[inherit_doc Die.leaves]
def Chain.leaves : Chain α → List (Die α)
  | .head _ p => p.leaves
  | .append front _ p => front.leaves ++ p.leaves

end

mutual

/-- The pools inside a die. -/
def Die.pools : Die α → List (Pool α)
  | .pool p => p.pools
  | .link c | .chain c => c.pools
  | .fixed _ | .uniform _ | .custom _ => []

/-- A pool and the pools inside it. -/
def Pool.pools : Pool α → List (Pool α)
  | .single value => .single value :: value.pools
  | .counted count value => .counted count value :: (count.pools ++ value.pools)

@[inherit_doc Die.pools]
def Chain.pools : Chain α → List (Pool α)
  | .head _ p => p.pools
  | .append front _ p => front.pools ++ p.pools

end

mutual

/-- What is inside a pool of a die is inside the die. -/
theorem Die.leaves_subset_of_mem_pools :
    ∀ (d : Die α) {p : Pool α}, p ∈ d.pools → p.leaves ⊆ d.leaves
  | .pool q, p, h => by
    rw [Die.pools] at h
    rw [Die.leaves]
    exact Pool.leaves_subset_of_mem_pools q h
  | .link c, p, h | .chain c, p, h => by
    rw [Die.pools] at h
    rw [Die.leaves]
    exact Chain.leaves_subset_of_mem_pools c h
  | .fixed _, p, h | .uniform _, p, h | .custom _, p, h => by
    rw [Die.pools] at h
    exact absurd h List.not_mem_nil

@[inherit_doc Die.leaves_subset_of_mem_pools]
theorem Pool.leaves_subset_of_mem_pools :
    ∀ (q : Pool α) {p : Pool α}, p ∈ q.pools → p.leaves ⊆ q.leaves
  | .single value, p, h => by
    rw [Pool.pools, List.mem_cons] at h
    rcases h with rfl | h
    · exact List.Subset.refl _
    · rw [Pool.leaves]
      exact Die.leaves_subset_of_mem_pools value h
  | .counted count value, p, h => by
    rw [Pool.pools, List.mem_cons, List.mem_append] at h
    rcases h with rfl | h | h
    · exact List.Subset.refl _
    · rw [Pool.leaves]
      exact List.subset_append_of_subset_left _ (Die.leaves_subset_of_mem_pools count h)
    · rw [Pool.leaves]
      exact List.subset_append_of_subset_right _ (Die.leaves_subset_of_mem_pools value h)

@[inherit_doc Die.leaves_subset_of_mem_pools]
theorem Chain.leaves_subset_of_mem_pools :
    ∀ (c : Chain α) {p : Pool α}, p ∈ c.pools → p.leaves ⊆ c.leaves
  | .head _ q, p, h => by
    rw [Chain.pools] at h
    rw [Chain.leaves]
    exact Pool.leaves_subset_of_mem_pools q h
  | .append front _ q, p, h => by
    rw [Chain.pools, List.mem_append] at h
    rw [Chain.leaves]
    rcases h with h | h
    · exact List.subset_append_of_subset_left _ (Chain.leaves_subset_of_mem_pools front h)
    · exact List.subset_append_of_subset_right _ (Pool.leaves_subset_of_mem_pools q h)

end

/-- What is inside the die of a pool is inside the pool. -/
theorem Pool.leaves_value_subset (p : Pool α) : p.value.leaves ⊆ p.leaves := by
  cases p with
  | single value =>
    rw [leaves]
    exact List.Subset.refl _
  | counted count value =>
    rw [leaves]
    exact List.subset_append_right _ _

/-- What is inside a link is inside the chain. -/
theorem Chain.leaves_subset_of_mem_links {l : Link α} :
    ∀ {c : Chain α}, l ∈ c.links → l.pool.leaves ⊆ c.leaves
  | .head op p, h => by
    rw [links_head, List.mem_singleton] at h
    rw [h, leaves]
    exact List.Subset.refl _
  | .append front op p, h => by
    rw [links_append, List.mem_append, List.mem_singleton] at h
    rw [leaves]
    rcases h with h | rfl
    · exact List.subset_append_of_subset_left _ (leaves_subset_of_mem_links h)
    · exact List.subset_append_right _ _

end DiceFormula
