import Mathlib.Data.List.Perm.Basic
import PartitionLease.Proofs.PoolSteps
import PartitionLease.Proofs.StaleAlarms

namespace PartitionLease

namespace Cache

/-- The checkouts that are live. -/
def live (c : Cache) : List Lease := c.assignment.pool.used.toList.map fun entry => ⟨entry.1, entry.2.token⟩

/-- The live checkouts that an action ends. -/
def ends (c : Cache) (action : Action) : List Lease := c.live.filter (· ∉ (c.step action).1.live)

/-- The checkouts that the actions of one kind end in a run, in order. -/
def endings (kind : Action → Bool) (c : Cache) : List Action → List Lease
  | [] => []
  | action :: rest => (if kind action then c.ends action else []) ++ endings kind (c.step action).1 rest

/-- Actions in which a checkout is reclaimed for a reason that is counted. -/
def reclaims (reason : ReclaimReason) : Action → Bool
  | .release _ _ => reason = .returned
  | .sweep _ _ => reason = .expired
  | .expire _ | .pass _ => reason = .timer
  | _ => false

/-- Actions that take a key out of a consumer's hands: it is registered again, reclaimed or removed. -/
def revokes : Action → Bool
  | .add _ | .reclaim _ _ | .withdraw _ _ _ | .drop _ => true
  | _ => false

theorem mem_live {c : Cache} {lease : Lease} :
    lease ∈ c.live ↔ c.assignment.pool.token? lease.key = some lease.token := by
  rw [live, List.mem_map, Pool.token?, Option.map_eq_some_iff]
  constructor
  · rintro ⟨⟨key, checkout⟩, listed, rfl⟩
    exact ⟨checkout, Std.ExtTreeMap.mem_toList_iff_getElem?_eq_some.mp listed, rfl⟩
  · rintro ⟨checkout, stored, number⟩
    exact ⟨(lease.key, checkout), Std.ExtTreeMap.mem_toList_iff_getElem?_eq_some.mpr stored, by rw [number]⟩

theorem nodup_live (c : Cache) : c.live.Nodup := by
  refine List.Nodup.of_map Lease.key ?_
  rw [live, List.map_map]
  exact c.assignment.pool.nodup_used

theorem length_live (c : Cache) : c.live.length = c.assignment.pool.used.size := by
  rw [live, List.length_map, Std.ExtTreeMap.length_toList]

theorem mem_ends {c : Cache} {action : Action} {lease : Lease} :
    lease ∈ c.ends action ↔ lease ∈ c.live ∧ lease ∉ (c.step action).1.live := by
  rw [ends, List.mem_filter, decide_eq_true_eq]

/-- A checkout ends in one of the ways in which checkouts can, and its key is then not checked out. -/
theorem endedBy_of_mem_ends {c : Cache} (sound : c.assignment.Sound) {action : Action} {lease : Lease}
    (ended : lease ∈ c.ends action) :
    EndedBy c lease action ∧ (c.step action).1.assignment.pool.token? lease.key = none := by
  obtain ⟨held, gone⟩ := mem_ends.mp ended
  rw [mem_live] at held gone
  cases checkoutStep sound action lease.key with
  | kept same => exact absurd (same.trans held) gone
  | ended token heldToo none way =>
    obtain rfl : token = lease.token := Option.some.inj (heldToo.symm.trans held)
    exact ⟨way, none⟩
  | made handed _ =>
    have free := (step_of_handsOut? sound handed).2.2.1
    rw [Pool.isUsed_of_token? held] at free
    cases free

/-- Checked out after an action is what was and has not ended, and what it hands out. -/
theorem live_step_perm {c : Cache} (sound : c.assignment.Sound) (action : Action) :
    ((c.step action).1.live ++ c.ends action).Perm (c.live ++ (c.handsOut? action).toList) := by
  have new : ∀ lease, c.handsOut? action = some lease → lease ∉ c.live := by
    intro lease handed old
    have free := (step_of_handsOut? sound handed).2.2.1
    rw [Pool.isUsed_of_token? (mem_live.mp old)] at free
    cases free
  refine (List.perm_ext_iff_of_nodup ?_ ?_).mpr fun lease => ?_
  · refine List.nodup_append.mpr ⟨nodup_live _, (nodup_live c).filter _, ?_⟩
    rintro lease still _ ended rfl
    exact (mem_ends.mp ended).2 still
  · refine List.nodup_append.mpr ⟨nodup_live c, by cases c.handsOut? action <;> simp, ?_⟩
    rintro lease old _ handed rfl
    exact new lease (Option.mem_toList.mp handed) old
  · rw [List.mem_append, List.mem_append, mem_ends, Option.mem_toList]
    constructor
    · rintro (still | ⟨old, -⟩)
      · rw [mem_live] at still ⊢
        cases checkoutStep sound action lease.key with
        | kept same => exact Or.inl (same.symm.trans still)
        | ended token _ none way =>
          rw [none] at still
          cases still
        | made handed held =>
          rw [held, Option.some.injEq] at still
          rw [still] at handed
          exact Or.inr handed
      · exact Or.inl old
    · rintro (old | handed)
      · by_cases still : lease ∈ (c.step action).1.live
        · exact Or.inl still
        · exact Or.inr ⟨old, still⟩
      · exact Or.inl (mem_live.mpr (token?_of_handsOut? sound handed))

/-- Every checkout ever made is live or has ended, and only once. -/
theorem live_run_perm {c : Cache} (sound : c.assignment.Sound) (actions : List Action) :
    ((c.run actions).live ++ endings (fun _ => true) c actions).Perm (c.live ++ c.handOuts actions) := by
  induction actions generalizing c with
  | nil => exact List.Perm.refl _
  | cons action rest ih =>
    have now := List.perm_iff_count.mp (live_step_perm sound action)
    have later := List.perm_iff_count.mp (ih (sound_step sound action))
    refine List.perm_iff_count.mpr fun lease => ?_
    specialize now lease
    specialize later lease
    rw [run_cons, endings, handOuts, if_pos rfl]
    simp only [List.count_append] at now later ⊢
    omega

theorem length_ends {c : Cache} (sound : c.assignment.Sound) (action : Action) :
    (c.step action).1.assignment.pool.used.size + (c.ends action).length =
      c.assignment.pool.used.size + (c.handsOut? action).toList.length := by
  have same := (live_step_perm sound action).length_eq
  rwa [List.length_append, List.length_append, length_live, length_live] at same

/-- What ends a checkout reclaims it for one reason, or else revokes it. -/
theorem length_ends_eq {c : Cache} (sound : c.assignment.Sound) (action : Action) :
    let ended (kind : Action → Bool) := (if kind action then c.ends action else []).length
    (c.ends action).length = ended (reclaims .returned) + ended (reclaims .expired) + ended (reclaims .timer) +
      ended revokes := by
  have nothing (never : ∀ lease, ¬ EndedBy c lease action) : c.ends action = [] :=
    List.eq_nil_iff_forall_not_mem.mpr fun lease ended => never lease (endedBy_of_mem_ends sound ended).1
  cases action with
  | add _ | withdraw _ _ _ | drop _ | release _ _ | reclaim _ _ | sweep _ _ | expire _ | pass _ =>
    simp [reclaims, revokes]
  | _ => simp [reclaims, revokes, nothing nofun]

theorem length_endings {c : Cache} (sound : c.assignment.Sound) (actions : List Action) :
    (endings (fun _ => true) c actions).length = (endings (reclaims .returned) c actions).length +
      (endings (reclaims .expired) c actions).length + (endings (reclaims .timer) c actions).length +
      (endings revokes c actions).length := by
  induction actions generalizing c with
  | nil => rfl
  | cons action rest ih =>
    have now := length_ends_eq sound action
    have later := ih (sound_step sound action)
    simp only [endings, List.length_append, if_true] at now later ⊢
    omega

end Cache

end PartitionLease
