import PartitionLease.Proofs.FigureBalance

namespace PartitionLease

/-- The whole milliseconds of a span are enough to tell which readings of a clock exceed it. -/
theorem Duration.wholeMillis_lt_iff (d : Duration) {millis : Nat} (fits : millis ≤ word64Max) :
    d.wholeMillis.toNat < millis ↔ d.totalNanos < millis * 1000000 := by
  have cut := Nat.div_lt_iff_lt_mul (x := d.totalNanos) (y := millis) (k := 1000000) (by decide)
  rw [wholeMillis, toNat_saturate64, ← cut]
  omega

/-- How long a checkout has lasted, in nanoseconds. By a clock that is behind it no time has passed. -/
def Checkout.age (checkout : Checkout) (now : UInt64) : Nat :=
  if now < checkout.since then 0 else (now.toNat - checkout.since.toNat) * 1000000

theorem Checkout.age_eq (checkout : Checkout) (now : UInt64) :
    checkout.age now = (now.toNat - checkout.since.toNat) * 1000000 := by
  unfold age
  split
  · rename_i behind
    rw [UInt64.lt_iff_toNat_lt] at behind
    rw [Nat.sub_eq_zero_of_le (Nat.le_of_lt behind), Nat.zero_mul]
  · rfl

namespace Pool

variable {α : Type} {p : Pool α} {now : UInt64} {maxAge : Duration} {key : String}

/-- A key is checked out for longer than `maxAge`, down to the nanosecond. -/
def Overdue (p : Pool α) (now : UInt64) (maxAge : Duration) (key : String) : Prop :=
  ∃ checkout, p.used[key]? = some checkout ∧ maxAge.totalNanos < checkout.age now

theorem mem_expired_iff_overdue : key ∈ p.expired now maxAge.wholeMillis ↔ p.Overdue now maxAge key := by
  simp only [mem_expired_iff, since?, Option.map_eq_some_iff, Overdue]
  have same (checkout : Checkout) : maxAge.wholeMillis.toNat < now.toNat - checkout.since.toNat ↔
      maxAge.totalNanos < checkout.age now := by
    have fits : now.toNat - checkout.since.toNat ≤ word64Max := by
      have bound := now.toNat_lt
      simp only [word64Max, UInt64.size]
      omega
    rw [checkout.age_eq, maxAge.wholeMillis_lt_iff fits]
  constructor
  · rintro ⟨_, ⟨checkout, held, rfl⟩, late⟩
    exact ⟨checkout, held, (same checkout).mp late⟩
  · rintro ⟨checkout, held, late⟩
    exact ⟨_, ⟨checkout, held, rfl⟩, (same checkout).mpr late⟩

end Pool

namespace Assignment

variable {a : Assignment}

/-- Besides the reclaimed checkouts two sizes are told anew. -/
theorem Told.figures_reclaimAll (told : a.Told) (reason : ReclaimReason) (keys : List String) :
    let b := a.reclaimAll reason keys
    b.figures = { a.figures with
      idle := b.pool.idle.length, used := b.pool.used.size, reclaimed := b.figures.reclaimed } := by
  have figures := a.figures_reclaimAll reason keys
  rw [← told.registered, a.figures.recordReclaims_eq] at figures
  exact figures

/-- What a sweep leaves checked out is not overdue, nor would it be if more were allowed. -/
theorem not_overdue_sweep (a : Assignment) (now : UInt64) {maxAge longer : Duration} (order : List String)
    (within : maxAge.totalNanos ≤ longer.totalNanos) (key : String) :
    ¬ (a.sweep now maxAge order).1.pool.Overdue now longer key := by
  rintro ⟨checkout, held, exceeds⟩
  rw [getElem?_used_sweep] at held
  split at held
  · cases held
  · rename_i early
    exact early (Pool.mem_expired_iff_overdue.mpr ⟨checkout, held, Nat.lt_of_le_of_lt within exceeds⟩)

/-- Where nothing is overdue a sweep is counted, and that is all. -/
theorem Told.sweep_of_expired_eq_nil (told : a.Told) {now : UInt64} {maxAge : Duration}
    (none : a.pool.expired now maxAge.wholeMillis = []) (order : List String) :
    a.sweep now maxAge order = (a.withFigures a.figures.recordSweep, 0) := by
  have nothing : arrange order [] = [] := by simp [arrange]
  have same : a.reclaimAll .expired [] = a := told.publish_eq
  rw [sweep_eq, none, nothing]
  simp only [same, List.length_nil]

end Assignment

namespace Cache

/-- The checkouts that a sweep ends are those that have lasted longer than it allows, down to the nanosecond,
whatever the clock shows. Their partitions are marked as not finished with and go to the end of the line, each
of them once, and they are counted. No other checkout, no other mark and no registration changes. A second
sweep finds nothing to end until the clock moves or less is allowed. -/
theorem sweep_ends_exactly_overdue (config : Config) (clock : Clock) (timeKept : Bool) (actions : List Action)
    (maxAge : Duration) (order : List String) :
    let c := (new config clock timeKept).run actions
    let a := c.assignment
    ∃ (due : List String) (b : Assignment),
      c.step (.sweep maxAge order) = ({ c with assignment := b }, .count due.length) ∧
      due.Nodup ∧ (∀ key, key ∈ due ↔ a.pool.Overdue c.clock.now maxAge key) ∧
      b.registry = a.registry ∧ b.pool.idle = a.pool.idle ++ due ∧
      (∀ key : String, b.pool.used[key]? = if key ∈ due then none else a.pool.used[key]?) ∧
      b.pool.issued = a.pool.issued ∧
      (∀ key ∈ due, ∃ p, a.registry.find? key = some p ∧ p.key = key ∧ b.marks p = false) ∧
      (∀ p, ¬ (p.key ∈ due ∧ a.registry.find? p.key = some p) → b.marks p = a.marks p) ∧
      (∀ label, b.figures.reclaimed.count label = a.figures.reclaimed.count label +
        if label = ReclaimReason.expired.label then due.length else 0) ∧
      b.figures = { a.figures with
        idle := b.pool.idle.length
        used := b.pool.used.size
        reclaimed := b.figures.reclaimed
        sweeps := a.figures.sweeps + 1 } ∧
      ∀ longer again, maxAge.totalNanos ≤ longer.totalNanos →
        ({ c with assignment := b } : Cache).step (.sweep longer again) =
          ({ c with assignment := b.withFigures b.figures.recordSweep }, .count 0) := by
  intro c a
  have sound : a.Sound := sound_run_new config clock timeKept actions
  have told : a.Told := told_run (sound_new config clock timeKept) ⟨rfl, rfl, rfl⟩ actions
  let due := Assignment.arrange order (a.pool.expired c.clock.now maxAge.wholeMillis)
  let b := (a.sweep c.clock.now maxAge order).1
  have overdue (key : String) : key ∈ due ↔ a.pool.Overdue c.clock.now maxAge key :=
    Assignment.mem_arrange.trans Pool.mem_expired_iff_overdue
  have distinct : due.Nodup := Assignment.nodup_arrange order (a.pool.nodup_expired _ _)
  have used (key : String) : b.pool.used[key]? = if key ∈ due then none else a.pool.used[key]? := by
    have ended := a.getElem?_used_sweep c.clock.now maxAge order key
    simpa only [due, Assignment.mem_arrange] using ended
  have marks (p : Partition) :
      b.marks p = if p.key ∈ due ∧ a.registry.find? p.key = some p then false else a.marks p := by
    have written := sound.marks_sweep c.clock.now maxAge order p
    simpa only [due, Assignment.mem_arrange] using written
  have swept : b = (a.reclaimAll .expired due).withFigures (a.reclaimAll .expired due).figures.recordSweep :=
    congrArg Prod.fst (a.sweep_eq c.clock.now maxAge order)
  have nothing (longer : Duration) (again : List String) (within : maxAge.totalNanos ≤ longer.totalNanos) :
      b.sweep c.clock.now longer again = (b.withFigures b.figures.recordSweep, 0) := by
    have toldAfter : b.Told := ⟨rfl, rfl, rfl⟩
    refine toldAfter.sweep_of_expired_eq_nil (List.eq_nil_iff_forall_not_mem.mpr fun key member => ?_) again
    exact a.not_overdue_sweep c.clock.now order within key (Pool.mem_expired_iff_overdue.mp member)
  refine ⟨due, b, rfl, distinct, overdue, a.registry_sweep c.clock.now maxAge order,
    sound.idle_sweep c.clock.now maxAge order, used,
    (Assignment.Vacating.sweep a c.clock.now maxAge order).still.2.2.2, ?_, ?_, ?_, ?_, ?_⟩
  · intro key member
    have out := Pool.isUsed_of_mem_expired (Assignment.mem_arrange.mp member)
    have known := sound.used_known key out
    rw [Registry.contains_eq_isSome_find?, Option.isSome_iff_exists] at known
    obtain ⟨p, found⟩ := known
    obtain rfl := sound.registry.keyed key p found
    exact ⟨p, found, rfl, (marks p).trans (if_pos ⟨member, found⟩)⟩
  · exact fun p other => (marks p).trans (if_neg other)
  · intro label
    rw [swept]
    exact a.count_reclaimAll .expired due label
  · have figures := told.figures_reclaimAll .expired due
    rw [swept]
    exact congrArg AllocationFigures.recordSweep figures
  · intro longer again within
    exact congrArg (fun swept => (({ c with assignment := swept.1 }, .count swept.2) : Cache × Reply))
      (nothing longer again within)

end Cache

end PartitionLease
