import PartitionLease.Config
import PartitionLease.Proofs.NumberReading

namespace PartitionLease

/-- A variable holds a text, as the bytes that are its code. -/
def Environment.Holds (env : Environment) (name text : String) : Prop := env name = some text.toUTF8

/-- A variable that is not there, or whose bytes are the code of no text. -/
def Environment.Unset (env : Environment) (name : String) : Prop :=
  ∀ bytes, env name = some bytes → ¬ bytes.IsValidUTF8

/-- A variable names a number of milliseconds, or leaves it at what it is without the variable. -/
def Environment.Names (env : Environment) (name : String) (preset n : Nat) : Prop :=
  env.Unset name ∧ n = preset ∨ ∃ text, env.Holds name text ∧ Denotes text.toList n ∧ n < UInt64.size

/-- A variable holds a text that is no numeral of a 64-bit number, and the fault says which variable it is and what is
wrong with its text. -/
def Environment.Offends (env : Environment) (name : String) (fault : VariableFault) : Prop :=
  fault.name = name ∧ ∃ text, env.Holds name text ∧ (¬ ∃ n, Denotes text.toList n ∧ n < UInt64.size) ∧
    fault.cause = causeIn text.toList

namespace Environment

variable (env : Environment) (name : String)

theorem text?_eq_some_iff (text : String) : env.text? name = some text ↔ env.Holds name text := by
  unfold text? Holds
  cases env name with
  | none => simp
  | some bytes =>
    rw [Option.bind_some, String.fromUTF8?, String.toUTF8_eq_toByteArray]
    split
    case isTrue valid => rw [Option.some.injEq, Option.some.injEq, ← String.toByteArray_inj, String.fromUTF8]
    case isFalse invalid =>
      refine ⟨nofun, fun holds => ?_⟩
      cases holds
      exact absurd text.isValidUTF8 invalid

theorem text?_eq_none_iff : env.text? name = none ↔ env.Unset name := by
  unfold text? Unset
  cases env name with
  | none => simp
  | some bytes => simp [String.fromUTF8?]

variable {env name} {text : String}

theorem Holds.unique (holds : env.Holds name text) {other : String} (too : env.Holds name other) : other = text := by
  rw [← env.text?_eq_some_iff] at holds too
  exact Option.some.inj (too.symm.trans holds)

theorem Holds.not_unset (holds : env.Holds name text) : ¬ env.Unset name := fun unset =>
  unset _ holds text.isValidUTF8

theorem Unset.names_iff (unset : env.Unset name) (preset n : Nat) : env.Names name preset n ↔ n = preset := by
  refine ⟨?_, fun same => .inl ⟨unset, same⟩⟩
  rintro (⟨-, same⟩ | ⟨text, holds, -⟩)
  · exact same
  · exact absurd unset holds.not_unset

theorem Unset.not_offends (unset : env.Unset name) (fault : VariableFault) : ¬ env.Offends name fault := by
  rintro ⟨-, text, holds, -⟩
  exact holds.not_unset unset

theorem Holds.names_iff (holds : env.Holds name text) (preset n : Nat) :
    env.Names name preset n ↔ Denotes text.toList n ∧ n < UInt64.size := by
  refine ⟨?_, fun numeral => .inr ⟨text, holds, numeral⟩⟩
  rintro (⟨unset, -⟩ | ⟨other, too, numeral⟩)
  · exact absurd unset holds.not_unset
  · exact holds.unique too ▸ numeral

theorem Names.lt_size {preset n : Nat} (names : env.Names name preset n) (fits : preset < UInt64.size) :
    n < UInt64.size := by
  obtain ⟨-, rfl⟩ | ⟨-, -, -, small⟩ := names
  · exact fits
  · exact small

theorem Holds.offends_iff (holds : env.Holds name text) (fault : VariableFault) : env.Offends name fault ↔
    fault.name = name ∧ readNumber text.toList = .error fault.cause := by
  rw [readNumber_eq_error_iff]
  refine ⟨?_, fun ⟨same, unreadable⟩ => ⟨same, text, holds, unreadable⟩⟩
  rintro ⟨same, other, too, unreadable⟩
  exact ⟨same, holds.unique too ▸ unreadable⟩

end Environment

namespace Duration

theorem totalNanos_ofMillis (millis : UInt64) : (ofMillis millis).totalNanos = millis.toNat * 1000000 := by
  unfold totalNanos ofMillis
  simp only [UInt64.toNat_div, UInt64.toNat_mod]
  rw [show (1000 : UInt64).toNat = 1000 from rfl]
  omega

/-- A span of whole milliseconds has as many of them as it was made of. -/
theorem wholeMillis_ofMillis (millis : UInt64) : (ofMillis millis).wholeMillis = millis := by
  apply UInt64.toNat.inj
  have fits : millis.toNat ≤ word64Max := Nat.le_pred_of_lt millis.toNat_lt
  rw [wholeMillis, totalNanos_ofMillis, toNat_saturate64, Nat.mul_div_cancel _ (by decide), Nat.min_eq_left fits]

end Duration

namespace Environment

variable (env : Environment) (name : String)

/-- A number of 64 bits stands for itself in milliseconds. -/
theorem millis_eq_ok_iff (preset : UInt64) (d : Duration) : env.millis name (.ofMillis preset) = .ok d ↔
    ∃ n : UInt64, env.Names name preset.toNat n.toNat ∧ d = .ofMillis n := by
  unfold millis
  cases held : env.text? name with
  | none =>
    have unset := (env.text?_eq_none_iff name).mp held
    simp [unset.names_iff, UInt64.toNat_inj, eq_comm]
  | some text =>
    have holds := (env.text?_eq_some_iff name text).mp held
    simp only [holds.names_iff, ← readNumber_eq_ok_iff]
    cases read : readNumber text.toList with
    | error cause => simp
    | ok n =>
      have fits : n < UInt64.size := ((readNumber_eq_ok_iff _ n).mp read).2
      simp only [Except.ok.injEq]
      constructor
      · rintro rfl
        exact ⟨.ofNat n, (UInt64.toNat_ofNat_of_lt fits).symm, rfl⟩
      · rintro ⟨m, rfl, rfl⟩
        rw [UInt64.ofNat_toNat]

theorem exists_millis_eq_ok_iff (preset : UInt64) :
    (∃ d, env.millis name (.ofMillis preset) = .ok d) ↔ ∃ n, env.Names name preset.toNat n := by
  simp only [millis_eq_ok_iff]
  constructor
  · rintro ⟨-, n, names, -⟩
    exact ⟨n.toNat, names⟩
  · rintro ⟨n, names⟩
    rw [← UInt64.toNat_ofNat_of_lt (names.lt_size preset.toNat_lt)] at names
    exact ⟨_, .ofNat n, names, rfl⟩

theorem millis_eq_error_iff (preset : Duration) (fault : VariableFault) :
    env.millis name preset = .error fault ↔ env.Offends name fault := by
  unfold millis
  cases held : env.text? name with
  | none =>
    have unset := (env.text?_eq_none_iff name).mp held
    simp [unset.not_offends]
  | some text =>
    have holds := (env.text?_eq_some_iff name text).mp held
    rw [holds.offends_iff]
    cases read : readNumber text.toList with
    | ok n => simp [read]
    | error cause =>
      cases fault
      simp [read, eq_comm]

end Environment

namespace Config

/-- The last two of the three checks imply the first: an age of nothing is below every interval that lasts. -/
theorem validate_eq_ok_iff (c : Config) : c.validate = .ok () ↔
    0 < c.sweepInterval.totalNanos ∧ c.sweepInterval.totalNanos ≤ c.maxCheckoutAge.totalNanos := by
  have accepted : c.validate = .ok () ↔ c.faults = [] := by simp [validate]
  rw [accepted]
  simp only [faults, List.append_eq_nil_iff, ite_eq_right_iff, List.cons_ne_nil, imp_false]
  omega

variable (env : Environment)

theorem ofEnvironment_eq_ok_iff (c : Config) : ofEnvironment env = .ok c ↔
    env.millis maxCheckoutAgeVariable default.maxCheckoutAge = .ok c.maxCheckoutAge ∧
    env.millis sweepIntervalVariable default.sweepInterval = .ok c.sweepInterval ∧
    env.switch checkoutTimersVariable default.checkoutTimers = c.checkoutTimers := by
  cases c
  unfold ofEnvironment
  cases env.millis maxCheckoutAgeVariable default.maxCheckoutAge with
  | error => simp [bind, Except.bind]
  | ok age =>
    cases env.millis sweepIntervalVariable default.sweepInterval with
    | error => simp [bind, Except.bind]
    | ok interval => simp [bind, Except.bind, pure, Except.pure]

theorem ofEnvironment_eq_error_iff (fault : VariableFault) : ofEnvironment env = .error fault ↔
    env.millis maxCheckoutAgeVariable default.maxCheckoutAge = .error fault ∨
    (∃ age, env.millis maxCheckoutAgeVariable default.maxCheckoutAge = .ok age) ∧
      env.millis sweepIntervalVariable default.sweepInterval = .error fault := by
  unfold ofEnvironment
  cases env.millis maxCheckoutAgeVariable default.maxCheckoutAge with
  | error => simp [bind, Except.bind]
  | ok age =>
    cases env.millis sweepIntervalVariable default.sweepInterval with
    | error => simp [bind, Except.bind]
    | ok interval => simp [bind, Except.bind, pure, Except.pure]

/-- A configuration can be read when each of the two spans is left out or given as a number of 64 bits. It then has the
numbers that are given, to the millisecond, and is accepted when the sweeps come no less often than leases end.
Otherwise the first variable that is no number is told, with what is wrong with it. -/
theorem configuration_is_read_exactly :
    ((∃ c, ofEnvironment env = .ok c) ↔
      (∃ n, env.Names maxCheckoutAgeVariable defaultMaxCheckoutAgeMillis.toNat n) ∧
      ∃ n, env.Names sweepIntervalVariable defaultSweepIntervalMillis.toNat n) ∧
    (∀ c, ofEnvironment env = .ok c →
      env.Names maxCheckoutAgeVariable defaultMaxCheckoutAgeMillis.toNat c.maxCheckoutAge.wholeMillis.toNat ∧
      env.Names sweepIntervalVariable defaultSweepIntervalMillis.toNat c.sweepInterval.wholeMillis.toNat ∧
      (c.validate = .ok () ↔
        0 < c.sweepInterval.wholeMillis ∧ c.sweepInterval.wholeMillis ≤ c.maxCheckoutAge.wholeMillis)) ∧
    (∀ fault, ofEnvironment env = .error fault ↔
      env.Offends maxCheckoutAgeVariable fault ∨
      (∃ n, env.Names maxCheckoutAgeVariable defaultMaxCheckoutAgeMillis.toNat n) ∧
        env.Offends sweepIntervalVariable fault) ∧
    ∀ c : Config, c.validate = .ok () ↔
      0 < c.sweepInterval.totalNanos ∧ c.sweepInterval.totalNanos ≤ c.maxCheckoutAge.totalNanos := by
  refine ⟨?_, fun c read => ?_, fun fault => ?_, validate_eq_ok_iff⟩
  · rw [← env.exists_millis_eq_ok_iff, ← env.exists_millis_eq_ok_iff]
    constructor
    · rintro ⟨c, read⟩
      obtain ⟨ageRead, intervalRead, -⟩ := (ofEnvironment_eq_ok_iff env c).mp read
      exact ⟨⟨_, ageRead⟩, _, intervalRead⟩
    · rintro ⟨⟨age, ageRead⟩, interval, intervalRead⟩
      exact ⟨⟨age, interval, _⟩, (ofEnvironment_eq_ok_iff env _).mpr ⟨ageRead, intervalRead, rfl⟩⟩
  · obtain ⟨ageRead, intervalRead, -⟩ := (ofEnvironment_eq_ok_iff env c).mp read
    obtain ⟨age, ageNamed, ageIs⟩ := (env.millis_eq_ok_iff _ _ _).mp ageRead
    obtain ⟨interval, intervalNamed, intervalIs⟩ := (env.millis_eq_ok_iff _ _ _).mp intervalRead
    rw [validate_eq_ok_iff, ageIs, intervalIs]
    simp only [Duration.wholeMillis_ofMillis, Duration.totalNanos_ofMillis, UInt64.lt_iff_toNat_lt,
      UInt64.le_iff_toNat_le, UInt64.toNat_zero]
    exact ⟨ageNamed, intervalNamed, by omega⟩
  · rw [ofEnvironment_eq_error_iff, env.millis_eq_error_iff, env.millis_eq_error_iff]
    exact or_congr_right (and_congr_left' (env.exists_millis_eq_ok_iff _ _))

end Config

end PartitionLease
