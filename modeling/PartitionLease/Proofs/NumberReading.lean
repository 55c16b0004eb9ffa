import Mathlib.Data.List.TakeWhile
import PartitionLease.Environment

namespace PartitionLease

/-- A text without the plus sign that it may begin with. -/
def behindSign : List Char → List Char
  | '+' :: rest => rest
  | text => text

/-- A text is a decimal numeral of `n`, with or without a plus sign, and with any number of zeros in front. -/
def Denotes (text : List Char) (n : Nat) : Prop :=
  ∃ digits, (text = digits ∨ text = '+' :: digits) ∧ digits ≠ [] ∧ (∀ c ∈ digits, c.isDigit) ∧
    Nat.ofDigitChars 10 digits 0 = n

/-- What the digits are worth that stand before the first character that is no digit. -/
def leadingValue (text : List Char) : Nat := Nat.ofDigitChars 10 (text.takeWhile Char.isDigit) 0

/-- What is wrong with a text that is no numeral of a 64-bit number. A stray character is not told if the digits before
it are too many already. -/
def causeIn (text : List Char) : NumberFault :=
  if text = [] then .empty
  else if text = ['+'] ∨ leadingValue (behindSign text) < UInt64.size then .invalidDigit
  else .tooLarge

theorem le_ofDigitChars (digits : List Char) (start : Nat) : start ≤ Nat.ofDigitChars 10 digits start := by
  rw [Nat.ofDigitChars_eq_ofDigitChars_zero]
  exact Nat.le_add_right_of_le (Nat.le_mul_of_pos_left start (Nat.pow_pos (by decide)))

/-- Looking at 64 bits after each digit comes to the same as looking at them once after the last digit: the value never
falls, so a number that has left them does not come back. -/
theorem readDigits_eq (text : List Char) {start : Nat} (fits : start < UInt64.size) : readDigits start text =
    if Nat.ofDigitChars 10 (text.takeWhile Char.isDigit) start < UInt64.size then
      if text.takeWhile Char.isDigit = text then .ok (Nat.ofDigitChars 10 text start) else .error .invalidDigit
    else .error .tooLarge := by
  induction text generalizing start with
  | nil => simp [readDigits, fits]
  | cons c rest ih =>
    rw [readDigits]
    cases digit : c.isDigit with
    | false => simp [List.takeWhile_cons_of_neg, digit, fits]
    | true =>
      simp only [List.takeWhile_cons_of_pos digit, Nat.ofDigitChars_cons, Nat.mul_comm start, if_true, List.cons.injEq,
        true_and]
      split
      case isTrue still => exact ih still
      case isFalse left =>
        have grown := le_ofDigitChars (rest.takeWhile Char.isDigit) (10 * start + (c.toNat - '0'.toNat))
        exact (if_neg fun still => left (grown.trans_lt still)).symm

theorem readNumber_eq (text : List Char) : readNumber text =
    if text = [] then .error .empty
    else if text = ['+'] then .error .invalidDigit
    else readDigits 0 (behindSign text) := by
  match text with
  | [] => rfl
  | c :: rest =>
    by_cases sign : c = '+'
    · subst sign
      cases rest <;> simp [readNumber, behindSign]
    · simp [readNumber, behindSign, sign]

/-- No digit is a plus sign, so a text can be split in one way only. -/
theorem denotes_iff (text : List Char) (n : Nat) : Denotes text n ↔
    behindSign text ≠ [] ∧ (∀ c ∈ behindSign text, c.isDigit) ∧ Nat.ofDigitChars 10 (behindSign text) 0 = n := by
  constructor
  · rintro ⟨digits, rfl | rfl, nonempty, all, worth⟩
    · have unsigned : behindSign text = text := by
        unfold behindSign
        split
        · exact absurd (all '+' List.mem_cons_self) (by decide)
        · rfl
      rw [unsigned]
      exact ⟨nonempty, all, worth⟩
    · exact ⟨nonempty, all, worth⟩
  · rintro ⟨nonempty, all, worth⟩
    refine ⟨behindSign text, ?_, nonempty, all, worth⟩
    unfold behindSign
    split
    · exact .inr rfl
    · exact .inl rfl

theorem behindSign_eq_nil_iff (text : List Char) : behindSign text = [] ↔ text = [] ∨ text = ['+'] := by
  unfold behindSign
  split
  case h_1 rest => simp
  case h_2 unsigned =>
    refine ⟨.inl, ?_⟩
    rintro (empty | rfl)
    · exact empty
    · exact absurd rfl (unsigned [])

theorem readNumber_of_denotes {text : List Char} {n : Nat} (numeral : Denotes text n) (fits : n < UInt64.size) :
    readNumber text = .ok n := by
  obtain ⟨nonempty, all, rfl⟩ := (denotes_iff text n).mp numeral
  obtain ⟨notEmpty, notSign⟩ := not_or.mp ((behindSign_eq_nil_iff text).not.mp nonempty)
  have whole : (behindSign text).takeWhile Char.isDigit = behindSign text := List.takeWhile_eq_self_iff.mpr all
  rw [readNumber_eq, if_neg notEmpty, if_neg notSign, readDigits_eq _ (by decide), whole, if_pos fits, if_pos rfl]

theorem readNumber_of_not_denotes {text : List Char} (unreadable : ¬ ∃ n, Denotes text n ∧ n < UInt64.size) :
    readNumber text = .error (causeIn text) := by
  rw [readNumber_eq, causeIn]
  split
  case isTrue => rfl
  case isFalse notEmpty =>
    split
    case isTrue sign => rw [if_pos (.inl sign)]
    case isFalse notSign =>
      rw [readDigits_eq _ (by decide), ← leadingValue]
      split
      case isTrue fits =>
        have nonempty : behindSign text ≠ [] := (behindSign_eq_nil_iff text).not.mpr (not_or.mpr ⟨notEmpty, notSign⟩)
        -- digits throughout would be a numeral of what they are worth
        have stray : (behindSign text).takeWhile Char.isDigit ≠ behindSign text := fun whole =>
          unreadable ⟨leadingValue (behindSign text), (denotes_iff text _).mpr
            ⟨nonempty, List.takeWhile_eq_self_iff.mp whole, by rw [leadingValue, whole]⟩, fits⟩
        rw [if_neg stray, if_pos (.inr fits)]
      case isFalse left => rw [if_neg (not_or.mpr ⟨notSign, left⟩)]

theorem readNumber_eq_ok_iff (text : List Char) (n : Nat) :
    readNumber text = .ok n ↔ Denotes text n ∧ n < UInt64.size := by
  constructor
  · intro read
    by_cases readable : ∃ m, Denotes text m ∧ m < UInt64.size
    · obtain ⟨m, numeral, fits⟩ := readable
      cases (readNumber_of_denotes numeral fits).symm.trans read
      exact ⟨numeral, fits⟩
    · cases (readNumber_of_not_denotes readable).symm.trans read
  · rintro ⟨numeral, fits⟩
    exact readNumber_of_denotes numeral fits

example : readNumber "+0018446744073709551615".toList = .ok (UInt64.size - 1) := by decide

theorem readNumber_eq_error_iff (text : List Char) (cause : NumberFault) :
    readNumber text = .error cause ↔ (¬ ∃ n, Denotes text n ∧ n < UInt64.size) ∧ cause = causeIn text := by
  constructor
  · intro read
    have unreadable : ¬ ∃ n, Denotes text n ∧ n < UInt64.size := by
      rintro ⟨n, numeral, fits⟩
      cases (readNumber_of_denotes numeral fits).symm.trans read
    cases (readNumber_of_not_denotes unreadable).symm.trans read
    exact ⟨unreadable, rfl⟩
  · rintro ⟨unreadable, rfl⟩
    exact readNumber_of_not_denotes unreadable

example : readNumber "18446744073709551616 ms".toList = .error .tooLarge := by decide

end PartitionLease
