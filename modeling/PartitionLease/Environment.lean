namespace PartitionLease

/-- The variables a process was started with: bytes, since nothing makes them text. -/
abbrev Environment := String → Option ByteArray

/-- The text of a variable. One whose bytes are not the code of a text counts as absent. -/
def Environment.text? (env : Environment) (name : String) : Option String :=
  (env name).bind String.fromUTF8?

/-- Why a text is no 64-bit number. -/
inductive NumberFault
  | empty
  | invalidDigit
  | tooLarge
deriving DecidableEq

def NumberFault.message : NumberFault → String
  | empty => "cannot parse integer from empty string"
  | invalidDigit => "invalid digit found in string"
  | tooLarge => "number too large to fit in target type"

/-- Reads on in a number whose digits so far are worth `value`. The first character that is no digit,
or with which the number leaves 64 bits, ends the reading; one that is no digit is told first. -/
def readDigits (value : Nat) : List Char → Except NumberFault Nat
  | [] => .ok value
  | c :: rest =>
    if c.isDigit then
      let next := value * 10 + (c.toNat - '0'.toNat)
      if next < UInt64.size then readDigits next rest else .error .tooLarge
    else .error .invalidDigit

/-- A number is decimal digits, after a plus sign if one is wanted. -/
def readNumber : List Char → Except NumberFault Nat
  | [] => .error .empty
  | ['+'] => .error .invalidDigit
  | '+' :: digits => readDigits 0 digits
  | digits => readDigits 0 digits

end PartitionLease
