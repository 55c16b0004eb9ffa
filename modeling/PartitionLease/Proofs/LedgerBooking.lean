import Mathlib.Data.List.Dedup
import Mathlib.Data.List.Induction
import PartitionLease.Proofs.KeyEffects

namespace PartitionLease

namespace Ledger

/-- Looking a key up first only saves the booking of a key that is booked. -/
theorem present_eq_book (l : Ledger) (key : String) : l.present key = l.book key := by
  unfold present lookUp book
  cases l.booked[key]? <;> rfl

theorem present_of_found {l : Ledger} {key : String} {answer : Bool} (found : l.lookUp key = some answer) :
    l.present key = (l, answer) := by
  rw [present, found]

/-- Exactly these keys have been presented to a ledger, one after the other, some perhaps more than once. -/
structure Books (l : Ledger) (keys : List String) : Prop where
  booked : ∀ key, l.booked[key]? = if key ∈ keys then some true else none
  firsts : l.firsts = l.size

namespace Books

variable {l : Ledger} {keys : List String}

theorem empty : Books {} [] := ⟨by simp, rfl⟩

theorem isBooked_iff (books : l.Books keys) (key : String) : l.isBooked key ↔ key ∈ keys := by
  rw [isBooked, Std.ExtTreeMap.contains_eq_isSome_getElem?, books.booked]
  split <;> simp_all

/-- The answer is the same every time, and only the first time the ledger changes. -/
theorem present (books : l.Books keys) (key : String) :
    (l.present key).1.Books (keys ++ [key]) ∧ (l.present key).2 = true := by
  rw [present_eq_book, book, books.booked]
  by_cases known : key ∈ keys
  · rw [if_pos known]
    refine ⟨⟨fun k => ?_, books.firsts⟩, rfl⟩
    have same : k ∈ keys ++ [key] ↔ k ∈ keys := by
      rw [List.mem_append, List.mem_singleton]
      exact ⟨fun either => either.elim id fun own => own ▸ known, Or.inl⟩
    simp only [books.booked, same]
  · have new : key ∉ l.booked := by
      rw [Std.ExtTreeMap.mem_iff_isSome_getElem?, books.booked, if_neg known]
      exact Bool.false_ne_true
    rw [if_neg known]
    refine ⟨⟨fun k => ?_, ?_⟩, rfl⟩
    · simp only [Std.ExtTreeMap.getElem?_insert, Std.LawfulEqCmp.compare_eq_iff_eq, books.booked, List.mem_append,
        List.mem_singleton, @eq_comm _ key]
      by_cases own : k = key <;> simp [own]
    · simp only [size, Std.ExtTreeMap.size_insert, Std.ExtTreeMap.contains_iff_mem, if_neg new, books.firsts]

/-- However often it was presented, a key counts once. -/
theorem size_eq (books : l.Books keys) : l.size = keys.dedup.length := by
  have same (key : String) : key ∈ l.booked.keys ↔ key ∈ keys.dedup := by
    rw [Std.ExtTreeMap.mem_keys, List.mem_dedup, ← books.isBooked_iff]
    exact Iff.rfl
  have perm := (List.perm_ext_iff_of_nodup Std.ExtTreeMap.nodup_keys keys.nodup_dedup).mpr same
  rw [size, ← Std.ExtTreeMap.length_keys, perm.length_eq]

end Books

end Ledger

/-- A cache to which keys are presented by calls that run side by side. Calls are numbered as they begin; `missed` are
the keys and numbers of those that have looked their keys up in vain and have yet to book them. -/
structure Callers where
  cache : Cache
  begun : Nat := 0
  missed : List (String × Nat) := []

namespace Callers

/-- What happens next: a call begins and looks its key up, a call that has not found its key books it, or something
else happens to the cache. A call that nothing comes between is among the latter. -/
inductive Move
  | looksUp (key : String)
  | books (call : Nat)
  | other (action : Cache.Action)

/-- A call that has ended, with its key, its number and its answer. -/
structure Answered where
  key : String
  call : Nat
  answer : Bool
deriving DecidableEq

def step (s : Callers) : Move → Callers × Option Answered
  | .looksUp key =>
    match s.cache.ledger.lookUp key with
    | some answer => ({ s with begun := s.begun + 1 }, some ⟨key, s.begun, answer⟩)
    | none => ({ s with begun := s.begun + 1, missed := s.missed ++ [(key, s.begun)] }, none)
  | .books call =>
    match s.missed.find? (·.2 == call) with
    | some (key, _) =>
      let (ledger, answer) := s.cache.ledger.book key
      ({ s with cache := { s.cache with ledger }, missed := s.missed.erase (key, call) }, some ⟨key, call, answer⟩)
    | none => (s, none)
  | .other action =>
    let (cache, reply) := s.cache.step action
    let presented := Cache.presented action
    ({ s with cache, begun := s.begun + presented.length },
      presented.head?.map fun key => ⟨key, s.begun, reply.isYes⟩)

def run (s : Callers) (moves : List Move) : Callers := moves.foldl (fun s move => (s.step move).1) s

/-- The calls that end in a run, in the order in which they do. -/
def ended (s : Callers) : List Move → List Answered
  | [] => []
  | move :: rest => (s.step move).2.toList ++ (s.step move).1.ended rest

/-- The keys of the calls that begin. -/
def Move.presented : Move → List String
  | .looksUp key => [key]
  | .books _ => []
  | .other action => Cache.presented action

theorem run_append (s : Callers) (first later : List Move) :
    s.run (first ++ later) = (s.run first).run later := List.foldl_append

theorem run_concat (s : Callers) (moves : List Move) (move : Move) :
    s.run (moves ++ [move]) = ((s.run moves).step move).1 := s.run_append moves [move]

theorem ended_append (s : Callers) (first later : List Move) :
    s.ended (first ++ later) = s.ended first ++ (s.run first).ended later := by
  induction first generalizing s with
  | nil => rfl
  | cons move rest ih =>
    rw [List.cons_append, ended, ended, ih, List.append_assoc]
    rfl

theorem ended_concat (s : Callers) (moves : List Move) (move : Move) :
    s.ended (moves ++ [move]) = s.ended moves ++ ((s.run moves).step move).2.toList := by
  rw [ended_append, ended, ended, List.append_nil]

theorem present_or_quiet (action : Cache.Action) : (∃ key, action = .present key) ∨
    Cache.presented action = [] ∧ ∀ c : Cache, (c.step action).1.ledger = c.ledger := by
  cases action with
  | present key => exact Or.inl ⟨key, rfl⟩
  | advanceClock span => exact Or.inr ⟨rfl, fun c => by rw [Cache.step_advanceClock]⟩
  | pass millis =>
    refine Or.inr ⟨rfl, fun c => ?_⟩
    simp only [Cache.step, Cache.pass]
    split <;> rfl
  | _ => exact Or.inr ⟨rfl, fun _ => rfl⟩

/-- Of all moves only one that ends a call does something to the ledger, and it does what the whole call would have
done at that moment. -/
theorem step_ledger (s : Callers) (move : Move) :
    (s.step move).2 = none ∧ (s.step move).1.cache.ledger = s.cache.ledger ∨
      ∃ e, (s.step move).2 = some e ∧ s.cache.ledger.present e.key = ((s.step move).1.cache.ledger, e.answer) := by
  cases move with
  | looksUp key =>
    cases found : s.cache.ledger.lookUp key with
    | none => exact Or.inl (by simp [step, found])
    | some answer => exact Or.inr ⟨⟨key, s.begun, answer⟩, by simp [step, found, Ledger.present_of_found found]⟩
  | books call =>
    cases waiting : s.missed.find? (·.2 == call) with
    | none => exact Or.inl (by simp [step, waiting])
    | some entry =>
      refine Or.inr ⟨⟨entry.1, call, (s.cache.ledger.book entry.1).2⟩, by simp [step, waiting], ?_⟩
      rw [Ledger.present_eq_book]
      simp [step, waiting]
  | other action =>
    rcases present_or_quiet action with ⟨key, rfl⟩ | ⟨nothing, quiet⟩
    · exact Or.inr ⟨⟨key, s.begun, (s.cache.ledger.present key).2⟩, rfl, rfl⟩
    · exact Or.inl ⟨by simp only [step, nothing, List.head?_nil, Option.map_none], quiet s.cache⟩

/-- A call is numbered and waits or ends, and one that ends was begun in that move or has waited. -/
theorem calls_step (s : Callers) (move : Move) :
    ((s.step move).2.toList.map (fun e => (e.key, e.call)) ++ (s.step move).1.missed).Perm
        (s.missed ++ move.presented.zipIdx s.begun) ∧
      (s.step move).1.begun = s.begun + move.presented.length := by
  cases move with
  | looksUp key =>
    cases found : s.cache.ledger.lookUp key with
    | none => simp [step, found, Move.presented]
    | some answer =>
      simp only [step, found, Move.presented, Option.toList_some, List.map_cons, List.map_nil, List.zipIdx_cons,
        List.zipIdx_nil, List.length_singleton, and_true]
      exact List.perm_append_comm
  | books call =>
    cases waiting : s.missed.find? (·.2 == call) with
    | none => simp [step, waiting, Move.presented]
    | some entry =>
      obtain ⟨key, number⟩ := entry
      have own : number = call := by simpa using List.find?_some waiting
      have member := List.mem_of_find?_eq_some waiting
      subst own
      simp only [step, waiting, Move.presented, Option.toList_some, List.map_cons, List.map_nil, List.zipIdx_nil,
        List.append_nil, List.length_nil, Nat.add_zero, and_true]
      exact (List.perm_cons_erase member).symm
  | other action =>
    rcases present_or_quiet action with ⟨key, rfl⟩ | ⟨nothing, -⟩
    · simp only [step, Move.presented, Cache.presented, List.head?_cons, Option.map_some, Option.toList_some,
        List.map_cons, List.map_nil, List.zipIdx_cons, List.zipIdx_nil, List.length_singleton, and_true]
      exact List.perm_append_comm
    · simp [step, Move.presented, nothing]

/-- The calls to a cache that was new, as they stand: those that have ended, all with yes, are what its ledger books,
and together with those that wait they are all that have begun. -/
structure Accounts (s : Callers) (ended : List Answered) (presented : List String) : Prop where
  books : s.cache.ledger.Books (ended.map (·.key))
  yes : ∀ e ∈ ended, e.answer = true
  calls : (ended.map (fun e => (e.key, e.call)) ++ s.missed).Perm presented.zipIdx
  begun : s.begun = presented.length

namespace Accounts

variable {s : Callers} {ended : List Answered} {presented : List String}

theorem step (accounts : Accounts s ended presented) (move : Move) :
    Accounts (s.step move).1 (ended ++ (s.step move).2.toList) (presented ++ move.presented) := by
  obtain ⟨moved, numbered⟩ := s.calls_step move
  have calls : ((ended ++ (s.step move).2.toList).map (fun e => (e.key, e.call)) ++ (s.step move).1.missed).Perm
      (presented ++ move.presented).zipIdx := by
    rw [List.map_append, List.append_assoc, List.zipIdx_append, Nat.zero_add, ← accounts.begun]
    refine (moved.append_left _).trans ?_
    rw [← List.append_assoc]
    exact accounts.calls.append_right _
  have begun : (s.step move).1.begun = (presented ++ move.presented).length := by
    rw [numbered, accounts.begun, List.length_append]
  rcases s.step_ledger move with ⟨nobody, same⟩ | ⟨e, answered, effect⟩
  · rw [nobody, Option.toList_none, List.append_nil] at calls ⊢
    exact ⟨same ▸ accounts.books, accounts.yes, calls, begun⟩
  · obtain ⟨books, yes⟩ := accounts.books.present e.key
    rw [effect] at books yes
    rw [answered, Option.toList_some] at calls ⊢
    refine ⟨?_, fun other member => ?_, calls, begun⟩
    · rw [List.map_append]
      exact books
    · rcases List.mem_append.mp member with old | new
      · exact accounts.yes other old
      · rw [List.mem_singleton.mp new]
        exact yes

/-- A call that waits is the only one with its number. -/
theorem find?_missed (accounts : Accounts s ended presented) {key : String} {call : Nat}
    (waits : (key, call) ∈ s.missed) : s.missed.find? (·.2 == call) = some (key, call) := by
  have numbers : (s.missed.map Prod.snd).Nodup := by
    have all : (List.range' 0 presented.length).Nodup := List.nodup_range'
    rw [← List.zipIdx_map_snd] at all
    have both := ((accounts.calls.map Prod.snd).nodup_iff).mpr all
    rw [List.map_append] at both
    exact both.of_append_right
  obtain ⟨entry, found⟩ : ∃ entry, s.missed.find? (·.2 == call) = some entry :=
    Option.isSome_iff_exists.mp (List.find?_isSome.mpr ⟨_, waits, beq_self_eq_true call⟩)
  have same : entry.2 = call := by simpa using List.find?_some found
  rw [found, List.inj_on_of_nodup_map numbers (List.mem_of_find?_eq_some found) waits same]

end Accounts

theorem accounts_run (config : Config) (clock : Clock) (timeKept : Bool) (moves : List Move) :
    let start : Callers := { cache := .new config clock timeKept }
    Accounts (start.run moves) (start.ended moves) (moves.flatMap Move.presented) := by
  intro start
  induction moves using List.reverseRecOn with
  | nil => exact ⟨.empty, nofun, .refl _, rfl⟩
  | append_singleton moves move ih =>
    rw [run_concat, ended_concat, List.flatMap_append, List.flatMap_singleton]
    exact ih.step move

/-- However calls that present keys come between each other, and whatever else happens to the cache meanwhile, every
call is answered with yes. None is lost: those that have ended and those that wait are just those that have begun, each
with its key, and one that waits has only to go on to be answered. A key is booked once the first call for it has
ended, and stays so; the ledger books as many keys as different ones were in calls that have ended, and that many
first sights are counted. -/
theorem keys_are_booked_once (config : Config) (clock : Clock) (timeKept : Bool) (moves : List Move) :
    let start : Callers := { cache := .new config clock timeKept }
    let s := start.run moves
    let ended := start.ended moves
    let ledger := s.cache.ledger
    (∀ e ∈ ended, e.answer = true) ∧
    (ended.map (fun e => (e.key, e.call)) ++ s.missed).Perm (moves.flatMap Move.presented).zipIdx ∧
    (∀ key call, (key, call) ∈ s.missed → (s.step (.books call)).2 = some ⟨key, call, true⟩) ∧
    (∀ key, (s.step (.looksUp key)).2 = if ledger.isBooked key then some ⟨key, s.begun, true⟩ else none) ∧
    (∀ key, ledger.isBooked key ↔ ∃ e ∈ ended, e.key = key) ∧
    (∀ more key, ledger.isBooked key → (s.run more).cache.ledger.isBooked key) ∧
    ledger.size = (ended.map (·.key)).dedup.length ∧
    ledger.firsts = ledger.size ∧ s.cache.metrics.firsts = ledger.size := by
  intro start s ended ledger
  have accounts : Accounts s ended (moves.flatMap Move.presented) := accounts_run config clock timeKept moves
  have booked (key : String) : ledger.isBooked key ↔ ∃ e ∈ ended, e.key = key :=
    (accounts.books.isBooked_iff key).trans List.mem_map
  have forGood (more : List Move) (key : String) (now : ledger.isBooked key) :
      (s.run more).cache.ledger.isBooked key := by
    have later := (accounts_run config clock timeKept (moves ++ more)).books
    rw [run_append, ended_append, List.map_append] at later
    exact (later.isBooked_iff key).mpr (List.mem_append_left _ ((accounts.books.isBooked_iff key).mp now))
  have goesOn (key : String) (call : Nat) (waits : (key, call) ∈ s.missed) :
      (s.step (.books call)).2 = some ⟨key, call, true⟩ := by
    have yes := (accounts.books.present key).2
    rw [Ledger.present_eq_book] at yes
    simp only [step, accounts.find?_missed waits, yes]
  have looked (key : String) :
      (s.step (.looksUp key)).2 = if ledger.isBooked key then some ⟨key, s.begun, true⟩ else none := by
    have entry := accounts.books.booked key
    have iff := accounts.books.isBooked_iff key
    by_cases known : key ∈ ended.map (·.key)
    · rw [if_pos known] at entry
      rw [if_pos (iff.mpr known)]
      simp only [step, Ledger.lookUp, entry]
    · rw [if_neg known] at entry
      rw [if_neg (mt iff.mp known)]
      simp only [step, Ledger.lookUp, entry]
  exact ⟨accounts.yes, accounts.calls, goesOn, looked, booked, forGood, accounts.books.size_eq, accounts.books.firsts,
    accounts.books.firsts⟩

end Callers

end PartitionLease
