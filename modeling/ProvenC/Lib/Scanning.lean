import Mathlib

/-!
# Scanners that can stop anywhere

A scanner reads a value from the front of its input, finds the input wrong, or runs out of it.
-/

namespace ProvenC.Lib.Scanning

open List

inductive Scan (Symbol Fault Value : Type) where
  | short
  | bad (fault : Fault)
  | got (value : Value) (rest : List Symbol)

def Scanner (Symbol Fault Value : Type) : Type := List Symbol → Scan Symbol Fault Value

variable {Symbol Fault Value Next : Type}

def Scan.andThen (outcome : Scan Symbol Fault Value) (next : Value → Scanner Symbol Fault Next) :
    Scan Symbol Fault Next :=
  match outcome with
  | .short => .short
  | .bad fault => .bad fault
  | .got value rest => next value rest

instance : Monad (Scanner Symbol Fault) where
  pure value := fun input => .got value input
  bind first next := fun input => (first input).andThen next

def fail (fault : Fault) : Scanner Symbol Fault Value := fun _ => .bad fault

def next : Scanner Symbol Fault Symbol
  | [] => .short
  | symbol :: rest => .got symbol rest

def peek : Scanner Symbol Fault Symbol
  | [] => .short
  | symbol :: rest => .got symbol (symbol :: rest)

def span (belongs : Symbol → Bool) : Scanner Symbol Fault (List Symbol) := fun input =>
  match input.dropWhile belongs with
  | [] => .short
  | stop :: rest => .got (input.takeWhile belongs) (stop :: rest)

theorem bind_apply (first : Scanner Symbol Fault Value) (then_ : Value → Scanner Symbol Fault Next)
    (input : List Symbol) : (first >>= then_) input = (first input).andThen then_ := rfl

theorem bind_got {first : Scanner Symbol Fault Value} {then_ : Value → Scanner Symbol Fault Next}
    {input rest : List Symbol} {value : Value} (got : first input = .got value rest) :
    (first >>= then_) input = then_ value rest := by
  rw [bind_apply, got]
  rfl

@[simp] theorem pure_apply (value : Value) (input : List Symbol) :
    (pure value : Scanner Symbol Fault Value) input = .got value input := rfl

@[simp] theorem fail_apply (fault : Fault) (input : List Symbol) :
    (fail fault : Scanner Symbol Fault Value) input = .bad fault := rfl

@[simp] theorem next_cons (symbol : Symbol) (rest : List Symbol) :
    (next : Scanner Symbol Fault Symbol) (symbol :: rest) = .got symbol rest := rfl

@[simp] theorem peek_cons (symbol : Symbol) (rest : List Symbol) :
    (peek : Scanner Symbol Fault Symbol) (symbol :: rest) = .got symbol (symbol :: rest) := rfl

theorem span_run {belongs : Symbol → Bool} {run rest : List Symbol} {stop : Symbol}
    (all : ∀ symbol ∈ run, belongs symbol = true) (ends : belongs stop = false) :
    (span belongs : Scanner Symbol Fault (List Symbol)) (run ++ stop :: rest) = .got run (stop :: rest) := by
  have stopped : ¬ belongs stop = true := by
    rw [ends]
    exact Bool.false_ne_true
  unfold span
  rw [dropWhile_append_of_pos all, dropWhile_cons_of_neg stopped, takeWhile_append_of_pos all,
    takeWhile_cons_of_neg stopped, append_nil]

/-- What a scanner answers stays its answer when more input follows, and what it leaves is the
end of what it was given. -/
structure Steady (scanner : Scanner Symbol Fault Value) : Prop where
  got : ∀ input more value rest, scanner input = .got value rest → scanner (input ++ more) = .got value (rest ++ more)
  bad : ∀ input more fault, scanner input = .bad fault → scanner (input ++ more) = .bad fault
  suffix : ∀ input value rest, scanner input = .got value rest → rest <:+ input

theorem steady_pure (value : Value) : Steady (pure value : Scanner Symbol Fault Value) where
  got := by
    intro input more value' rest scanned
    cases scanned
    rfl
  bad := by
    intro input more fault scanned
    cases scanned
  suffix := by
    intro input value' rest scanned
    cases scanned
    exact suffix_refl _

theorem steady_fail (fault : Fault) : Steady (fail fault : Scanner Symbol Fault Value) where
  got := by
    intro input more value rest scanned
    cases scanned
  bad := by
    intro input more fault' scanned
    exact scanned
  suffix := by
    intro input value rest scanned
    cases scanned

theorem steady_next : Steady (next : Scanner Symbol Fault Symbol) where
  got := by
    intro input more value rest scanned
    cases input with
    | nil => cases scanned
    | cons symbol input =>
      cases scanned
      rfl
  bad := by
    intro input more fault scanned
    cases input with
    | nil | cons => cases scanned
  suffix := by
    intro input value rest scanned
    cases input with
    | nil => cases scanned
    | cons symbol input =>
      cases scanned
      exact suffix_cons _ _

theorem steady_peek : Steady (peek : Scanner Symbol Fault Symbol) where
  got := by
    intro input more value rest scanned
    cases input with
    | nil => cases scanned
    | cons symbol input =>
      cases scanned
      rfl
  bad := by
    intro input more fault scanned
    cases input with
    | nil | cons => cases scanned
  suffix := by
    intro input value rest scanned
    cases input with
    | nil => cases scanned
    | cons symbol input =>
      cases scanned
      exact suffix_refl _

theorem span_got {belongs : Symbol → Bool} {input rest run : List Symbol}
    (scanned : (span belongs : Scanner Symbol Fault (List Symbol)) input = .got run rest) :
    ∃ stop after, rest = stop :: after ∧ belongs stop = false ∧ input = run ++ rest ∧
      ∀ symbol ∈ run, belongs symbol = true := by
  unfold span at scanned
  split at scanned
  · cases scanned
  rename_i stop after dropped
  cases scanned
  have whole := takeWhile_append_dropWhile (p := belongs) (l := input)
  refine ⟨stop, after, rfl, ?_, ?_, ?_⟩
  · have head := head_dropWhile_not belongs (l := input) (by rw [dropped]; exact cons_ne_nil _ _)
    simpa [dropped] using head
  · rw [← dropped, whole]
  intro symbol among
  exact mem_takeWhile_imp among

theorem steady_span (belongs : Symbol → Bool) : Steady (span belongs : Scanner Symbol Fault (List Symbol)) where
  got := by
    intro input more run rest scanned
    obtain ⟨stop, after, rfl, ends, rfl, all⟩ := span_got scanned
    rw [append_assoc]
    exact span_run all ends
  bad := by
    intro input more fault scanned
    unfold span at scanned
    split at scanned <;> cases scanned
  suffix := by
    intro input run rest scanned
    obtain ⟨_, _, _, _, rfl, _⟩ := span_got scanned
    exact suffix_append run rest

theorem bind_scanned {first : Scanner Symbol Fault Value} {later : Value → Scanner Symbol Fault Next}
    {input rest : List Symbol} {value : Next} (scanned : (first >>= later) input = .got value rest) :
    ∃ middle between, first input = .got middle between ∧ later middle between = .got value rest := by
  rw [bind_apply] at scanned
  cases outcome : first input with
  | short | bad => rw [outcome] at scanned; cases scanned
  | got middle between =>
    rw [outcome] at scanned
    exact ⟨middle, between, rfl, scanned⟩

theorem steady_bind {first : Scanner Symbol Fault Value} {then_ : Value → Scanner Symbol Fault Next}
    (steady : Steady first) (further : ∀ value, Steady (then_ value)) : Steady (first >>= then_) where
  got := by
    intro input more value rest scanned
    obtain ⟨middle, between, outcome, scanned⟩ := bind_scanned scanned
    rw [bind_got (steady.got input more middle between outcome)]
    exact (further middle).got between more value rest scanned
  bad := by
    intro input more fault scanned
    rw [bind_apply] at scanned
    cases outcome : first input with
    | short => rw [outcome] at scanned; cases scanned
    | bad fault' =>
      rw [outcome] at scanned
      cases scanned
      rw [bind_apply, steady.bad input more fault outcome]
      rfl
    | got middle between =>
      rw [outcome] at scanned
      rw [bind_got (steady.got input more middle between outcome)]
      exact (further middle).bad between more fault scanned
  suffix := by
    intro input value rest scanned
    obtain ⟨middle, between, outcome, scanned⟩ := bind_scanned scanned
    exact ((further middle).suffix between value rest scanned).trans (steady.suffix input middle between outcome)

variable {yes no : Scanner Symbol Fault Value}

theorem steady_ite {condition : Prop} [Decidable condition] (first : Steady yes)
    (second : Steady no) : Steady (if condition then yes else no) := by
  split
  · exact first
  · exact second

structure SteadyAt (scanner : Scanner Symbol Fault Value) (input : List Symbol) : Prop where
  got : ∀ more value rest, scanner input = .got value rest → scanner (input ++ more) = .got value (rest ++ more)
  bad : ∀ more fault, scanner input = .bad fault → scanner (input ++ more) = .bad fault
  suffix : ∀ value rest, scanner input = .got value rest → rest <:+ input

variable {scanner : Scanner Symbol Fault Value}

theorem steady_of_inputs (all : ∀ input, SteadyAt scanner input) : Steady scanner where
  got input := (all input).got
  bad input := (all input).bad
  suffix input := (all input).suffix

theorem steady_at_rest {other : Scanner Symbol Fault Value} {input rest : List Symbol}
    (goesOn : ∀ more, scanner (input ++ more) = other (rest ++ more)) (suffix : rest <:+ input)
    (steady : SteadyAt other rest) : SteadyAt scanner input := by
  have now : scanner input = other rest := by
    have none_ := goesOn []
    rwa [append_nil, append_nil] at none_
  constructor
  · intro more value rest' scanned
    rw [goesOn]
    exact steady.got more value rest' (now ▸ scanned)
  · intro more fault scanned
    rw [goesOn]
    exact steady.bad more fault (now ▸ scanned)
  intro value rest' scanned
  exact (steady.suffix value rest' (now ▸ scanned)).trans suffix

theorem steady_at_short {input : List Symbol} (now : scanner input = .short) : SteadyAt scanner input := by
  constructor
  · intro more value rest scanned
    rw [now] at scanned
    cases scanned
  · intro more fault scanned
    rw [now] at scanned
    cases scanned
  intro value rest scanned
  rw [now] at scanned
  cases scanned

theorem steady_at_bad {input : List Symbol} {fault : Fault}
    (always : ∀ more, scanner (input ++ more) = .bad fault) : SteadyAt scanner input := by
  have now : scanner input = .bad fault := by
    have none_ := always []
    rwa [append_nil] at none_
  constructor
  · intro more value rest scanned
    rw [now] at scanned
    cases scanned
  · intro more fault' scanned
    rw [now] at scanned
    cases scanned
    exact always more
  intro value rest scanned
  rw [now] at scanned
  cases scanned

theorem Steady.steadyAt (steady : Steady scanner) (input : List Symbol) : SteadyAt scanner input where
  got := steady.got input
  bad := steady.bad input
  suffix := steady.suffix input

theorem guard_scanned {condition : Prop} [Decidable condition] {fault : Fault} {later : Scanner Symbol Fault Value}
    {input rest : List Symbol} {value : Value}
    (scanned : (if condition then fail fault else later) input = .got value rest) :
    ¬condition ∧ later input = .got value rest := by
  by_cases holds : condition
  · rw [if_pos holds] at scanned
    cases scanned
  rw [if_neg holds] at scanned
  exact ⟨holds, scanned⟩

theorem peek_scanned {input rest : List Symbol} {symbol : Symbol}
    (scanned : (peek : Scanner Symbol Fault Symbol) input = .got symbol rest) : rest = input := by
  cases input with
  | nil => cases scanned
  | cons first tail =>
    cases scanned
    rfl

def Consumes (scanner : Scanner Symbol Fault Value) : Prop :=
  ∀ input value rest, scanner input = .got value rest → rest.length < input.length

theorem consumes_fail (fault : Fault) : Consumes (fail fault : Scanner Symbol Fault Value) := by
  intro input value rest scanned
  cases scanned

theorem consumes_ite {condition : Prop} [Decidable condition]
    (first : Consumes yes) (second : Consumes no) : Consumes (if condition then yes else no) := by
  split
  · exact first
  · exact second

theorem consumes_next_bind {then_ : Symbol → Scanner Symbol Fault Next} (further : ∀ value, Steady (then_ value)) :
    Consumes (next >>= then_) := by
  intro input value rest scanned
  cases input with
  | nil => cases scanned
  | cons symbol input =>
    have left := ((further symbol).suffix input value rest scanned).length_le
    rw [length_cons]
    omega

theorem consumes_bind {first : Scanner Symbol Fault Value} {then_ : Value → Scanner Symbol Fault Next}
    (steady : Steady first) (further : ∀ value, Consumes (then_ value)) : Consumes (first >>= then_) := by
  intro input value rest scanned
  obtain ⟨middle, between, outcome, scanned⟩ := bind_scanned scanned
  have shorter := further middle between value rest scanned
  have left := (steady.suffix input middle between outcome).length_le
  omega

theorem consumes_bind_first {first : Scanner Symbol Fault Value} {then_ : Value → Scanner Symbol Fault Next}
    (consumes : Consumes first) (further : ∀ value, Steady (then_ value)) : Consumes (first >>= then_) := by
  intro input value rest scanned
  obtain ⟨middle, between, outcome, scanned⟩ := bind_scanned scanned
  have shorter := consumes input middle between outcome
  have left := ((further middle).suffix between value rest scanned).length_le
  omega

theorem steady_short (steady : Steady scanner) {input rest : List Symbol}
    {value : Value} (scanned : scanner input = .got value rest) {n : Nat} (fewer : n + rest.length < input.length) :
    scanner (input.take n) = .short := by
  cases outcome : scanner (input.take n) with
  | short => rfl
  | bad fault =>
    have wrong := steady.bad _ (input.drop n) fault outcome
    rw [take_append_drop, scanned] at wrong
    cases wrong
  | got value' rest' =>
    have again := steady.got _ (input.drop n) value' rest' outcome
    rw [take_append_drop, scanned] at again
    cases again
    rw [length_append, length_drop] at fewer
    omega

def count (n : Nat) : Scanner Symbol Fault (List Symbol) := fun input =>
  if n ≤ input.length then .got (input.take n) (input.drop n) else .short

theorem count_got {n : Nat} {input value rest : List Symbol}
    (scanned : (count n : Scanner Symbol Fault (List Symbol)) input = .got value rest) :
    value.length = n ∧ input = value ++ rest := by
  unfold count at scanned
  split at scanned
  next enough =>
    cases scanned
    exact ⟨length_take_of_le enough, (take_append_drop n input).symm⟩
  · cases scanned

theorem steady_count (n : Nat) : Steady (count n : Scanner Symbol Fault (List Symbol)) where
  got := by
    intro input more value rest scanned
    obtain ⟨length, rfl⟩ := count_got scanned
    unfold count
    rw [if_pos (by simp only [length_append]; omega), append_assoc, take_left' length, drop_left' length]
  bad := by
    intro input more fault scanned
    unfold count at scanned
    split at scanned <;> cases scanned
  suffix := by
    intro input value rest scanned
    obtain ⟨-, rfl⟩ := count_got scanned
    exact suffix_append value rest

/-- A scanner that looks no further than what it takes: it would have read the same had the input ended there. -/
def Tight (scanner : Scanner Symbol Fault Value) : Prop :=
  ∀ input more value rest, scanner (input ++ more) = .got value (rest ++ more) → scanner input = .got value rest

theorem tight_pure (value : Value) : Tight (pure value : Scanner Symbol Fault Value) := by
  intro input more value' rest scanned
  simp only [pure_apply, Scan.got.injEq, append_cancel_right_eq] at scanned
  rw [pure_apply, scanned.1, scanned.2]

theorem tight_fail (fault : Fault) : Tight (fail fault : Scanner Symbol Fault Value) := by
  intro input more value rest scanned
  cases scanned

theorem tight_ite {condition : Prop} [Decidable condition] (first : Tight yes)
    (second : Tight no) : Tight (if condition then yes else no) := by
  split
  · exact first
  · exact second

theorem tight_next : Tight (next : Scanner Symbol Fault Symbol) := by
  intro input more value rest scanned
  cases input with
  | nil =>
    cases more with
    | nil => cases scanned
    | cons symbol more =>
      simp only [nil_append, next_cons, Scan.got.injEq] at scanned
      have length := congrArg List.length scanned.2
      rw [length_append, length_cons] at length
      omega
  | cons symbol input =>
    simp only [cons_append, next_cons, Scan.got.injEq, append_cancel_right_eq] at scanned
    rw [next_cons, scanned.1, scanned.2]

theorem tight_count (n : Nat) : Tight (count n : Scanner Symbol Fault (List Symbol)) := by
  intro input more value rest scanned
  obtain ⟨length, whole⟩ := count_got scanned
  rw [← append_assoc, append_cancel_right_eq] at whole
  subst whole
  unfold count
  rw [if_pos (by rw [length_append]; omega), take_left' length, drop_left' length]

theorem tight_bind {first : Scanner Symbol Fault Value} {then_ : Value → Scanner Symbol Fault Next} (tight : Tight first)
    (further : ∀ value, Steady (then_ value)) (later : ∀ value, Tight (then_ value)) : Tight (first >>= then_) := by
  intro input more value rest scanned
  obtain ⟨middle, between, read, scanned⟩ := bind_scanned scanned
  -- What the first reads ends before `more`, since what the second leaves still holds all of it.
  obtain ⟨kept, ends⟩ := (further middle).suffix _ _ _ scanned
  have same : between = (kept ++ rest) ++ more := by rw [← ends, append_assoc]
  subst same
  rw [bind_got (tight input more middle _ read)]
  exact later middle _ more value rest scanned

theorem tight_peek_bind {then_ : Symbol → Scanner Symbol Fault Next} (later : ∀ value, Tight (then_ value))
    (consumes : ∀ value, Consumes (then_ value)) : Tight (peek >>= then_) := by
  intro input more value rest scanned
  cases input with
  | nil =>
    obtain ⟨symbol, between, peeked, scanned⟩ := bind_scanned scanned
    rw [peek_scanned peeked] at scanned
    have shorter := consumes symbol _ _ _ scanned
    rw [length_append, nil_append] at shorter
    omega
  | cons symbol input =>
    rw [bind_apply, cons_append, peek_cons] at scanned
    rw [bind_apply, peek_cons]
    exact later symbol (symbol :: input) more value rest scanned

structure Settled (scanner : Scanner Symbol Fault Value) : Prop where
  steady : Steady scanner
  tight : Tight scanner

theorem settled_pure (value : Value) : Settled (pure value : Scanner Symbol Fault Value) :=
  ⟨steady_pure value, tight_pure value⟩

theorem settled_fail (fault : Fault) : Settled (fail fault : Scanner Symbol Fault Value) :=
  ⟨steady_fail fault, tight_fail fault⟩

theorem settled_count (n : Nat) : Settled (count n : Scanner Symbol Fault (List Symbol)) :=
  ⟨steady_count n, tight_count n⟩

theorem settled_ite {condition : Prop} [Decidable condition] (first : Settled yes)
    (second : Settled no) : Settled (if condition then yes else no) :=
  ⟨steady_ite first.steady second.steady, tight_ite first.tight second.tight⟩

theorem settled_bind {first : Scanner Symbol Fault Value} {then_ : Value → Scanner Symbol Fault Next}
    (settled : Settled first) (further : ∀ value, Settled (then_ value)) : Settled (first >>= then_) :=
  ⟨steady_bind settled.steady fun value => (further value).steady,
    tight_bind settled.tight (fun value => (further value).steady) fun value => (further value).tight⟩

theorem settled_peek_bind {then_ : Symbol → Scanner Symbol Fault Next} (further : ∀ value, Settled (then_ value))
    (consumes : ∀ value, Consumes (then_ value)) : Settled (peek >>= then_) :=
  ⟨steady_bind steady_peek fun value => (further value).steady,
    tight_peek_bind (fun value => (further value).tight) consumes⟩

def Onward (scanner : Scanner Symbol Fault Value) : Prop :=
  ∀ input value rest, scanner input = .got value rest → rest <:+ input

theorem onward_of_settled (settled : Settled scanner) : Onward scanner :=
  settled.steady.suffix

theorem onward_pure (value : Value) : Onward (pure value : Scanner Symbol Fault Value) :=
  onward_of_settled (settled_pure value)

theorem onward_fail (fault : Fault) : Onward (fail fault : Scanner Symbol Fault Value) :=
  onward_of_settled (settled_fail fault)

theorem onward_count (n : Nat) : Onward (count n : Scanner Symbol Fault (List Symbol)) :=
  onward_of_settled (settled_count n)

theorem onward_ite {condition : Prop} [Decidable condition] (first : Onward yes)
    (second : Onward no) : Onward (if condition then yes else no) := by
  split
  · exact first
  · exact second

theorem onward_bind {first : Scanner Symbol Fault Value} {then_ : Value → Scanner Symbol Fault Next} (onward : Onward first)
    (further : ∀ value, Onward (then_ value)) : Onward (first >>= then_) := by
  intro input value rest scanned
  obtain ⟨middle, between, read, scanned⟩ := bind_scanned scanned
  exact (further middle _ _ _ scanned).trans (onward _ _ _ read)

def Yields (fact : Value → Prop) (scanner : Scanner Symbol Fault Value) : Prop :=
  ∀ input value rest, scanner input = .got value rest → fact value

theorem yields_pure {fact : Value → Prop} {value : Value} (holds : fact value) :
    Yields fact (pure value : Scanner Symbol Fault Value) := by
  intro input value' rest scanned
  cases scanned
  exact holds

theorem yields_fail (fact : Value → Prop) (fault : Fault) : Yields fact (fail fault : Scanner Symbol Fault Value) := by
  intro input value rest scanned
  cases scanned

theorem yields_ite {fact : Value → Prop} {condition : Prop} [Decidable condition]
    (first : Yields fact yes) (second : Yields fact no) : Yields fact (if condition then yes else no) := by
  split
  · exact first
  · exact second

theorem yields_bind {fact : Next → Prop} {first : Scanner Symbol Fault Value} {then_ : Value → Scanner Symbol Fault Next}
    (further : ∀ value, Yields fact (then_ value)) : Yields fact (first >>= then_) := by
  intro input value rest scanned
  obtain ⟨middle, between, -, scanned⟩ := bind_scanned scanned
  exact further middle _ _ _ scanned

section Driving

variable {State : Type} (step : State → Scanner Symbol Fault State)

/-- The steps the input holds, up to `turns` of them: the state at a fault, or the state and what is left. -/
def drive : Nat → State → List Symbol → Except State (State × List Symbol)
  | 0, state, input => .ok (state, input)
  | _ + 1, state, [] => .ok (state, [])
  | turns + 1, state, symbol :: input =>
    match step state (symbol :: input) with
    | .bad _ => .error state
    | .short => .ok (state, symbol :: input)
    | .got next rest => drive turns next rest

def driveAll (state : State) (input : List Symbol) : Except State (State × List Symbol) :=
  drive step input.length state input

variable {step} (consumes : ∀ state, Consumes (step state))

include consumes

theorem drive_enough {turns turns' : Nat} {state : State} {input : List Symbol} (enough : input.length ≤ turns)
    (enough' : input.length ≤ turns') : drive step turns state input = drive step turns' state input := by
  induction turns generalizing turns' state input with
  | zero =>
    have nothing := length_eq_zero_iff.mp (Nat.le_zero.mp enough)
    subst nothing
    cases turns' with
    | zero => rfl
    | succ turns' => rfl
  | succ turns ih =>
    cases input with
    | nil =>
      cases turns' with
      | zero => rfl
      | succ turns' => rfl
    | cons symbol input =>
      rw [length_cons] at enough enough'
      obtain ⟨turns', rfl⟩ : ∃ less, turns' = less + 1 := ⟨turns' - 1, by omega⟩
      rw [drive, drive]
      cases stepped : step state (symbol :: input) with
      | short => rfl
      | bad fault => rfl
      | got next rest =>
        have shorter := consumes state _ _ _ stepped
        rw [length_cons] at shorter
        exact ih (by omega) (by omega)

theorem drive_all_got {state next : State} {input rest : List Symbol} (stepped : step state input = .got next rest) :
    driveAll step state input = driveAll step next rest := by
  have shorter := consumes state _ _ _ stepped
  cases input with
  | nil => simp at shorter
  | cons symbol input =>
    unfold driveAll
    rw [length_cons, drive, stepped]
    rw [length_cons] at shorter
    exact drive_enough consumes (by omega) (le_refl _)

omit consumes in
theorem drive_all_nil (state : State) : driveAll step state [] = .ok (state, []) := rfl

omit consumes in
theorem drive_all_short {state : State} {input : List Symbol} (stepped : step state input = .short) :
    driveAll step state input = .ok (state, input) := by
  cases input with
  | nil => rfl
  | cons symbol input =>
    unfold driveAll
    rw [length_cons, drive, stepped]

omit consumes in
theorem drive_all_bad {state : State} {input : List Symbol} {fault : Fault} (some : input ≠ [])
    (stepped : step state input = .bad fault) : driveAll step state input = .error state := by
  cases input with
  | nil => exact absurd rfl some
  | cons symbol input =>
    unfold driveAll
    rw [length_cons, drive, stepped]

theorem drive_all_induction {motive : State → List Symbol → Prop} (none_ : ∀ state, motive state [])
    (bad : ∀ state input fault, input ≠ [] → step state input = .bad fault → motive state input)
    (short : ∀ state input, input ≠ [] → step state input = .short → motive state input)
    (got : ∀ state input next rest, step state input = .got next rest → motive next rest → motive state input)
    (state : State) (input : List Symbol) : motive state input := by
  induction size : input.length using Nat.strong_induction_on generalizing state input with
  | _ length ih =>
    by_cases nothing : input = []
    · subst nothing
      exact none_ state
    · cases stepped : step state input with
      | short => exact short state input nothing stepped
      | bad fault => exact bad state input fault nothing stepped
      | got next rest =>
        have shorter := consumes state _ _ _ stepped
        exact got state input next rest stepped (ih rest.length (size ▸ shorter) next rest rfl)

theorem drive_all_append (steady : ∀ state, Steady (step state)) (state : State) (input more : List Symbol) :
    driveAll step state (input ++ more) = match driveAll step state input with
      | .error last => .error last
      | .ok (last, rest) => driveAll step last (rest ++ more) := by
  induction state, input using drive_all_induction consumes with
  | none_ state => rw [drive_all_nil]
  | bad state input fault some stepped =>
    rw [drive_all_bad some stepped,
      drive_all_bad (fun nothing => some (append_eq_nil_iff.mp nothing).1) ((steady state).bad _ more _ stepped)]
  | short state input some stepped => rw [drive_all_short stepped]
  | got state input next rest stepped ih =>
    rw [drive_all_got consumes stepped, drive_all_got consumes ((steady state).got _ more _ _ stepped), ih]

theorem drive_all_rest (steady : ∀ state, Steady (step state)) {state last : State} {input rest : List Symbol}
    (drove : driveAll step state input = .ok (last, rest)) : rest <:+ input ∧ (rest = [] ∨ step last rest = .short) := by
  induction state, input using drive_all_induction consumes with
  | none_ state =>
    cases drove
    exact ⟨suffix_refl _, .inl rfl⟩
  | bad state input fault some stepped =>
    rw [drive_all_bad some stepped] at drove
    cases drove
  | short state input some stepped =>
    rw [drive_all_short stepped] at drove
    cases drove
    exact ⟨suffix_refl _, .inr stepped⟩
  | got state input next rest' stepped ih =>
    rw [drive_all_got consumes stepped] at drove
    obtain ⟨suffix, waits⟩ := ih drove
    exact ⟨suffix.trans ((steady state).suffix _ _ _ stepped), waits⟩

theorem drive_all_complete (settled : ∀ state, Settled (step state)) {state last : State} {input rest : List Symbol}
    (drove : driveAll step state input = .ok (last, rest)) :
    ∃ complete, input = complete ++ rest ∧ driveAll step state complete = .ok (last, []) := by
  induction state, input using drive_all_induction consumes with
  | none_ state =>
    cases drove
    exact ⟨[], rfl, rfl⟩
  | bad state input fault some stepped =>
    rw [drive_all_bad some stepped] at drove
    cases drove
  | short state input some stepped =>
    rw [drive_all_short stepped] at drove
    cases drove
    exact ⟨[], rfl, rfl⟩
  | got state input next rest' stepped ih =>
    rw [drive_all_got consumes stepped] at drove
    obtain ⟨complete, whole, reached⟩ := ih drove
    obtain ⟨front, joined⟩ := (settled state).steady.suffix _ _ _ stepped
    subst joined whole
    rw [← append_assoc] at stepped
    refine ⟨front ++ complete, (append_assoc _ _ _).symm, ?_⟩
    rw [drive_all_got consumes ((settled state).tight _ _ _ _ stepped), reached]

end Driving

end ProvenC.Lib.Scanning
