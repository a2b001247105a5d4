import ProvenC.Jobs.Following

/-!
# Who is counted

The admission word counts the submitters in progress beside its closed bit, a group's counter the
jobs that are counted and not taken back or finished, and a worker that looks a last time has seen
the submissions closed and none in progress.
-/

namespace ProvenC.Jobs.Counting

open Lib.Ring (Queue Phase Side Sound Fits)
open Jobs.Queue Jobs.Words Jobs.Watching Jobs.Following

variable {Thread : Type*} [DecidableEq Thread] {bits capacity : ℕ}

def admittedAt : Place → Bool
  | .submitting _ .positioning | .submitting _ (.comparing _) | .submitting _ (.claiming _)
  | .submitting _ (.writing _) | .submitting _ (.publishing _) | .submitting _ .posting
  | .submitting _ .leaving | .submitting _ .refusing => true
  | _ => false

def owedAt : Place → Option ℕ
  | .submitting job .entering | .submitting job (.admitting _) | .submitting job .positioning
  | .submitting job (.comparing _) | .submitting job (.claiming _) | .submitting job .refusing => job.group
  | .submitting _ (.uncounting group) => some group
  | _ => none

def lastAt : Place → Bool
  | .executing .last _ | .handing | .gone => true
  | _ => false

def leftAt : Place → Bool
  | .handing | .gone => true
  | _ => false

theorem step_others (sys : Sys Thread) {thread other : Thread} (act : Act) (away : other ≠ thread) :
    (step bits sys thread act).1.place other = sys.place other := by
  have moved : ∀ (after : Sys Thread) (place : Place), after.place = sys.place →
      (after.moved thread place).place other = sys.place other := by
    intro after place same
    simp only [Sys.moved, Function.update_of_ne away, same]
  unfold step
  split
  · unfold callStep
    split <;> (try split) <;> first | exact moved _ _ rfl | rfl
  · unfold submitStep
    split <;> (try split) <;> (try split) <;> (try split) <;> exact moved _ _ rfl
  · unfold executeStep
    split <;> (try split) <;> exact moved _ _ rfl
  · exact moved _ _ rfl
  · unfold awaitStep
    split <;> (try split) <;> first | exact moved _ _ rfl | rfl
  · unfold wakeStep
    split <;> exact moved _ _ rfl
  · unfold parkStep
    split <;> first | exact moved _ _ rfl | rfl
  · unfold askStep
    split <;> exact moved _ _ rfl
  · unfold pollStep
    split <;> exact moved _ _ rfl
  · exact moved _ _ rfl
  · rfl

def AdmissionEffect (bits : ℕ) (before after : ℕ) (was now : Bool) : Event → Prop
  | .admitted =>
    before &&& signBit bits = 0 ∧ before &&& activeMask bits ≠ activeMask bits ∧ after = up bits before ∧
      was = false ∧ now = true
  | .accepted _ | .departed => after = down bits before ∧ was = true ∧ now = false
  | _ => (after = before ∨ after = before ||| signBit bits) ∧ now = was

theorem after_refusal_admitted (job : Job) : admittedAt (afterRefusal job) = false := by
  unfold afterRefusal
  split <;> rfl

theorem after_execute_admitted (caller : Caller) (found : Bool) : admittedAt (afterExecute caller found) = false := by
  cases caller <;> cases found <;> rfl

theorem moved_place (sys : Sys Thread) (thread : Thread) (place : Place) : (sys.moved thread place).place thread = place := by
  simp only [Sys.moved, Function.update_self]

theorem admission_submit (sys : Sys Thread) (thread : Thread) {job : Job} {line : Submit}
    (here : sys.place thread = .submitting job line) (weak : Bool) :
    AdmissionEffect bits sys.admissionState (submitStep bits sys thread weak job line).1.admissionState
      (admittedAt (sys.place thread)) (admittedAt ((submitStep bits sys thread weak job line).1.place thread))
      (submitStep bits sys thread weak job line).2 := by
  rw [here]
  cases line with
  | admitting state =>
    unfold submitStep
    dsimp only
    split
    · rw [moved_place, after_refusal_admitted]
      exact ⟨.inl rfl, rfl⟩
    rename_i open_
    split
    · rw [moved_place, after_refusal_admitted]
      exact ⟨.inl rfl, rfl⟩
    rename_i room
    split
    next swapped =>
      rw [moved_place]
      rw [← swapped.2] at open_ room ⊢
      exact ⟨not_not.mp open_, room, rfl, rfl, rfl⟩
    rw [moved_place]
    exact ⟨.inl rfl, rfl⟩
  | comparing | claiming =>
    unfold submitStep
    dsimp only
    split <;> rw [moved_place] <;> exact ⟨.inl rfl, rfl⟩
  | leaving =>
    unfold submitStep
    rw [moved_place]
    exact ⟨rfl, rfl, rfl⟩
  | refusing =>
    unfold submitStep
    rw [moved_place, after_refusal_admitted]
    exact ⟨rfl, rfl, rfl⟩
  | counting | entering | positioning | writing | publishing | posting | uncounting =>
    unfold submitStep
    rw [moved_place]
    exact ⟨.inl rfl, rfl⟩

theorem admission_execute (sys : Sys Thread) (thread : Thread) {caller : Caller} {line : Execute}
    (here : sys.place thread = .executing caller line) (weak : Bool) :
    AdmissionEffect bits sys.admissionState (executeStep bits sys thread weak caller line).1.admissionState
      (admittedAt (sys.place thread)) (admittedAt ((executeStep bits sys thread weak caller line).1.place thread))
      (executeStep bits sys thread weak caller line).2 := by
  rw [here]
  cases line with
  | matching pos =>
    unfold executeStep
    dsimp only
    split <;> rw [moved_place]
    · exact ⟨.inl rfl, rfl⟩
    · rw [after_execute_admitted]
      exact ⟨.inl rfl, rfl⟩
    · exact ⟨.inl rfl, rfl⟩
  | taking pos =>
    unfold executeStep
    dsimp only
    split <;> rw [moved_place] <;> exact ⟨.inl rfl, rfl⟩
  | finishing job =>
    unfold executeStep
    dsimp only
    split <;> rw [moved_place, after_execute_admitted] <;> exact ⟨.inl rfl, rfl⟩
  | seeking | reading | releasing | running =>
    unfold executeStep
    rw [moved_place]
    exact ⟨.inl rfl, rfl⟩

theorem admission_step (sys : Sys Thread) (thread : Thread) (act : Act) :
    AdmissionEffect bits sys.admissionState (step bits sys thread act).1.admissionState
      (admittedAt (sys.place thread)) (admittedAt ((step bits sys thread act).1.place thread))
      (step bits sys thread act).2 := by
  unfold step
  split <;> rename_i here
  · unfold callStep
    split
    · split <;> rw [moved_place, here] <;> exact ⟨.inl rfl, rfl⟩
    all_goals first | (rw [moved_place, here]; exact ⟨.inl rfl, rfl⟩) | exact ⟨.inl rfl, rfl⟩
  · exact admission_submit sys thread here _
  · exact admission_execute sys thread here _
  · unfold closeStep
    rw [moved_place, here]
    exact ⟨.inr rfl, rfl⟩
  · unfold awaitStep
    split
    · exact ⟨.inl rfl, rfl⟩
    · split <;> rw [moved_place, here] <;> exact ⟨.inl rfl, rfl⟩
  · unfold wakeStep
    split <;> rw [moved_place, here] <;> exact ⟨.inl rfl, rfl⟩
  · unfold parkStep
    split
    · rw [moved_place, here]
      exact ⟨.inl rfl, rfl⟩
    · exact ⟨.inl rfl, rfl⟩
  · unfold askStep
    split <;> rw [moved_place, here] <;> exact ⟨.inl rfl, rfl⟩
  · unfold pollStep
    split <;> rw [moved_place, here] <;> exact ⟨.inl rfl, rfl⟩
  · rw [moved_place, here]
    exact ⟨.inl rfl, rfl⟩
  · exact ⟨.inl rfl, rfl⟩

structure Admits (bits : ℕ) (watched : Watched Thread) : Prop where
  small : watched.sys.admissionState < 2 ^ bits
  count : watched.sys.admissionState % signBit bits = watched.ledger.admitted.card
  within : ∀ thread, thread ∈ watched.ledger.admitted ↔ admittedAt (watched.sys.place thread) = true

def Closed (bits : ℕ) (sys : Sys Thread) : Prop := signBit bits ≤ sys.admissionState

theorem word_parts (some : 0 < bits) {word : ℕ} (small : word < 2 ^ bits) :
    word < signBit bits ∧ word % signBit bits = word ∨
      signBit bits ≤ word ∧ word % signBit bits = word - signBit bits := by
  have range := range_eq some
  by_cases lower : word < signBit bits
  · exact .inl ⟨lower, Nat.mod_eq_of_lt lower⟩
  rw [Nat.mod_eq_sub_mod (le_of_not_gt lower), Nat.mod_eq_of_lt (by omega)]
  exact .inr ⟨le_of_not_gt lower, rfl⟩

theorem word_or (some : 0 < bits) {word : ℕ} (small : word < 2 ^ bits) :
    (word ||| signBit bits) < 2 ^ bits ∧ (word ||| signBit bits) % signBit bits = word % signBit bits := by
  have range := range_eq some
  rw [or_signBit some small]
  split
  · exact ⟨small, rfl⟩
  · exact ⟨by omega, Nat.add_mod_right word _⟩

theorem word_up (some : 0 < bits) {word : ℕ} (small : word < 2 ^ bits) (open_ : word &&& signBit bits = 0)
    (room : word &&& activeMask bits ≠ activeMask bits) :
    up bits word = word + 1 ∧ up bits word < 2 ^ bits ∧ up bits word % signBit bits = word % signBit bits + 1 := by
  have range := range_eq some
  have half := @signBit_pos bits
  have lower : word < signBit bits := by
    by_contra upper
    exact (signed_iff some small).mpr (le_of_not_gt upper) open_
  rw [and_activeMask, Nat.mod_eq_of_lt lower] at room
  have below : word + 1 < signBit bits := by
    have mask : activeMask bits = signBit bits - 1 := rfl
    omega
  have value : up bits word = word + 1 := Nat.mod_eq_of_lt (by omega)
  rw [value, Nat.mod_eq_of_lt lower, Nat.mod_eq_of_lt below]
  exact ⟨rfl, by omega, rfl⟩

theorem word_down (some : 0 < bits) {word : ℕ} (small : word < 2 ^ bits) (counted : 0 < word % signBit bits) :
    down bits word < 2 ^ bits ∧ down bits word % signBit bits = word % signBit bits - 1 ∧
      (signBit bits ≤ down bits word ↔ signBit bits ≤ word) := by
  have range := range_eq some
  have half := @signBit_pos bits
  have value : down bits word = word - 1 := by
    have positive : 0 < word := lt_of_lt_of_le counted (Nat.mod_le _ _)
    have moved : word + 2 ^ bits - 1 = word - 1 + 2 ^ bits := by omega
    rw [down, moved, Nat.add_mod_right, Nat.mod_eq_of_lt (by omega)]
  rw [value]
  obtain ⟨lower, rest⟩ | ⟨upper, rest⟩ := word_parts some small
  · rw [rest, Nat.mod_eq_of_lt (by omega)]
    omega
  have above : signBit bits ≤ word - 1 := by omega
  rw [rest, Nat.mod_eq_sub_mod above, Nat.mod_eq_of_lt (by omega)]
  omega

theorem admits_step (shape : Shape bits capacity) {watched : Watched Thread} (admits : Admits bits watched)
    (move : Thread × Act) : Admits bits (next bits watched move) := by
  obtain ⟨thread, act⟩ := move
  have effect := @admission_step _ _ bits watched.sys thread act
  have others := fun other => @step_others _ _ bits watched.sys thread other act
  have within := admits.within
  rw [next_eq, after]
  generalize step bits watched.sys thread act = result at effect others
  obtain ⟨sys, event⟩ := result
  have same : admittedAt (sys.place thread) = admittedAt (watched.sys.place thread) →
      ∀ other, other ∈ watched.ledger.admitted ↔ admittedAt (sys.place other) = true := by
    intro equal other
    by_cases mine : other = thread
    · rw [mine, equal, within]
    · rw [others other mine, within]
  have plain : (sys.admissionState = watched.sys.admissionState ∨
      sys.admissionState = watched.sys.admissionState ||| signBit bits) →
      sys.admissionState < 2 ^ bits ∧ sys.admissionState % signBit bits = watched.ledger.admitted.card := by
    rintro (equal | closed)
    · rw [equal]
      exact ⟨admits.small, admits.count⟩
    have word := word_or shape.some_bits admits.small
    rw [closed, word.2]
    exact ⟨word.1, admits.count⟩
  have lessened : thread ∈ watched.ledger.admitted → sys.admissionState = down bits watched.sys.admissionState →
      sys.admissionState < 2 ^ bits ∧
        sys.admissionState % signBit bits = (watched.ledger.admitted.erase thread).card := by
    intro mem fell
    have some := Finset.card_pos.mpr ⟨thread, mem⟩
    have word := word_down shape.some_bits admits.small (by rw [admits.count]; exact some)
    rw [fell, word.2.1, Finset.card_erase_of_mem mem, admits.count]
    exact ⟨word.1, rfl⟩
  have erased : admittedAt (sys.place thread) = false →
      ∀ other, other ∈ watched.ledger.admitted.erase thread ↔ admittedAt (sys.place other) = true := by
    intro gone other
    by_cases mine : other = thread
    · rw [mine, gone]
      simp
    rw [others other mine, Finset.mem_erase, within]
    simp [mine]
  cases event with
  | admitted =>
    obtain ⟨open_, room, rose, was, now⟩ := effect
    have out : thread ∉ watched.ledger.admitted := by
      rw [within, was]
      exact Bool.false_ne_true
    have word := word_up shape.some_bits admits.small open_ room
    refine ⟨?_, ?_, ?_⟩
    · exact rose ▸ word.2.1
    · change sys.admissionState % signBit bits = (insert thread watched.ledger.admitted).card
      rw [Finset.card_insert_of_notMem out, ← admits.count]
      exact rose ▸ word.2.2
    intro other
    change other ∈ insert thread watched.ledger.admitted ↔ _
    by_cases mine : other = thread
    · rw [mine]
      simp [now]
    rw [others other mine, Finset.mem_insert, within]
    simp [mine]
  | accepted | departed =>
    obtain ⟨fell, was, now⟩ := effect
    have word := lessened ((within thread).mpr was) fell
    exact ⟨word.1, word.2, erased now⟩
  | quiet | began | counted | aimed | fitted | dropped | claimed | wrote | published | uncounted | sought | spotted
  | took | read | released | finished =>
    exact ⟨(plain effect.1).1, (plain effect.1).2, same effect.2⟩

end ProvenC.Jobs.Counting
