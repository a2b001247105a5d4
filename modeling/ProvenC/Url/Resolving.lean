import ProvenC.Url.Decoding
import ProvenC.Text.Conversion

/-!
# Resolving segments in place

At the start of every round the memory holds a directory, written, and the segments that are still
to be read. A round goes up, passes over its segment or writes it after the directory.
-/

namespace ProvenC.Url.Resolving

open Bytes Lib.Cells Lib.Segments Lib.Unicode Url.Path Url.Decoding

def directoryOf (names : List (List Byte)) : List Byte := slash :: names.flatMap fun name => name ++ [slash]

variable (names : List (List Byte))
include names

theorem written_directory : writtenPath names true = directoryOf names := by
  unfold writtenPath pathOf directoryOf
  rw [if_pos rfl, intercalate_last, List.append_nil]

theorem written_name (name : List Byte) : writtenPath (names ++ [name]) false = directoryOf names ++ name := by
  unfold writtenPath pathOf directoryOf
  rw [if_neg nofun, List.append_nil, intercalate_last]
  rfl

theorem directory_of_snoc (name : List Byte) : directoryOf (names ++ [name]) = directoryOf names ++ name ++ [slash] := by
  unfold directoryOf
  rw [List.flatMap_append, List.flatMap_singleton, List.append_assoc]
  rfl

theorem directory_of_end : ∃ front, directoryOf names = front ++ [slash] := by
  rcases List.eq_nil_or_concat names with rfl | ⟨front, name, rfl⟩
  · exact ⟨[], rfl⟩
  · exact ⟨_, by rw [List.concat_eq_append, directory_of_snoc]⟩

omit names

theorem scan_slash_from (cells : Memory) (n left r : Nat) :
    r ≤ scanSlash cells n left r ∧ (r ≤ n → scanSlash cells n left r ≤ n) := by
  induction left generalizing r with
  | zero => exact ⟨le_refl r, id⟩
  | succ left ih =>
    rw [scanSlash]
    by_cases goes : r < n ∧ cells r ≠ slash
    · rw [if_pos goes]
      obtain ⟨low, high⟩ := ih (r + 1)
      exact ⟨by omega, fun _ => high (by omega)⟩
    rw [if_neg goes]
    exact ⟨le_refl r, id⟩

theorem scan_slash_segment {cells : Memory} {n r : Nat} {segment rest : List Byte} (within : r ≤ n)
    (here : range cells r (n - r) = segment ++ rest) (unmarked : slash ∉ segment)
    (stops : rest = [] ∨ ∃ later, rest = slash :: later) : scanSlash cells n (n - r) r = r + segment.length := by
  induction segment generalizing r with
  | nil =>
    rw [List.nil_append] at here
    rcases stops with rfl | ⟨later, rfl⟩
    · have length := congrArg List.length here
      rw [range_length, List.length_nil] at length
      rw [length]
      rfl
    · cases remaining : n - r with
      | zero =>
        rw [remaining] at here
        cases here
      | succ left =>
        rw [remaining, range_succ] at here
        rw [scanSlash, if_neg fun goes => goes.2 (List.cons.inj here).1]
        rfl
  | cons c segment ih =>
    cases remaining : n - r with
    | zero =>
      rw [remaining] at here
      cases here
    | succ left =>
      rw [remaining, range_succ, List.cons_append] at here
      obtain ⟨first, later⟩ := List.cons.inj here
      have plain : cells r ≠ slash := by
        intro isSlash
        exact unmarked (List.mem_cons.mpr (.inl (isSlash.symm.trans first)))
      have fewer : n - (r + 1) = left := by omega
      have laterHere : range cells (r + 1) (n - (r + 1)) = segment ++ rest := by
        rw [fewer]
        exact later
      have further := ih (by omega) laterHere fun among => unmarked (List.mem_cons_of_mem c among)
      rw [fewer] at further
      rw [scanSlash, if_pos ⟨by omega, plain⟩, further, List.length_cons]
      omega

theorem step_back_le (cells : Memory) (w : Nat) : stepBack cells w ≤ w := by
  induction w with
  | zero => exact le_refl 0
  | succ w ih =>
    rw [stepBack]
    by_cases plain : cells w ≠ slash
    · rw [if_pos plain]
      omega
    · rw [if_neg plain]

theorem range_at {cells : Memory} {place n : Nat} (front : List Byte) {back : List Byte} {c : Byte}
    (here : range cells place n = front ++ c :: back) : cells (place + front.length) = c := by
  have length := congrArg List.length here
  rw [range_length, List.length_append, List.length_cons] at length
  have at_ : (range cells place n)[front.length]? = some c := by
    rw [here, List.getElem?_append_right (le_refl _), tsub_self]
    rfl
  unfold range at at_
  rw [List.getElem?_ofFn, dif_pos (by omega)] at at_
  exact Option.some.inj at_

theorem step_back_name {cells : Memory} {w : Nat} {names : List (List Byte)} {name : List Byte}
    (front : range cells 0 w = directoryOf (names ++ [name])) (unmarked : slash ∉ name) :
    stepBack cells (w - 1) = (directoryOf names).length := by
  rw [directory_of_snoc] at front
  have length := congrArg List.length front
  rw [range_length, List.length_append, List.length_append, List.length_singleton] at length
  obtain ⟨body, ended⟩ := directory_of_end names
  have bodyLength := congrArg List.length ended
  rw [List.length_append, List.length_singleton] at bodyLength
  have back : ∀ k ≤ name.length, stepBack cells ((directoryOf names).length + k) = (directoryOf names).length := by
    intro k
    induction k with
    | zero =>
      intro _
      have isSlash : cells body.length = slash := by
        have here : range cells 0 w = body ++ slash :: (name ++ [slash]) := by
          rw [front, ended, List.append_assoc, List.append_assoc]
          rfl
        have found := range_at _ here
        rwa [zero_add] at found
      rw [add_zero, bodyLength, stepBack, if_neg (not_not.mpr isSlash)]
    | succ k ih =>
      intro within
      have inside : k < name.length := within
      have plain : cells ((directoryOf names).length + k) ≠ slash := by
        have here : range cells 0 w = (directoryOf names ++ name.take k) ++ name[k] :: (name.drop (k + 1) ++ [slash]) := by
          rw [front, List.append_assoc, List.append_assoc (directoryOf names)]
          congr 1
          rw [← List.cons_append, ← List.append_assoc, ← List.drop_eq_getElem_cons inside, List.take_append_drop]
        have found := range_at _ here
        rw [zero_add, List.length_append, List.length_take, Nat.min_eq_left (le_of_lt inside)] at found
        rw [found]
        exact fun isSlash => unmarked (isSlash ▸ List.getElem_mem inside)
      rw [← add_assoc, stepBack, if_pos plain]
      exact ih (by omega)
  have last := back name.length (le_refl _)
  have same : w - 1 = (directoryOf names).length + name.length := by omega
  rw [same, last]

def roundOf (n : Nat) (st : Resolving) (segment : List Byte) : ResolveTurn :=
  let r := st.r + segment.length
  let go (w : Nat) (cells : Memory) : ResolveTurn :=
    if r = n then .done { w := w, r := r, cells := cells } else .on { w := w, r := r + 1, cells := cells }
  if isUp segment then
    if st.w ≤ 1 then .above else go (stepBack st.cells (st.w - 1)) st.cells
  else if isSkipped segment then go st.w st.cells
  else
    let cells := copiedUp st.cells st.w st.r segment.length
    if r = n then go (st.w + segment.length) cells
    else go (st.w + segment.length + 1) (stored cells (st.w + segment.length) slash)

theorem resolve_turn_eq {n : Nat} {st : Resolving} {segment rest : List Byte} (within : st.r ≤ n)
    (here : range st.cells st.r (n - st.r) = segment ++ rest) (unmarked : slash ∉ segment)
    (stops : rest = [] ∨ ∃ later, rest = slash :: later) : resolveTurn n st = roundOf n st segment := by
  have scanned := scan_slash_segment within here unmarked stops
  have up : (segment.length = 2 ∧ st.cells st.r = dot ∧ st.cells (st.r + 1) = dot) ↔ isUp segment = true := by
    unfold isUp
    rw [decide_eq_true_iff]
    constructor
    · intro found
      obtain ⟨two, first, second⟩ := found
      obtain ⟨a, b, rfl⟩ := List.length_eq_two.mp two
      have one := range_at [] here
      have other := range_at [a] here
      rw [List.length_nil, add_zero] at one
      rw [List.length_singleton] at other
      rw [← one, ← other, first, second]
    intro same
    subst same
    have one := range_at [] here
    have other := range_at [dot] here
    exact ⟨rfl, one, other⟩
  have skip : ¬ (0 < segment.length ∧ ¬ (segment.length = 1 ∧ st.cells st.r = dot)) ↔ isSkipped segment = true := by
    unfold isSkipped
    rw [decide_eq_true_iff, not_and, not_not, List.length_pos_iff]
    constructor
    · intro found
      by_cases empty : segment = []
      · exact .inl empty
      obtain ⟨single, isDot⟩ := found empty
      obtain ⟨a, rfl⟩ := List.length_eq_one_iff.mp single
      have one := range_at [] here
      rw [List.length_nil, add_zero] at one
      rw [← one, isDot]
      exact .inr rfl
    intro found some_
    rcases found with empty | same
    · exact absurd empty some_
    subst same
    exact ⟨rfl, range_at [] here⟩
  unfold resolveTurn roundOf
  dsimp only
  rw [scanned, Nat.add_sub_cancel_left]
  refine if_congr up rfl ?_
  by_cases skipped : isSkipped segment = true
  · rw [if_neg (skip.mpr skipped), if_pos skipped]
  · rw [if_pos (not_not.mp (mt skip.mp skipped)), if_neg skipped]

structure Standing (n : Nat) (st : Resolving) (stack segments : List (List Byte)) : Prop where
  behind : st.w ≤ st.r
  within : st.r ≤ n
  rest : range st.cells st.r (n - st.r) = List.intercalate [slash] segments
  front : range st.cells 0 st.w = directoryOf stack.reverse
  unmarked : ∀ segment ∈ segments, slash ∉ segment
  names : ∀ name ∈ stack, slash ∉ name

variable {n : Nat} {st : Resolving} {stack : List (List Byte)} {segment : List Byte} {later : List (List Byte)}

variable (standing : Standing n st stack (segment :: later))
include standing

theorem standing_ends :
    (∃ rest, range st.cells st.r (n - st.r) = segment ++ rest ∧ (rest = [] ∨ ∃ more, rest = slash :: more)) ∧
    (later = [] → st.r + segment.length = n) ∧ (later ≠ [] → st.r + segment.length < n ∧
      range st.cells (st.r + segment.length + 1) (n - (st.r + segment.length + 1)) = List.intercalate [slash] later) := by
  have rest := standing.rest
  have within := standing.within
  have length := congrArg List.length rest
  rw [range_length] at length
  by_cases last : later = []
  · subst last
    rw [List.intercalate_singleton] at rest length
    refine ⟨⟨[], by rw [rest, List.append_nil], .inl rfl⟩, fun _ => by omega, fun more => absurd rfl more⟩
  rw [intercalate_cons_mark slash segment last] at rest length
  rw [List.length_append, List.length_cons] at length
  refine ⟨⟨_, rest, .inr ⟨_, rfl⟩⟩, fun none_ => absurd none_ last, fun _ => ⟨by omega, ?_⟩⟩
  have dropped := @range_drop _ st.cells st.r (n - st.r) (segment.length + 1) (by omega)
  rw [rest, ← List.drop_drop, List.drop_left, List.drop_succ_cons, List.drop_zero] at dropped
  have place : st.r + segment.length + 1 = st.r + (segment.length + 1) := rfl
  have count : n - (st.r + (segment.length + 1)) = n - st.r - (segment.length + 1) := by omega
  rw [place, count, dropped]

theorem root_only : st.w ≤ 1 ↔ stack = [] := by
  have length := congrArg List.length standing.front
  rw [range_length] at length
  cases stack with
  | nil =>
    rw [length]
    exact iff_of_true (le_refl 1) rfl
  | cons name below =>
    apply iff_of_false _ nofun
    rw [List.reverse_cons, directory_of_snoc, List.length_append, List.length_append, List.length_singleton] at length
    have positive : 0 < (directoryOf below.reverse).length := Nat.succ_pos _
    omega

theorem round_arrives {next : List (List Byte)} (step : stackStep isSkipped isUp stack segment = some next) : ∃ w cells,
      roundOf n st segment =
        (if st.r + segment.length = n then .done { w := w, r := st.r + segment.length, cells := cells }
        else .on { w := w, r := st.r + segment.length + 1, cells := cells }) ∧
      (st.r + segment.length = n → w ≤ n ∧
        range cells 0 w = writtenPath next.reverse (isSkipped segment || isUp segment)) ∧
      (st.r + segment.length ≠ n → w ≤ st.r + segment.length + 1 ∧ range cells 0 w = directoryOf next.reverse ∧
        ∀ j, st.r + segment.length < j → cells j = st.cells j) ∧
      (∀ name ∈ next, slash ∉ name) := by
  have behind := standing.behind
  have within := standing.within
  obtain ⟨⟨rest, here, _⟩, _, _⟩ := standing_ends standing
  have unmarked := standing.unmarked segment List.mem_cons_self
  unfold stackStep at step
  unfold roundOf
  cases up : isUp segment with
  | true =>
    rw [up, if_pos rfl] at step
    rw [if_pos rfl]
    cases stack with
    | nil => cases step
    | cons name below =>
      cases step
      have notRoot : ¬ st.w ≤ 1 := fun low => nomatch (root_only standing).mp low
      have front := standing.front
      rw [List.reverse_cons] at front
      have back := step_back_name front (standing.names name List.mem_cons_self)
      have lower := step_back_le st.cells (st.w - 1)
      have kept : range st.cells 0 (stepBack st.cells (st.w - 1)) = directoryOf next.reverse := by
        rw [directory_of_snoc, List.append_assoc] at front
        have parts := @range_append _ st.cells 0 (stepBack st.cells (st.w - 1)) (st.w - stepBack st.cells (st.w - 1))
        have all : stepBack st.cells (st.w - 1) + (st.w - stepBack st.cells (st.w - 1)) = st.w := by omega
        rw [all, front] at parts
        have long : (directoryOf next.reverse).length =
            (range st.cells 0 (stepBack st.cells (st.w - 1))).length := by rw [range_length, back]
        exact (List.append_inj_left parts long).symm
      refine ⟨_, _, if_neg notRoot, ?_, ?_, fun other among => standing.names other (List.mem_cons_of_mem name among)⟩
      · intro _
        rw [Bool.or_true, written_directory]
        exact ⟨by omega, kept⟩
      intro _
      exact ⟨by omega, kept, fun _ _ => rfl⟩
  | false =>
    rw [up, if_neg nofun] at step
    rw [if_neg nofun]
    cases skip : isSkipped segment with
    | true =>
      rw [skip, if_pos rfl] at step
      cases step
      rw [if_pos rfl]
      refine ⟨_, _, rfl, ?_, ?_, standing.names⟩
      · intro _
        rw [Bool.true_or, written_directory]
        exact ⟨by omega, standing.front⟩
      intro _
      exact ⟨by omega, standing.front, fun _ _ => rfl⟩
    | false =>
      rw [skip, if_neg nofun] at step
      cases step
      rw [if_neg nofun]
      have piece : range st.cells st.r segment.length = segment := by
        have length := congrArg List.length here
        rw [range_length, List.length_append] at length
        have parts := @range_append _ st.cells st.r segment.length (n - st.r - segment.length)
        have all : segment.length + (n - st.r - segment.length) = n - st.r := by omega
        rw [all, here] at parts
        exact (List.append_inj_left parts (by rw [range_length])).symm
      have named : ∀ name ∈ segment :: stack, slash ∉ name := List.forall_mem_cons.mpr ⟨unmarked, standing.names⟩
      have copied := @copied_up_below _ st.cells st.w st.r segment.length behind
      by_cases last : st.r + segment.length = n
      · rw [if_pos last]
        refine ⟨_, _, rfl, ?_, fun more => absurd last more, named⟩
        intro _
        rw [copied, range_moved, standing.front, piece, List.reverse_cons, Bool.or_false, written_name]
        exact ⟨by omega, rfl⟩
      rw [if_neg last]
      refine ⟨_, _, rfl, fun ended => absurd ended last, ?_, named⟩
      intro _
      rw [copied, range_stored, range_moved, standing.front, piece, List.reverse_cons, directory_of_snoc]
      refine ⟨by omega, rfl, ?_⟩
      intro j beyond
      rw [stored, Function.update_of_ne (by omega), moved_outside (by omega)]

theorem resolve_turn_standing : match stackStep isSkipped isUp stack segment with
    | none => resolveTurn n st = .above
    | some next =>
      if later = [] then
        ∃ done, resolveTurn n st = .done done ∧ done.w ≤ n ∧
          range done.cells 0 done.w = writtenPath next.reverse (isSkipped segment || isUp segment)
      else ∃ after, resolveTurn n st = .on after ∧ Standing n after next later := by
  obtain ⟨⟨rest, here, stops⟩, whenLast, whenMore⟩ := standing_ends standing
  have unmarked := standing.unmarked segment List.mem_cons_self
  have turned := resolve_turn_eq standing.within here unmarked stops
  cases step : stackStep isSkipped isUp stack segment with
  | none =>
    obtain ⟨up, empty⟩ := stack_step_none.mp step
    dsimp only
    rw [turned, roundOf, if_pos up, if_pos ((root_only standing).mpr empty)]
  | some next =>
    obtain ⟨w, cells, round, ended, more, named⟩ := round_arrives standing step
    dsimp only
    rw [turned, round]
    by_cases last : later = []
    · have atEnd := whenLast last
      obtain ⟨low, written⟩ := ended atEnd
      rw [if_pos last, if_pos atEnd]
      exact ⟨_, rfl, low, written⟩
    obtain ⟨inside, laterHere⟩ := whenMore last
    have notEnd : st.r + segment.length ≠ n := ne_of_lt inside
    obtain ⟨low, written, unread⟩ := more notEnd
    rw [if_neg last, if_neg notEnd]
    refine ⟨_, rfl, low, inside, ?_, written, fun other among => standing.unmarked other (List.mem_cons_of_mem segment among),
      named⟩
    rw [← laterHere]
    apply range_eq
    intro i _
    exact unread _ (by dsimp only; omega)

theorem resolve_loop_standing {left : Nat} (enough : later.length < left) : match evalPath stack (segment :: later) with
    | none => resolveLoop n left st = .error .permission
    | some result =>
      ∃ done, resolveLoop n left st = .ok done ∧ done.w ≤ n ∧
        range done.cells 0 done.w = writtenPath result.reverse (asksDirectory (segment :: later)) := by
  induction later generalizing st stack segment left with
  | nil =>
    obtain ⟨left, rfl⟩ := Nat.exists_eq_add_of_lt enough
    have round := resolve_turn_standing standing
    rw [List.length_nil, zero_add, resolveLoop]
    unfold evalPath stackEval
    cases step : stackStep isSkipped isUp stack segment with
    | none =>
      rw [step] at round
      dsimp only [Option.bind_none] at round ⊢
      rw [round]
    | some next =>
      rw [step] at round
      dsimp only [Option.bind_some, stackEval] at round ⊢
      rw [if_pos rfl] at round
      obtain ⟨done, turned, low, written⟩ := round
      rw [turned]
      exact ⟨done, rfl, low, written⟩
  | cons following later ih =>
    obtain ⟨left, rfl⟩ := Nat.exists_eq_add_of_lt enough
    have round := resolve_turn_standing standing
    rw [List.length_cons] at enough ⊢
    have fuel : later.length + 1 + left + 1 = (later.length + 1 + left) + 1 := rfl
    rw [fuel, resolveLoop]
    unfold evalPath
    rw [stackEval]
    cases step : stackStep isSkipped isUp stack segment with
    | none =>
      rw [step] at round
      dsimp only [Option.bind_none] at round ⊢
      rw [round]
    | some next =>
      rw [step] at round
      dsimp only [Option.bind_some] at round ⊢
      rw [if_neg (List.cons_ne_nil _ _)] at round
      obtain ⟨after, turned, onward⟩ := round
      rw [turned]
      have fewer : later.length < later.length + 1 + left := by omega
      exact ih onward fewer

omit standing

def Rounds (n : Nat) : Resolving → Resolving → Prop :=
  Relation.ReflTransGen fun st next => resolveTurn n st = .on next ∨ resolveTurn n st = .done next

theorem resolve_turn_behind {next : Resolving} (behind : st.w ≤ st.r)
    (turned : resolveTurn n st = .on next ∨ resolveTurn n st = .done next) :
    next.w ≤ next.r ∧ ∀ j, next.r ≤ j → next.cells j = st.cells j := by
  obtain ⟨low, _⟩ := scan_slash_from st.cells n (n - st.r) st.r
  have steps := step_back_le st.cells (st.w - 1)
  unfold resolveTurn at turned
  dsimp only at turned
  generalize scanSlash st.cells n (n - st.r) st.r = r at low turned
  have both : ∀ w (cells : Memory), w ≤ r + 1 → (r = n → w ≤ r) → (∀ j, r < j → cells j = st.cells j) →
      (r = n → ∀ j, r ≤ j → cells j = st.cells j) →
      ((if r = n then ResolveTurn.done { w := w, r := r, cells := cells } else .on { w := w, r := r + 1, cells := cells }) = .on next ∨
        (if r = n then ResolveTurn.done { w := w, r := r, cells := cells } else .on { w := w, r := r + 1, cells := cells }) =
          .done next) →
      next.w ≤ next.r ∧ ∀ j, next.r ≤ j → next.cells j = st.cells j := by
    intro w cells high ended unread unreadEnd result
    by_cases last : r = n
    · rw [if_pos last] at result
      rcases result with wrong | same
      · cases wrong
      · cases same
        exact ⟨ended last, unreadEnd last⟩
    rw [if_neg last] at result
    rcases result with same | wrong
    · cases same
      exact ⟨high, unread⟩
    · cases wrong
  by_cases up : r - st.r = 2 ∧ st.cells st.r = dot ∧ st.cells (st.r + 1) = dot
  · rw [if_pos up] at turned
    by_cases root : st.w ≤ 1
    · rw [if_pos root] at turned
      rcases turned with wrong | wrong
      · cases wrong
      · cases wrong
    rw [if_neg root] at turned
    exact both _ _ (by omega) (fun _ => by omega) (fun _ _ => rfl) (fun _ _ _ => rfl) turned
  rw [if_neg up] at turned
  by_cases name : 0 < r - st.r ∧ ¬ (r - st.r = 1 ∧ st.cells st.r = dot)
  · rw [if_pos name, copied_up_below behind] at turned
    by_cases last : r = n
    · rw [if_pos last] at turned
      refine both _ _ (by omega) (fun _ => by omega) ?_ ?_ turned
      · intro j beyond
        exact moved_outside (by omega)
      intro _ j beyond
      exact moved_outside (by omega)
    rw [if_neg last] at turned
    refine both _ _ (by omega) (fun ended => absurd ended last) ?_ (fun ended => absurd ended last) turned
    intro j beyond
    rw [stored, Function.update_of_ne (by omega), moved_outside (by omega)]
  rw [if_neg name] at turned
  exact both _ _ (by omega) (fun _ => by omega) (fun _ _ => rfl) (fun _ _ _ => rfl) turned

theorem resolve_never_passes {start st : Resolving} (behind : start.w ≤ start.r) (rounds : Rounds n start st) :
    st.w ≤ st.r := by
  induction rounds with
  | refl => exact behind
  | tail _ step ih => exact (resolve_turn_behind ih step).1

end ProvenC.Url.Resolving
