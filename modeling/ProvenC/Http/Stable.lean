import ProvenC.Http.Head

/-!
# A head means the same however much follows it

Everything the head parsers are made of is steady, so an answer other than a wait for more stays
the answer when more bytes follow, and no proper prefix of a head has one.
-/

namespace ProvenC.Http.Stable

open List Bytes Lib.Scanning Http.Head

variable {trailers : Bool} {cap : Nat} {headers : List HttpHeader} {input : List Byte}

theorem fields_step {rest : List Byte} {field : HttpHeader} (line : httpField input = .got (some field) rest) :
    httpFieldsOf trailers cap headers input =
      if trailers && !httpTrailerAllowed field.name then httpFieldsOf trailers cap headers rest
      else if cap ≤ headers.length then .bad .outOfBounds else httpFieldsOf trailers cap (headers ++ [field]) rest := by
  rw [httpFieldsOf]
  split
  all_goals simp_all

theorem fields_end {rest : List Byte}
    (line : httpField input = .got none rest) : httpFieldsOf trailers cap headers input = .got headers rest := by
  rw [httpFieldsOf]
  split
  all_goals simp_all

theorem fields_bad {fault : ProvenErr}
    (line : httpField input = .bad fault) : httpFieldsOf trailers cap headers input = .bad fault := by
  rw [httpFieldsOf]
  split
  all_goals simp_all

theorem fields_short (line : httpField input = .short) : httpFieldsOf trailers cap headers input = .short := by
  rw [httpFieldsOf]
  split
  all_goals simp_all

theorem steady_fields (trailers : Bool) (cap : Nat) (headers : List HttpHeader) :
    Steady (httpFieldsOf trailers cap headers) := by
  have bounded (size : Nat) : ∀ (headers : List HttpHeader) (input : List Byte), input.length ≤ size →
      SteadyAt (httpFieldsOf trailers cap headers) input := by
    induction size with
    | zero =>
      intro headers input fits
      rw [eq_nil_of_length_eq_zero (Nat.le_zero.mp fits)]
      exact steady_at_short (fields_short rfl)
    | succ size ih =>
      intro headers input fits
      cases line : httpField input with
      | short => exact steady_at_short (fields_short line)
      | bad fault => exact steady_at_bad fun more => fields_bad (steady_field.bad input more fault line)
      | got found rest =>
        have suffix := steady_field.suffix input found rest line
        have shorter := field_consumes input found rest line
        have extended (more : List Byte) := steady_field.got input more found rest line
        cases found with
        | none =>
          have done : SteadyAt (pure headers : Reading (List HttpHeader)) rest := (steady_pure headers).steadyAt rest
          apply steady_at_rest _ suffix done
          intro more
          exact fields_end (extended more)
        | some field =>
          by_cases dropped : trailers && !httpTrailerAllowed field.name
          · apply steady_at_rest _ suffix (ih headers rest (by omega))
            intro more
            rw [fields_step (extended more), if_pos dropped]
          by_cases full : cap ≤ headers.length
          · apply steady_at_bad
            intro more
            rw [fields_step (extended more), if_neg dropped, if_pos full]
          apply steady_at_rest _ suffix (ih (headers ++ [field]) rest (by omega))
          intro more
          rw [fields_step (extended more), if_neg dropped, if_neg full]
  exact steady_of_inputs fun input => bounded input.length headers input (le_refl _)

theorem skip_other {first : Byte} (other : first ≠ carriageReturn) (rest : List Byte) :
    skipEmptyLines (first :: rest) = .got () (first :: rest) := by
  rw [skipEmptyLines.eq_def]
  exact if_pos other

theorem skip_wrong {second : Byte} (wrong : second ≠ lineFeed) (rest : List Byte) :
    skipEmptyLines (carriageReturn :: second :: rest) = .bad .invalidFormat := by
  rw [skipEmptyLines.eq_def]
  exact if_pos wrong

theorem skip_line (rest : List Byte) : skipEmptyLines (carriageReturn :: lineFeed :: rest) = skipEmptyLines rest := by
  rw [skipEmptyLines.eq_def]
  rfl

theorem steady_empty_lines : Steady skipEmptyLines := by
  have bounded (size : Nat) : ∀ input : List Byte, input.length ≤ size → SteadyAt skipEmptyLines input := by
    induction size with
    | zero =>
      intro input fits
      rw [eq_nil_of_length_eq_zero (Nat.le_zero.mp fits)]
      exact steady_at_short rfl
    | succ size ih =>
      intro input fits
      match input with
      | [] => exact steady_at_short rfl
      | first :: rest =>
        by_cases starts : first ≠ carriageReturn
        · have done : SteadyAt (pure () : Reading Unit) (first :: rest) := (steady_pure ()).steadyAt _
          apply steady_at_rest _ (suffix_refl _) done
          intro more
          exact skip_other starts (rest ++ more)
        rw [not_not.mp starts]
        match rest with
        | [] => exact steady_at_short rfl
        | second :: others =>
          by_cases wrong : second ≠ lineFeed
          · apply steady_at_bad
            intro more
            exact skip_wrong wrong (others ++ more)
          rw [not_not.mp wrong]
          have suffix : others <:+ carriageReturn :: lineFeed :: others :=
            (suffix_cons _ _).trans (suffix_cons _ _)
          rw [length_cons, length_cons] at fits
          apply steady_at_rest _ suffix (ih others (by omega))
          intro more
          exact skip_line (others ++ more)
  exact steady_of_inputs fun input => bounded input.length input (le_refl _)

theorem steady_status_digits (left status : Nat) : Steady (statusDigits left status) := by
  induction left generalizing status with
  | zero => exact steady_pure status
  | succ left ih =>
    apply steady_bind steady_next
    intro d
    exact steady_ite (steady_fail _) (ih _)

theorem steady_reason_phrase : Steady reasonPhrase := by
  apply steady_bind steady_peek
  intro first
  apply steady_ite _ (steady_pure _)
  apply steady_bind steady_next
  intro _
  exact steady_span _

theorem steady_request (headerCap : Nat) : Steady (requestHead headerCap) := by
  apply steady_bind steady_empty_lines
  intro _
  apply steady_bind (steady_span _)
  intro method
  apply steady_bind steady_next
  intro stop
  apply steady_ite (steady_fail _)
  apply steady_bind (steady_span _)
  intro target
  apply steady_bind steady_next
  intro stop
  apply steady_ite (steady_fail _)
  apply steady_bind steady_version
  intro minor
  apply steady_bind (steady_expect _)
  intro _
  apply steady_bind (steady_fields false headerCap [])
  intro headers
  exact steady_pure _

theorem steady_response (headerCap : Nat) : Steady (responseHead headerCap) := by
  apply steady_bind steady_version
  intro minor
  apply steady_bind (steady_expect _)
  intro _
  apply steady_bind (steady_status_digits 3 0)
  intro status
  apply steady_ite (steady_fail _)
  apply steady_bind steady_reason_phrase
  intro reason
  apply steady_bind (steady_expect _)
  intro _
  apply steady_bind (steady_fields false headerCap [])
  intro headers
  exact steady_pure _

section Parse

variable {Head : Type} {head : Reading Head}

theorem window_extends (data more : List Byte) (limit : Nat) :
    (data ++ more).take limit = data.take limit ++ more.take (limit - data.length) := take_append

/-- What a head parser may do as bytes arrive: its answers other than a wait for more are final,
and before a head is whole it waits. -/
structure StableAt (parse : List Byte → Except ProvenErr (Head × Nat)) (data : List Byte) : Prop where
  ok : ∀ value size, parse data = .ok (value, size) → size ≤ data.length ∧
    (∀ more, parse (data ++ more) = .ok (value, size)) ∧ ∀ n, n < size → parse (data.take n) = .error .needMore
  error : ∀ fault, fault ≠ .needMore → parse data = .error fault → ∀ more, parse (data ++ more) = .error fault

theorem parse_stable (steady : Steady head) (data : List Byte) (maxHeadBytes : Nat) :
    StableAt (fun data => parseHead head data maxHeadBytes) data := by
  constructor
  · intro value size parsed
    unfold parseHead at parsed
    split at parsed
    · cases parsed
    · cases parsed
    rename_i value' rest scanned
    cases parsed
    have left := (steady.suffix _ _ _ scanned).length_le
    have window : (data.take (headLimit maxHeadBytes)).length = min (headLimit maxHeadBytes) data.length :=
      length_take
    refine ⟨by omega, fun more => ?_, fun n fewer => ?_⟩
    · unfold parseHead
      rw [window_extends, steady.got _ _ _ _ scanned]
      simp only [length_append]
      congr 2
      omega
    have inside : (data.take n).take (headLimit maxHeadBytes) = (data.take (headLimit maxHeadBytes)).take n := by
      rw [take_take, take_take, Nat.min_comm]
    unfold parseHead
    rw [inside, steady_short steady scanned (by omega), if_neg]
    rw [length_take]
    omega
  intro fault final parsed more
  unfold parseHead at parsed ⊢
  rw [window_extends]
  split at parsed
  next scanned =>
    cases parsed
    by_cases capped : headLimit maxHeadBytes ≤ data.length
    · have nothing : headLimit maxHeadBytes - data.length = 0 := by omega
      rw [nothing, take_zero, append_nil, scanned, if_pos capped]
      simp only [length_append]
      rw [if_pos (by omega)]
    rw [if_neg capped] at final
    exact absurd rfl final
  next scanned =>
    cases parsed
    rw [steady.bad _ _ _ scanned]
  · cases parsed

end Parse

/-- Both head parsers, for every text, room for fields and limit: a head that is accepted is
accepted with the same fields whatever follows it, no proper prefix of it is answered but with a
wait for more, and a refusal is final. -/
theorem heads_stable (data : List Byte) (headerCap maxHeadBytes : Nat) :
    StableAt (fun data => httpParseRequest data headerCap maxHeadBytes) data ∧
      StableAt (fun data => httpParseResponse data headerCap maxHeadBytes) data :=
  ⟨parse_stable (steady_request headerCap) data maxHeadBytes, parse_stable (steady_response headerCap) data maxHeadBytes⟩

end ProvenC.Http.Stable
