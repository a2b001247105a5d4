import ProvenC.Ws.Decoder
import ProvenC.Text.Prefixes
import ProvenC.Text.Conversion

/-!
# Text in pieces

What was checked of a text is whole characters and the beginning of one, which waits. A piece is
refused exactly where no text begins with what has arrived.
-/

namespace ProvenC.Ws.Text

open List Bytes Lib.Unicode Text.Utf Text.Decoding Text.Conversion Text.Prefixes
  ProvenC.Ws.Decoder

/-- Of the content, whole characters and `held`, the beginning of one. -/
def Waits (held content : List Byte) : Prop :=
  ∃ front, content = front ++ held ∧ Utf8Text front ∧ (held = [] ∨ utf8DecodeSpan held = .more)

variable {held held' content p rest : List Byte} {err : ProvenErr}

theorem waits_nothing : Waits [] [] := ⟨[], rfl, Utf8Text.nil, Or.inl rfl⟩

theorem waits_begin (waits : Waits held content) : Utf8Prefix content := by
  obtain ⟨front, rfl, isText, nothing | more⟩ := waits
  · rw [nothing, append_nil]
    exact prefix_of_text isText
  by_cases nothing : held = []
  · rw [nothing, append_nil]
    exact prefix_of_text isText
  · exact (prefix_after_text isText).mpr (decode_more_begins nothing more).1

theorem waits_text (waits : Waits held content) : Utf8Text content ↔ held = [] := by
  obtain ⟨front, rfl, isText, nothing | more⟩ := waits
  · rw [nothing, append_nil]
    exact ⟨fun _ => rfl, fun _ => isText⟩
  constructor
  · intro whole
    by_contra some_
    exact (decode_more_begins some_ more).2 ((text_after_text isText).mp whole)
  intro nothing
  rw [nothing, append_nil]
  exact isText

theorem waits_after {front : List Byte} (isText : Utf8Text front) (waits : Waits held content) : Waits held (front ++ content) := by
  obtain ⟨whole, rfl, wholeText, ends⟩ := waits
  exact ⟨front ++ whole, (append_assoc _ _ _).symm, utf8_text_append isText wholeText, ends⟩

theorem char_text {cp : Nat} (scalar : IsScalar cp) : Utf8Text (utf8Of cp) := by
  have whole := (@text_after_char cp [] scalar).mpr Utf8Text.nil
  rwa [append_nil] at whole

theorem ascii_char {b : Byte} (small : b.val < 0x80) : Utf8Text [b] := by
  have form : utf8Of b.val = [b] := by
    unfold utf8Of
    rw [if_pos small]
    exact congrArg (· :: []) (Fin.ext (Nat.mod_eq_of_lt b.isLt))
  rw [← form]
  exact char_text (Or.inl (by omega))

theorem text_loop (p : List Byte) : ∀ left pos, pos ≤ p.length → p.length < pos + left →
      (∀ held, wsUtf8Loop p left pos = .ok held → Waits held (p.drop pos)) ∧
      (∀ err, wsUtf8Loop p left pos = .error err → err = .invalidEncoding ∧ ¬ Utf8Prefix (p.drop pos)) := by
  intro left
  induction left with
  | zero => exact fun pos inside enough => absurd enough (by omega)
  | succ left ih =>
    intro pos inside enough
    rw [wsUtf8Loop]
    by_cases more : pos < p.length
    · rw [if_pos more]
      have onward : ∀ {front : List Byte}, Utf8Text front → 0 < front.length → p.drop pos = front ++ p.drop (pos + front.length) →
          (∀ held, wsUtf8Loop p left (pos + front.length) = .ok held → Waits held (p.drop pos)) ∧
          (∀ err, wsUtf8Loop p left (pos + front.length) = .error err → err = .invalidEncoding ∧ ¬ Utf8Prefix (p.drop pos)) := by
        intro front isText positive split
        have sizes := congrArg List.length split
        rw [length_append, length_drop, length_drop] at sizes
        obtain ⟨kept, refused⟩ := ih (pos + front.length) (by omega) (by omega)
        rw [split]
        refine ⟨fun held done => waits_after isText (kept held done), fun err failed => ?_⟩
        obtain ⟨same, nothing⟩ := refused err failed
        exact ⟨same, fun begins => nothing ((prefix_after_text isText).mp begins)⟩
      have here : p.drop pos = p.getD pos 0 :: p.drop (pos + 1) := by
        rw [getD_eq_getElem _ _ more]
        exact drop_eq_getElem_cons more
      by_cases small : (p.getD pos 0).val < 0x80
      · rw [if_pos small]
        exact onward (ascii_char small) Nat.one_pos here
      rw [if_neg small, decode_next_inside more]
      cases decoded : utf8DecodeSpan (p.drop pos) with
      | whole cp len =>
        obtain ⟨scalar, rfl, split⟩ := decode_utf8_whole decoded
        rw [drop_drop] at split
        exact onward (char_text scalar) (utf8_of_positive cp) split
      | more =>
        refine ⟨fun held done => ?_, nofun⟩
        cases done
        exact ⟨[], rfl, Utf8Text.nil, Or.inr decoded⟩
      | bad span =>
        refine ⟨nofun, fun err failed => ?_⟩
        cases failed
        exact ⟨rfl, decode_bad_begins decoded⟩
    rw [if_neg more]
    refine ⟨fun held done => ?_, nofun⟩
    cases done
    rw [drop_eq_nil_of_le (by omega)]
    exact waits_nothing

theorem held_loop (p : List Byte) : ∀ held, held ≠ [] → utf8DecodeSpan held = .more →
      (∀ held' rest, wsUtf8Held held p = .ok (held', rest) →
        (held' = [] → ∃ taken, p = taken ++ rest ∧ Utf8Text (held ++ taken)) ∧
        (held' ≠ [] → held' = held ++ p ∧ utf8DecodeSpan held' = .more)) ∧
      (∀ err, wsUtf8Held held p = .error err → err = .invalidEncoding ∧ ¬ Utf8Prefix (held ++ p)) := by
  induction p with
  | nil =>
    intro held some_ more
    cases held with
    | nil => exact absurd rfl some_
    | cons first held =>
      rw [wsUtf8Held.eq_def]
      refine ⟨fun held' rest done => ?_, nofun⟩
      cases done
      exact ⟨nofun, fun _ => ⟨(append_nil _).symm, more⟩⟩
  | cons b p ih =>
    intro held some_ more
    cases held with
    | nil => exact absurd rfl some_
    | cons first held =>
      rw [wsUtf8Held.eq_def]
      dsimp only
      rw [decode_next_inside (by rw [length_append, length_cons]; omega), drop_zero]
      have split : first :: held ++ b :: p = (first :: held ++ [b]) ++ p := by rw [append_assoc]; rfl
      cases decoded : utf8DecodeSpan (first :: held ++ [b]) with
      | whole cp len =>
        dsimp only
        refine ⟨fun held' rest done => ?_, nofun⟩
        cases done
        refine ⟨fun _ => ⟨[b], rfl, ?_⟩, fun wrong => absurd rfl wrong⟩
        obtain ⟨scalar, rfl, whole⟩ := decode_utf8_whole decoded
        -- a character that ended before the last byte would have been found without it
        cases left : (first :: held ++ [b]).drop (utf8Of cp).length with
        | nil =>
          rw [left, append_nil] at whole
          rw [whole]
          exact char_text scalar
        | cons c later =>
          rw [left] at whole
          have before : first :: held = utf8Of cp ++ (c :: later).dropLast := by
            have cut := congrArg List.dropLast whole
            rw [dropLast_concat, dropLast_append_of_ne_nil (cons_ne_nil _ _)] at cut
            exact cut
          rw [before, decode_utf8_of scalar] at more
          cases more
      | more =>
        dsimp only
        obtain ⟨kept, refused⟩ := ih (first :: held ++ [b]) (by simp) decoded
        refine ⟨fun held' rest done => ?_, fun err failed => ?_⟩
        · obtain ⟨ended, goes⟩ := kept held' rest done
          refine ⟨fun nothing => ?_, fun some_ => ?_⟩
          · obtain ⟨taken, rfl, isText⟩ := ended nothing
            rw [append_assoc] at isText
            exact ⟨b :: taken, rfl, isText⟩
          rw [split]
          exact goes some_
        rw [split]
        exact refused err failed
      | bad span =>
        dsimp only
        refine ⟨nofun, fun err failed => ?_⟩
        cases failed
        refine ⟨rfl, fun begins => ?_⟩
        rw [split] at begins
        exact decode_bad_begins decoded (prefix_shorter begins)

theorem utf8_feed_spec (waits : Waits held content) (p : List Byte) :
    (∀ held', wsUtf8Feed held p = .ok held' → Waits held' (content ++ p)) ∧
    (∀ err, wsUtf8Feed held p = .error err → err = .invalidEncoding ∧ ¬ Utf8Prefix (content ++ p)) := by
  obtain ⟨front, rfl, isText, ends⟩ := waits
  unfold wsUtf8Feed
  by_cases nothing : held = []
  · have none_ : wsUtf8Held [] p = .ok ([], p) := by rw [wsUtf8Held.eq_def]
    rw [nothing, none_, append_nil]
    dsimp only
    rw [if_neg (fun wrong => wrong rfl), Nat.sub_self]
    obtain ⟨kept, refused⟩ := text_loop p (p.length + 1) 0 (Nat.zero_le _) (by omega)
    refine ⟨fun held' done => waits_after isText (kept held' done), fun err failed => ?_⟩
    obtain ⟨same, none'⟩ := refused err failed
    exact ⟨same, fun begins => none' ((prefix_after_text isText).mp begins)⟩
  have more := ends.resolve_left nothing
  obtain ⟨kept, refused⟩ := held_loop p held nothing more
  rw [append_assoc]
  cases looped : wsUtf8Held held p with
  | error e =>
    refine ⟨nofun, fun err failed => ?_⟩
    cases failed
    obtain ⟨same, none'⟩ := refused _ looped
    exact ⟨same, fun begins => none' ((prefix_after_text isText).mp begins)⟩
  | ok done =>
    obtain ⟨held', rest⟩ := done
    obtain ⟨ended, goes⟩ := kept held' rest looped
    dsimp only
    by_cases over_ : held' = []
    · obtain ⟨taken, rfl, whole⟩ := ended over_
      have place : (taken ++ rest).length - rest.length = taken.length := by
        rw [length_append]
        omega
      rw [if_neg (fun wrong => wrong over_), place, ← append_assoc held]
      have later := text_loop (taken ++ rest) ((taken ++ rest).length + 1) taken.length
        (by rw [length_append]; omega) (by omega)
      rw [drop_left] at later
      refine ⟨fun held'' done => waits_after isText (waits_after whole (later.1 held'' done)), fun err failed => ?_⟩
      obtain ⟨same, none'⟩ := later.2 err failed
      exact ⟨same, fun begins => none' ((prefix_after_text whole).mp ((prefix_after_text isText).mp begins))⟩
    obtain ⟨same, waiting⟩ := goes over_
    rw [if_pos over_]
    refine ⟨fun held'' done => ?_, nofun⟩
    cases done
    rw [← same]
    exact ⟨front, rfl, isText, Or.inr waiting⟩

theorem utf8_ok_reads (s : List Byte) :
    ∀ left pos, wsUtf8OkFrom s left pos = true ↔ validateFrom s left pos = .ok () := by
  intro left
  induction left with
  | zero => exact fun _ => ⟨fun _ => rfl, fun _ => rfl⟩
  | succ left ih =>
    intro pos
    rw [wsUtf8OkFrom, validateFrom]
    by_cases more : pos < s.length
    · rw [if_pos more, if_pos more]
      by_cases failed : (utf8DecodeNext s pos).err.isSome = true
      · rw [if_pos failed, if_pos failed]
        exact iff_of_false (fun wrong => by cases wrong) (fun wrong => by cases wrong)
      rw [if_neg failed, if_neg failed]
      exact ih _
    rw [if_neg more, if_neg more]
    exact ⟨fun _ => rfl, fun _ => rfl⟩

theorem utf8_ok_iff (s : List Byte) : wsUtf8Ok s = true ↔ Utf8Text s :=
  (utf8_ok_reads s s.length 0).trans (utf8_validate_text s)

end ProvenC.Ws.Text
