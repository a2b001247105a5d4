import ProvenC.Lib.Lines
import ProvenC.Stream.Reader

/-!
# Filling the read buffer

The text a reader has yet to hand out is what it holds, the byte it looked ahead at, and what the
source has yet to deliver. A fill moves bytes along it and changes nothing else.
-/

namespace ProvenC.Stream.Filling

open Bytes Lib.Cells Stream.Reader

variable {Behind : Type} {inner : Inner Behind}

def held (s : Buffered) : List Byte := range s.buf s.cursor (s.len - s.cursor)

def peeked (s : Buffered) : List Byte := if s.hasPeek then [s.peek] else []

variable (inner) in
def unread (s : Buffered) (source : Source Behind) : List Byte := held s ++ peeked s ++ inner.text source.behind

variable (inner) in
structure Sound (s : Buffered) (source : Source Behind) : Prop where
  positive : 0 < s.size
  low : s.cursor ≤ s.len
  room : s.len ≤ s.size
  within : s.scanned ≤ s.len - s.cursor
  searched : newline ∉ range s.buf s.cursor s.scanned
  peeking : s.hasPeek = true → s.eof = false
  ended : s.eof = true → inner.text source.behind = []
  healthy : s.err = none → source.failures = []
  broken : ∀ e, s.err = some e → e ∈ source.failures

theorem held_length (s : Buffered) : (held s).length = s.len - s.cursor := range_length _ _

theorem searched_of_held {s s' : Buffered} {more : List Byte} (same : s'.scanned = s.scanned)
    (longer : held s' = held s ++ more) (within : s.scanned ≤ s.len - s.cursor)
    (searched : newline ∉ range s.buf s.cursor s.scanned) (within' : s'.scanned ≤ s'.len - s'.cursor) :
    newline ∉ range s'.buf s'.cursor s'.scanned := by
  have front (r : Buffered) (inside : r.scanned ≤ r.len - r.cursor) :
      range r.buf r.cursor r.scanned = (held r).take r.scanned := by
    have parts := @range_append _ r.buf r.cursor r.scanned (r.len - r.cursor - r.scanned)
    rw [Nat.add_sub_cancel' inside] at parts
    have length := @range_length _ r.buf r.cursor r.scanned
    rw [held, parts, List.take_left' length]
  rw [front s' within', same, longer, List.take_append_of_le_length (by rw [held_length]; exact within), ← front s within]
  exact searched

variable {source source' : Source Behind}

theorem inner_read {space : Nat} {r : Read} (some : 0 < space) (ran : innerRead inner source space = (r, source')) :
    Delivers space r (inner.text source.behind) (inner.text source'.behind) ∧
      source'.failures = if r.failed then r.err.toList ++ source.failures else source.failures := by
  obtain ⟨rfl, rfl⟩ := Prod.mk.inj ran
  exact ⟨inner.delivers source.behind space some, rfl⟩

theorem ends_not_failed {r : Read} (ends : r.ends) : ¬r.failed := by
  rintro ⟨some, other⟩
  rcases ends with same | ⟨none, -⟩
  · exact other same
  · exact some none

theorem compact_held {s : Buffered} : held (compact s) = held s ∧ (compact s).cursor = 0 ∧
    (compact s).len = s.len - s.cursor := by
  unfold compact
  split
  · refine ⟨?_, rfl, rfl⟩
    unfold held
    dsimp only
    apply range_eq
    intro i inside
    split
    · exact moved_inside inside
    · omega
  have start : s.cursor = 0 := by omega
  exact ⟨rfl, start, by rw [start]; rfl⟩

theorem compact_fields (s : Buffered) : (compact s).size = s.size ∧ (compact s).eof = s.eof ∧ (compact s).err = s.err ∧
    (compact s).peek = s.peek ∧ (compact s).hasPeek = s.hasPeek ∧ (compact s).scanned = s.scanned := by
  unfold compact
  split
  all_goals exact ⟨rfl, rfl, rfl, rfl, rfl, rfl⟩

variable {s : Buffered}

theorem compact_sound (sound : Sound inner s source) : Sound inner (compact s) source := by
  obtain ⟨same, start, len⟩ := @compact_held s
  obtain ⟨size, eof, err, -, hasPeek, scanned⟩ := compact_fields s
  have room := sound.room
  have within : (compact s).scanned ≤ (compact s).len - (compact s).cursor := by
    rw [scanned, start, len]
    exact sound.within
  constructor
  · rw [size]; exact sound.positive
  · omega
  · rw [size, len]; omega
  · exact within
  · exact searched_of_held scanned (same.trans (List.append_nil _).symm) sound.within sound.searched within
  · rw [hasPeek, eof]; exact sound.peeking
  · rw [eof]; exact sound.ended
  · rw [err]; exact sound.healthy
  · rw [err]; exact sound.broken

theorem reinsert_held (low : s.cursor ≤ s.len) :
    held (reinsert s) = held s ++ peeked s ∧ (reinsert s).hasPeek = false ∧ (reinsert s).cursor = s.cursor := by
  unfold reinsert peeked
  split
  · refine ⟨?_, rfl, rfl⟩
    unfold held
    dsimp only
    rw [show s.len + 1 - s.cursor = s.len - s.cursor + 1 by omega, range_append, range_one,
      show s.cursor + (s.len - s.cursor) = s.len by omega, stored, Function.update_self]
    congr 1
    apply range_eq
    intro i inside
    exact Function.update_of_ne (by omega) _ _
  rename_i none
  exact ⟨(List.append_nil _).symm, Bool.eq_false_iff.mpr none, rfl⟩

theorem reinsert_fields (s : Buffered) : (reinsert s).size = s.size ∧ (reinsert s).eof = s.eof ∧
    (reinsert s).err = s.err ∧ (reinsert s).scanned = s.scanned ∧
    (reinsert s).len = s.len + (if s.hasPeek then 1 else 0) := by
  unfold reinsert
  split
  all_goals exact ⟨rfl, rfl, rfl, rfl, rfl⟩

theorem reinsert_sound (sound : Sound inner s source) (space : s.len < s.size) : Sound inner (reinsert s) source := by
  obtain ⟨longer, none, cursor⟩ := reinsert_held sound.low
  obtain ⟨size, eof, err, scanned, len⟩ := reinsert_fields s
  have low := sound.low
  have inside := sound.within
  have within : (reinsert s).scanned ≤ (reinsert s).len - (reinsert s).cursor := by
    rw [scanned, len, cursor]
    omega
  constructor
  · rw [size]; exact sound.positive
  · rw [cursor, len]; omega
  · rw [size, len]; split <;> omega
  · exact within
  · exact searched_of_held scanned longer inside sound.searched within
  · rw [none]; exact fun never => absurd never Bool.false_ne_true
  · rw [eof]; exact sound.ended
  · rw [err]; exact sound.healthy
  · rw [err]; exact sound.broken

theorem append_held (s : Buffered) (bytes : List Byte) (low : s.cursor ≤ s.len) :
    range (storedAll s.buf s.len bytes) s.cursor (s.len + bytes.length - s.cursor) = held s ++ bytes := by
  rw [show s.len + bytes.length - s.cursor = s.len - s.cursor + bytes.length by omega, range_append,
    show s.cursor + (s.len - s.cursor) = s.len by omega, stored_all_range]
  congr 1
  apply range_eq
  intro i inside
  exact stored_all_outside _ _ _ (.inl (by omega))

/-- What a fill ends with, `more` being the bytes held since. -/
structure Filled (inner : Inner Behind) (s : Buffered) (source : Source Behind) (s' : Buffered)
    (source' : Source Behind) (more : List Byte) : Prop where
  sound : Sound inner s' source'
  size : s'.size = s.size
  scanned : s'.scanned = s.scanned
  held : held s' = held s ++ more
  unread : unread inner s' source' = unread inner s source

def Stopped (s : Buffered) (more : List Byte) : Prop :=
  s.err ≠ none ∨ (more = [] ∧ (s.eof = true ∨ (held s).length = s.size))

theorem receive_filled {s' : Buffered} {reinserted progress : Bool}
    (sound : Sound inner s source) (space : s.len < s.size) (bare : s.hasPeek = false) (healthy : s.err = none)
    (ran : receive inner s source reinserted = (progress, s', source')) :
    ∃ more, Filled inner s source s' source' more ∧ (progress = true → reinserted = true ∨ more ≠ []) ∧
      (progress = false → Stopped s' more ∧ (s'.err = none → reinserted = false)) := by
  have low := sound.low
  have inside := sound.within
  have calm := sound.healthy healthy
  have nothing : peeked s = [] := by
    unfold peeked
    rw [bare]
    rfl
  unfold receive at ran
  cases asked : innerRead inner source (s.size - s.len) with
  | mk r after =>
    obtain ⟨delivers, failures⟩ := inner_read (by omega) asked
    have fits := delivers.within
    rw [asked] at ran
    dsimp only at ran
    split at ran
    next ends =>
      obtain ⟨rfl, rfl, rfl⟩ := ran
      have delivered := delivers.delivered (ends_not_failed ends)
      have ended := delivers.ended ends
      rw [if_neg (ends_not_failed ends), calm] at failures
      have longer := append_held s r.bytes low
      refine ⟨r.bytes, ⟨?_, rfl, rfl, longer, ?_⟩, ?_, ?_⟩
      · have within : s.scanned ≤ s.len + r.bytes.length - s.cursor := by omega
        exact ⟨sound.positive, by dsimp only; omega, by dsimp only; omega, within,
          @searched_of_held s _ r.bytes rfl longer inside sound.searched within,
          fun held => absurd (bare.symm.trans held) Bool.false_ne_true, fun _ => ended, fun _ => failures,
          fun e broken => absurd (healthy.symm.trans broken) (Option.some_ne_none e).symm⟩
      · unfold unread
        rw [delivered, ended, nothing]
        change range _ _ _ ++ peeked s ++ [] = _
        rw [longer, nothing, List.append_nil, List.append_nil, List.append_nil, List.append_nil]
      · intro progress
        rcases Bool.or_eq_true_iff.mp progress with some | again
        · exact .inr (List.length_pos_iff.mp (of_decide_eq_true some))
        · exact .inl again
      intro progress
      obtain ⟨empty, idle⟩ := Bool.or_eq_false_iff.mp progress
      have nothing : r.bytes = [] := by
        by_contra some
        exact of_decide_eq_false empty (List.length_pos_iff.mpr some)
      exact ⟨.inr ⟨nothing, .inl rfl⟩, fun _ => idle⟩
    rename_i more
    split at ran
    next e broke =>
      obtain ⟨rfl, rfl, rfl⟩ := ran
      have failed : r.failed := by
        constructor
        · rw [broke]
          exact Option.some_ne_none e
        intro eof
        exact more (.inl eof)
      have kept := delivers.kept failed
      rw [if_pos failed, broke] at failures
      have same : range (storedAll s.buf s.len r.bytes) s.cursor (s.len - s.cursor) = held s := by
        apply range_eq
        intro i inside
        exact stored_all_outside _ _ _ (.inl (by omega))
      refine ⟨[], ⟨?_, rfl, rfl, ?_, ?_⟩, ?_, ?_⟩
      · refine ⟨sound.positive, low, sound.room, inside, ?_, sound.peeking, ?_, ?_, ?_⟩
        · exact @searched_of_held s { s with buf := storedAll s.buf s.len r.bytes, err := some e } [] rfl
            (same.trans (List.append_nil _).symm) inside sound.searched inside
        · intro eof
          rw [kept]
          exact sound.ended eof
        · intro never
          cases never
        intro e' same
        cases same
        rw [failures]
        exact List.mem_append_left _ (List.mem_singleton.mpr rfl)
      · exact same.trans (List.append_nil _).symm
      · unfold unread
        rw [kept]
        change range _ _ _ ++ peeked s ++ _ = _
        rw [same]
      · intro never
        cases never
      intro _
      exact ⟨.inl (Option.some_ne_none e), fun passes => absurd passes (Option.some_ne_none e)⟩
    rename_i passes
    obtain ⟨rfl, rfl, rfl⟩ := ran
    have alive : ¬r.failed := fun failed => failed.1 passes
    have delivered := delivers.delivered alive
    rw [if_neg alive, calm] at failures
    have longer := append_held s r.bytes low
    have some : r.bytes ≠ [] := by
      intro empty
      exact more (.inr ⟨passes, by rw [empty]; rfl⟩)
    refine ⟨r.bytes, ⟨?_, rfl, rfl, longer, ?_⟩, fun _ => .inr some, ?_⟩
    · have within : s.scanned ≤ s.len + r.bytes.length - s.cursor := by omega
      refine ⟨sound.positive, by dsimp only; omega, by dsimp only; omega, within,
        @searched_of_held s _ r.bytes rfl longer inside sound.searched within,
        fun held => absurd (bare.symm.trans held) Bool.false_ne_true, ?_, fun _ => failures,
        fun e broken => absurd (healthy.symm.trans broken) (Option.some_ne_none e).symm⟩
      intro eof
      have finished := sound.ended eof
      rw [delivered] at finished
      exact (List.append_eq_nil_iff.mp finished).2
    · unfold unread
      rw [delivered, nothing]
      change range _ _ _ ++ peeked s ++ _ = _
      rw [longer, nothing, List.append_nil, List.append_nil, List.append_assoc]
    intro never
    cases never

theorem fill_filled {s' : Buffered} {progress : Bool}
    (sound : Sound inner s source) (ran : bufferedFill inner s source = (progress, s', source')) :
    ∃ more, Filled inner s source s' source' more ∧ (progress = true → more ≠ []) ∧
      (progress = false → Stopped s' more) := by
  have unchanged : Filled inner s source s source [] :=
    ⟨sound, rfl, rfl, (List.append_nil _).symm, rfl⟩
  unfold bufferedFill at ran
  split at ran
  next stopped =>
    obtain ⟨rfl, rfl, rfl⟩ := ran
    refine ⟨[], unchanged, fun never => absurd never Bool.false_ne_true, fun _ => ?_⟩
    rcases stopped with eof | broken
    · exact .inr ⟨rfl, .inl eof⟩
    · exact .inl broken
  rename_i running
  obtain ⟨same, start, len⟩ := @compact_held s
  obtain ⟨size, eof, err, peek, hasPeek, scanned⟩ := compact_fields s
  have sound₁ := compact_sound sound
  have peekedSame : peeked (compact s) = peeked s := by
    unfold peeked
    rw [hasPeek, peek]
  dsimp only at ran
  split at ran
  next full =>
    obtain ⟨rfl, rfl, rfl⟩ := ran
    refine ⟨[], ⟨sound₁, size, scanned, by rw [same, List.append_nil], ?_⟩,
      fun never => absurd never Bool.false_ne_true, fun _ => ?_⟩
    · unfold unread
      rw [same, peekedSame]
    refine .inr ⟨rfl, .inr ?_⟩
    rw [held_length, start, full]
    rfl
  rename_i space
  have room := sound₁.room
  have sound₂ := reinsert_sound sound₁ (by omega)
  obtain ⟨longer, bare, cursor⟩ := reinsert_held sound₁.low
  obtain ⟨size₂, eof₂, err₂, scanned₂, len₂⟩ := reinsert_fields (compact s)
  rw [same, peekedSame] at longer
  have text : unread inner (reinsert (compact s)) source = unread inner s source := by
    unfold unread
    rw [longer]
    unfold peeked
    rw [bare, if_neg Bool.false_ne_true, List.append_nil]
  split at ran
  next enough =>
    obtain ⟨rfl, rfl, rfl⟩ := ran
    refine ⟨peeked s, ⟨sound₂, size₂.trans size, scanned₂.trans scanned, longer, text⟩, fun _ => ?_,
      fun never => absurd never.symm Bool.false_ne_true⟩
    unfold peeked
    rw [if_pos (hasPeek.symm.trans enough.1)]
    exact List.cons_ne_nil _ _
  rename_i wants
  have healthy : (reinsert (compact s)).err = none := by
    rw [err₂, err]
    by_contra broken
    exact running (.inr broken)
  have space₂ : (reinsert (compact s)).len < (reinsert (compact s)).size := by
    have room₂ := sound₂.room
    rcases Nat.lt_or_eq_of_le room₂ with less | equal
    · exact less
    by_cases reinserted : (compact s).hasPeek = true
    · exact absurd ⟨reinserted, equal⟩ wants
    rw [if_neg reinserted] at len₂
    omega
  obtain ⟨more, filled, moves, stops⟩ := receive_filled sound₂ space₂ bare healthy ran
  refine ⟨peeked s ++ more, ⟨filled.sound, ?_, ?_, ?_, ?_⟩, ?_, ?_⟩
  · rw [filled.size, size₂, size]
  · rw [filled.scanned, scanned₂, scanned]
  · rw [filled.held, longer, List.append_assoc]
  · rw [filled.unread, text]
  · intro progress empty
    obtain ⟨front, back⟩ := List.append_eq_nil_iff.mp empty
    rcases moves progress with reinserted | some
    · unfold peeked at front
      rw [if_pos (hasPeek.symm.trans reinserted)] at front
      exact absurd front (List.cons_ne_nil _ _)
    · exact some back
  intro progress
  obtain ⟨stopped, idle⟩ := stops progress
  rcases stopped with broken | ⟨nothing, why⟩
  · exact .inl broken
  by_cases passes : s'.err = none
  · refine .inr ⟨?_, why⟩
    unfold peeked
    rw [if_neg (fun some => Bool.false_ne_true ((idle passes).symm.trans (hasPeek.trans some))), nothing]
    rfl
  · exact .inl passes

end ProvenC.Stream.Filling
