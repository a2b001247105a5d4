import ProvenC.Stream.Filling

/-!
# Lines whatever the chunks

What a call returns is told by the text not handed out yet and the failures the source has reported: how
the source cuts the text into chunks does not show.
-/

namespace ProvenC.Stream.Chunking

open Bytes Lib.Cells Lib.Runs Lib.Lines Stream.Reader Stream.Filling

variable {Behind : Type} {inner : Inner Behind}

inductive Meets (size : Nat) (failures : List ProvenErr) : Call → List Byte → Outcome → List Byte → Prop
  | line (text : List Byte) : text ≠ [] → (firstLine newline carriage text).length ≤ size →
      Meets size failures .readLine text ⟨none, firstLine newline carriage text⟩ (afterLine newline text)
  | tooLong (text : List Byte) : size < (firstLine newline carriage text).length →
      Meets size failures .readLine text ⟨some .outOfBounds, []⟩ text
  | bytes (space : Nat) (bytes rest : List Byte) : bytes ≠ [] → bytes.length ≤ space →
      Meets size failures (.read space) (bytes ++ rest) ⟨none, bytes⟩ rest
  | nothing (text : List Byte) : Meets size failures (.read 0) text ⟨none, []⟩ text
  | ended (c : Call) : failures = [] → Meets size failures c [] ⟨some .eof, []⟩ []
  | broken (c : Call) (text : List Byte) (e : ProvenErr) : e ∈ failures → Meets size failures c text ⟨some e, []⟩ text

inductive Gives (size : Nat) (failures : List ProvenErr) : Call → List Byte → Outcome → List Byte → Prop
  | line (text : List Byte) : text ≠ [] → (content newline text).length ≤ size →
      Gives size failures .readLine text ⟨none, firstLine newline carriage text⟩ (afterLine newline text)
  | tooLong (text : List Byte) : size < (content newline text).length →
      Gives size failures .readLine text ⟨some .outOfBounds, []⟩ text
  | bytes (space : Nat) (bytes rest : List Byte) : bytes ≠ [] → bytes.length ≤ space →
      Gives size failures (.read space) (bytes ++ rest) ⟨none, bytes⟩ rest
  | nothing (text : List Byte) : Gives size failures (.read 0) text ⟨none, []⟩ text
  | ended (c : Call) : failures = [] → Gives size failures c [] ⟨some .eof, []⟩ []
  | broken (c : Call) (text : List Byte) (e : ProvenErr) : e ∈ failures → Gives size failures c text ⟨some e, []⟩ text

def Fits (size : Nat) (text : List Byte) : Prop :=
  ¬∃ line rest, line.length = size ∧ newline ∉ line ∧ text = line ++ carriage :: newline :: rest

theorem mem_chr_first (buf : Nat → Byte) (c : Byte) (place count : Nat) : memChr buf c place count = firstAt buf c place count := by
  induction count generalizing place with
  | zero => rfl
  | succ count ih => exact if_congr Iff.rfl rfl (ih (place + 1))

theorem line_before_stripped (s : Buffered) (i : Nat) :
    lineBefore s i = stripped carriage (range s.buf s.cursor (i - s.cursor)) :=
  line_up_to s.buf s.cursor i

variable {s : Buffered} {source : Source Behind}

theorem held_parted (sound : Sound inner s source) {i : Nat}
    (found : memChr s.buf newline (min (s.cursor + s.scanned) s.len) (s.len - min (s.cursor + s.scanned) s.len) = some i) :
    s.cursor ≤ i ∧ i < s.len ∧ newline ∉ range s.buf s.cursor (i - s.cursor) ∧
      held s = range s.buf s.cursor (i - s.cursor) ++ newline :: range s.buf (i + 1) (s.len - (i + 1)) := by
  have low := sound.low
  have within := sound.within
  rw [Nat.min_eq_left (by omega)] at found
  obtain ⟨above, high, here, plain⟩ := first_at_some (mem_chr_first _ _ _ _ ▸ found)
  have parts := @range_append _ s.buf s.cursor s.scanned (i - (s.cursor + s.scanned))
  rw [show s.scanned + (i - (s.cursor + s.scanned)) = i - s.cursor by omega] at parts
  refine ⟨by omega, by omega, ?_, ?_⟩
  · rw [parts, List.mem_append]
    rintro (there | there)
    · exact sound.searched there
    · exact plain there
  unfold held
  rw [show s.len - s.cursor = i - s.cursor + (s.len - i) by omega, range_append,
    show s.cursor + (i - s.cursor) = i by omega, show s.len - i = s.len - (i + 1) + 1 by omega, range_succ, here]

theorem held_plain (sound : Sound inner s source) (none : memChr s.buf newline (min (s.cursor + s.scanned) s.len)
      (s.len - min (s.cursor + s.scanned) s.len) = none) : newline ∉ held s := by
  have low := sound.low
  have within := sound.within
  rw [Nat.min_eq_left (by omega)] at none
  have parts := @range_append _ s.buf s.cursor s.scanned (s.len - (s.cursor + s.scanned))
  rw [show s.scanned + (s.len - (s.cursor + s.scanned)) = s.len - s.cursor by omega] at parts
  rw [held, parts, List.mem_append]
  rintro (there | there)
  · exact sound.searched there
  · exact first_at_none (mem_chr_first _ _ _ _ ▸ none) there

variable (inner) in
structure Right (c : Call) (s : Buffered) (source : Source Behind) (outcome : Outcome) (s' : Buffered)
    (source' : Source Behind) : Prop where
  gives : Gives s.size source'.failures c (unread inner s source) outcome (unread inner s' source')
  sound : Sound inner s' source'
  size : s'.size = s.size

variable (sound : Sound inner s source)
include sound

theorem moved_sound {cursor : Nat} (within : cursor ≤ s.len) : Sound inner { s with cursor, scanned := 0 } source :=
  ⟨sound.positive, within, sound.room, Nat.zero_le _, List.not_mem_nil, sound.peeking, sound.ended, sound.healthy,
    sound.broken⟩

theorem found_right {i : Nat}
    (found : memChr s.buf newline (min (s.cursor + s.scanned) s.len) (s.len - min (s.cursor + s.scanned) s.len) = some i) :
    Right inner .readLine s source ⟨none, lineBefore s i⟩ { s with cursor := i + 1, scanned := 0 } source := by
  obtain ⟨low, high, plain, parts⟩ := held_parted sound found
  have text : unread inner s source = range s.buf s.cursor (i - s.cursor) ++ newline ::
      unread inner { s with cursor := i + 1, scanned := 0 } source := by
    unfold unread
    rw [parts, List.append_assoc, List.append_assoc, List.cons_append, ← List.append_assoc]
    rfl
  obtain ⟨whole, line, rest⟩ := @line_ended _ _ newline carriage _
    (unread inner { s with cursor := i + 1, scanned := 0 } source) plain
  rw [← text] at whole line rest
  refine ⟨?_, moved_sound sound (by omega), rfl⟩
  have room := sound.room
  rw [line_before_stripped, ← line, ← rest]
  apply Gives.line
  · rw [text]
    exact List.append_ne_nil_of_right_ne_nil _ (List.cons_ne_nil _ _)
  rw [whole, range_length]
  omega

variable {s' : Buffered} {source' : Source Behind}

theorem probe_cases {r : Read} (ran : probe inner s source = (r, s', source')) :
    (r.failed ∧ s' = s ∧ inner.text source'.behind = inner.text source.behind ∧
      source'.failures = r.err.toList ++ source.failures) ∨
    (¬r.failed ∧ r.bytes = [] ∧ peeked s = [] ∧ s.hasPeek = false ∧ inner.text source.behind = [] ∧
      inner.text source'.behind = [] ∧ source'.failures = source.failures ∧ (s' = s ∨ s' = { s with eof := true })) ∨
    ∃ c, ¬r.failed ∧ r.bytes = [c] ∧ peeked s ++ inner.text source.behind = c :: inner.text source'.behind ∧
      source'.failures = source.failures ∧ s' = s ∧ s.eof = false := by
  have calm (bytes : List Byte) : ¬(Read.mk none bytes).failed := fun failed => failed.1 rfl
  unfold probe at ran
  split at ran
  next ahead =>
    obtain ⟨rfl, rfl, rfl⟩ := ran
    refine .inr (.inr ⟨s.peek, calm _, rfl, ?_, rfl, rfl, sound.peeking ahead⟩)
    unfold peeked
    rw [if_pos ahead]
    rfl
  rename_i bare
  have nothing : peeked s = [] := by
    unfold peeked
    rw [if_neg bare]
  have off := Bool.eq_false_iff.mpr bare
  split at ran
  next eof =>
    obtain ⟨rfl, rfl, rfl⟩ := ran
    exact .inr (.inl ⟨calm _, rfl, nothing, off, sound.ended eof, sound.ended eof, rfl, .inl rfl⟩)
  rename_i running
  cases asked : innerRead inner source 1 with
  | mk answer after =>
    obtain ⟨delivers, failures⟩ := inner_read Nat.one_pos asked
    rw [asked] at ran
    dsimp only at ran
    obtain ⟨rfl, both⟩ := Prod.mk.inj ran
    obtain ⟨same, rfl⟩ := Prod.mk.inj both
    by_cases failed : answer.failed
    · rw [if_pos failed] at failures
      rw [if_neg (fun ends => failed.2 ends.1)] at same
      exact .inl ⟨failed, same.symm, delivers.kept failed, failures⟩
    rw [if_neg failed] at failures
    have delivered := delivers.delivered failed
    have within := delivers.within
    cases bytes : answer.bytes with
    | nil =>
      rw [bytes] at delivered
      have ends : answer.ends := by
        by_cases passes : answer.err = none
        · exact .inr ⟨passes, by rw [bytes]; rfl⟩
        by_contra other
        exact failed ⟨passes, fun eof => other (.inl eof)⟩
      have last := delivers.ended ends
      refine .inr (.inl ⟨failed, rfl, nothing, off, delivered.trans last, last, failures, ?_⟩)
      split at same
      · exact .inr same.symm
      · exact .inl same.symm
    | cons c rest =>
      rw [bytes, List.length_cons] at within
      have single : rest = [] := List.eq_nil_of_length_eq_zero (by omega)
      subst single
      rw [bytes] at delivered
      have kept : s' = s := by
        rw [← same, if_neg]
        rintro ⟨-, empty⟩
        rw [bytes] at empty
        exact absurd empty (Nat.succ_ne_zero 0)
      refine .inr (.inr ⟨c, failed, rfl, ?_, failures, kept, Bool.eq_false_iff.mpr running⟩)
      rw [nothing, delivered]
      rfl

variable {outcome : Outcome}

theorem full_right (start : s.cursor = 0) (full : s.len = s.size) (plain : newline ∉ held s)
    (ran : fullBuffer inner s source = (outcome, s', source')) : Right inner .readLine s source outcome s' source' := by
  have whole : held s = range s.buf 0 s.len := by
    unfold held
    rw [start]
    rfl
  have length : (held s).length = s.size := by
    rw [held_length, start, full]
    rfl
  have positive := sound.positive
  have some : held s ≠ [] := by
    intro empty
    rw [empty, List.length_nil] at length
    omega
  unfold fullBuffer at ran
  cases looked : probe inner s source with
  | mk r after =>
    obtain ⟨s₁, source₁⟩ := after
    rw [looked] at ran
    dsimp only at ran
    rcases probe_cases sound looked with
      ⟨failed, rfl, text, failures⟩ | ⟨alive, empty, nothing, bare, before, text, failures, same⟩ |
        ⟨c, alive, bytes, text, failures, rfl, running⟩
    · rw [if_pos failed] at ran
      obtain ⟨rfl, rfl, rfl⟩ := ran
      obtain ⟨e, broke⟩ := Option.ne_none_iff_exists'.mp failed.1
      have there : e ∈ source'.failures := by
        rw [failures, broke]
        exact List.mem_append_left _ (List.mem_singleton.mpr rfl)
      have kept : unread inner { s₁ with err := r.err } source' = unread inner s₁ source := by
        unfold unread
        rw [text]
        rfl
      refine ⟨?_, ⟨positive, sound.low, sound.room, sound.within, sound.searched, sound.peeking, ?_, ?_, ?_⟩, rfl⟩
      · rw [kept, broke]
        exact Gives.broken _ _ e there
      · intro eof
        rw [text]
        exact sound.ended eof
      · intro none
        exact absurd none failed.1
      intro e' same
      cases broke.symm.trans same
      exact there
    · rw [if_neg alive, empty] at ran
      dsimp only at ran
      obtain ⟨rfl, rfl, rfl⟩ := ran
      have all : unread inner s source = held s := by
        unfold unread
        rw [nothing, before, List.append_nil, List.append_nil]
      obtain ⟨content, line, rest⟩ := @line_open _ _ newline carriage _ plain
      have ends : Right inner .readLine s source ⟨none, range s.buf 0 s.len⟩
          { s with eof := true, cursor := s.len, scanned := 0 } source' := by
        refine ⟨?_, ⟨positive, Nat.le_refl _, sound.room, Nat.zero_le _, List.not_mem_nil, ?_, fun _ => text, ?_, ?_⟩, rfl⟩
        · have last : unread inner { s with eof := true, cursor := s.len, scanned := 0 } source' = [] := by
            unfold unread held peeked
            rw [text, bare, Nat.sub_self]
            rfl
          rw [last, all, ← whole, ← rest]
          have met := @Gives.line s.size source'.failures (held s) some (by rw [content]; omega)
          rw [line] at met
          exact met
        · intro ahead
          exact absurd (bare.symm.trans ahead) Bool.false_ne_true
        · rw [failures]
          exact sound.healthy
        rw [failures]
        exact sound.broken
      rcases same with rfl | rfl
      · exact ends
      · exact ends
    rw [if_neg alive, bytes] at ran
    dsimp only at ran
    have all : unread inner s₁ source = held s₁ ++ c :: inner.text source₁.behind := by
      unfold unread
      rw [List.append_assoc, text]
    have quiet : ¬s₁.eof = true := Bool.eq_false_iff.mp running
    split at ran
    next terminated =>
      obtain ⟨rfl, rfl, rfl⟩ := ran
      rw [terminated] at all
      obtain ⟨content, line, rest⟩ := @line_ended _ _ newline carriage _ (inner.text source'.behind) plain
      rw [← all] at content line rest
      have last : unread inner { s₁ with cursor := s₁.len, scanned := 0, hasPeek := false } source' =
          inner.text source'.behind := by
        unfold unread held peeked
        rw [Nat.sub_self]
        rfl
      refine ⟨?_, ⟨positive, Nat.le_refl _, sound.room, Nat.zero_le _, List.not_mem_nil, fun never => ?_,
        fun eof => absurd eof quiet, ?_, ?_⟩, rfl⟩
      · rw [last, line_before_stripped]
        change Gives _ _ _ _ ⟨none, stripped carriage (held s₁)⟩ _
        rw [← line, ← rest]
        apply Gives.line
        · rw [all]
          exact List.append_ne_nil_of_right_ne_nil _ (List.cons_ne_nil _ _)
        · rw [content, ← length]
      · cases never
      · rw [failures]
        exact sound.healthy
      rw [failures]
      exact sound.broken
    rename_i other
    obtain ⟨rfl, rfl, rfl⟩ := ran
    have kept : unread inner { s₁ with peek := c, hasPeek := true } source' = unread inner s₁ source := by
      rw [all]
      unfold unread
      rw [List.append_assoc]
      rfl
    refine ⟨?_, ⟨positive, sound.low, sound.room, sound.within, sound.searched, fun _ => running,
      fun eof => absurd eof quiet, ?_, ?_⟩, rfl⟩
    · rw [kept]
      apply Gives.tooLong
      rw [all, ← length]
      exact content_longer plain other
    · rw [failures]
      exact sound.healthy
    rw [failures]
    exact sound.broken

omit sound

theorem last_line_healthy (healthy : s.err = none) : lastLine s = if s.cursor < s.len then
      (⟨none, range s.buf s.cursor (s.len - s.cursor)⟩, { s with cursor := s.len, scanned := 0 })
    else (⟨some .eof, []⟩, s) := by
  unfold lastLine
  rw [healthy]

theorem last_line_broken {e : ProvenErr} (broken : s.err = some e) : lastLine s = (⟨some e, []⟩, s) := by
  unfold lastLine
  rw [broken]

variable (sound : Sound inner s source)
include sound

theorem last_right {more : List Byte}
    (plain : newline ∉ held s) (space : ¬(s.cursor = 0 ∧ s.len = s.size)) (filled : Filled inner s source s' source' more)
    (stopped : Stopped s' more) : Right inner .readLine s source (lastLine s').1 (lastLine s').2 source' := by
  have after := filled.sound
  have kept := filled.unread
  have size := filled.size
  cases broke : s'.err with
  | some e =>
    rw [last_line_broken broke]
    refine ⟨?_, after, size⟩
    rw [kept]
    exact Gives.broken _ _ e (after.broken e broke)
  | none =>
    rw [last_line_healthy broke]
    rcases stopped with broken | ⟨nothing, why⟩
    · exact absurd broke broken
    have same : held s' = held s := by
      rw [filled.held, nothing, List.append_nil]
    have eof : s'.eof = true := by
      rcases why with eof | full
      · exact eof
      rw [same, held_length, size] at full
      have low := sound.low
      have room := sound.room
      have positive := sound.positive
      exact absurd ⟨by omega, by omega⟩ space
    have bare : peeked s' = [] := by
      unfold peeked
      rw [if_neg]
      intro ahead
      exact absurd (after.peeking ahead) (by rw [eof]; exact Bool.false_ne_true.symm)
    have text := after.ended eof
    have all : unread inner s source = held s := by
      rw [← kept, unread, bare, text, List.append_nil, List.append_nil, same]
    split
    next left =>
      obtain ⟨content, line, rest⟩ := @line_open _ _ newline carriage _ plain
      have last : unread inner { s' with cursor := s'.len, scanned := 0 } source' = [] := by
        change range _ _ _ ++ peeked s' ++ _ = []
        rw [bare, text, tsub_self]
        rfl
      refine ⟨?_, moved_sound after (le_refl _), size⟩
      rw [last, all, ← rest]
      change Gives _ _ _ _ ⟨none, held s'⟩ _
      have positive : 0 < (held s).length := by
        rw [← same, held_length]
        omega
      have given := @Gives.line s.size source'.failures (held s) (List.length_pos_iff.mp positive)
        (by
          have low := sound.low
          have room := sound.room
          rw [content, held_length]
          omega)
      rw [line] at given
      rw [same]
      exact given
    rename_i done
    have empty : held s = [] := by
      apply List.eq_nil_of_length_eq_zero
      rw [← same, held_length]
      omega
    refine ⟨?_, after, size⟩
    rw [kept, all, empty]
    exact Gives.ended _ (after.healthy broke)

theorem loop_right {rounds : Nat} (enough : s.size + 1 ≤ (held s).length + rounds) : ∃ outcome s' source',
      readLineLoop inner rounds s source = some (outcome, s', source') ∧
        Right inner .readLine s source outcome s' source' := by
  have low := sound.low
  have room := sound.room
  induction rounds generalizing s source with
  | zero =>
    rw [held_length] at enough
    omega
  | succ rounds ih =>
    unfold readLineLoop
    dsimp only
    split
    next i found =>
      exact ⟨_, _, _, rfl, found_right sound found⟩
    rename_i none
    have plain := held_plain sound none
    have noted : Sound inner { s with scanned := s.len - s.cursor } source :=
      ⟨sound.positive, low, room, le_refl _, plain, sound.peeking, sound.ended, sound.healthy, sound.broken⟩
    split
    next full =>
      have right := full_right noted full.1 full.2 plain rfl
      exact ⟨_, _, _, rfl, right.gives, right.sound, right.size⟩
    rename_i space
    cases tried : bufferedFill inner { s with scanned := s.len - s.cursor } source with
    | mk progress after =>
      obtain ⟨s₁, source₁⟩ := after
      obtain ⟨more, filled, moves, stops⟩ := fill_filled noted tried
      cases progress with
      | false =>
        have right := last_right noted plain space filled (stops rfl)
        exact ⟨_, _, _, rfl, right.gives, right.sound, right.size⟩
      | true =>
        have some := List.length_pos_iff.mpr (moves rfl)
        have longer : (held s₁).length = (held s).length + more.length := by
          rw [filled.held, List.length_append]
          rfl
        have size : s₁.size = s.size := filled.size
        obtain ⟨outcome, s', source', ran, right⟩ :=
          ih filled.sound (by omega) filled.sound.low filled.sound.room
        refine ⟨outcome, s', source', ran, ?_, right.sound, right.size.trans size⟩
        rw [← size]
        exact filled.unread ▸ right.gives

theorem read_line_right : ∃ outcome s' source', readLine inner s source = some (outcome, s', source') ∧
      Right inner .readLine s source outcome s' source' :=
  loop_right sound (Nat.le_add_left _ _)

theorem hand_out_right (some : held s ≠ []) {space : Nat} (positive : 0 < space) :
    Right inner (.read space) s source (handOut s space).1 (handOut s space).2 source := by
  have low := sound.low
  have within := sound.within
  have length := held_length s
  have nonempty := List.length_pos_iff.mpr some
  unfold handOut
  dsimp only
  generalize smaller : min (s.len - s.cursor) space = n
  have bounds : 0 < n ∧ n ≤ s.len - s.cursor ∧ n ≤ space := by omega
  have parts := @range_append _ s.buf s.cursor n (s.len - s.cursor - n)
  rw [Nat.add_sub_cancel' bounds.2.1, show s.len - s.cursor - n = s.len - (s.cursor + n) by omega] at parts
  have text : unread inner s source = range s.buf s.cursor n ++
      unread inner { s with cursor := s.cursor + n, scanned := s.scanned - n } source := by
    unfold unread held
    rw [parts, List.append_assoc, List.append_assoc, List.append_assoc]
    rfl
  refine ⟨?_, ?_, rfl⟩
  · rw [text]
    apply Gives.bytes
    · rw [← List.length_pos_iff, range_length]
      exact bounds.1
    rw [range_length]
    exact bounds.2.2
  refine ⟨sound.positive, by dsimp only; omega, sound.room, by dsimp only; omega, ?_, sound.peeking, sound.ended,
    sound.healthy, sound.broken⟩
  dsimp only
  by_cases further : n ≤ s.scanned
  · intro there
    rw [range_drop s.cursor further] at there
    exact sound.searched (List.mem_of_mem_drop there)
  rw [show s.scanned - n = 0 by omega]
  exact List.not_mem_nil

theorem read_right {space : Nat} (ran : bufferedRead inner s source space = (outcome, s', source')) :
    Right inner (.read space) s source outcome s' source' := by
  unfold bufferedRead at ran
  split at ran
  next zero =>
    obtain ⟨rfl, rfl, rfl⟩ := ran
    rw [zero]
    exact ⟨Gives.nothing _, sound, rfl⟩
  rename_i some
  split at ran
  next spent =>
    have empty : held s = [] := by
      apply List.eq_nil_of_length_eq_zero
      rw [held_length]
      omega
    cases tried : bufferedFill inner s source with
    | mk progress after =>
      obtain ⟨s₁, source₁⟩ := after
      obtain ⟨more, filled, moves, stops⟩ := fill_filled sound tried
      have after := filled.sound
      have longer := filled.held
      rw [empty, List.nil_append] at longer
      rw [tried] at ran
      cases progress with
      | false =>
        obtain ⟨rfl, rfl, rfl⟩ := ran
        refine ⟨?_, after, filled.size⟩
        rw [filled.unread]
        cases broke : s'.err with
        | some e => exact Gives.broken _ _ e (after.broken e broke)
        | none =>
          rcases stops rfl with broken | ⟨nothing, why⟩
          · exact absurd broke broken
          have eof : s'.eof = true := by
            rcases why with eof | full
            · exact eof
            rw [longer, nothing, List.length_nil] at full
            have positive := after.positive
            omega
          have bare : peeked s' = [] := by
            unfold peeked
            rw [if_neg]
            intro ahead
            exact absurd (after.peeking ahead) (by rw [eof]; exact Bool.false_ne_true.symm)
          rw [← filled.unread, unread, bare, after.ended eof, longer, nothing]
          exact Gives.ended _ (after.healthy broke)
      | true =>
        obtain ⟨rfl, rfl, rfl⟩ := ran
        have right := hand_out_right after (by rw [longer]; exact moves rfl) (Nat.pos_of_ne_zero some)
        refine ⟨?_, right.sound, right.size.trans filled.size⟩
        rw [← filled.size]
        exact filled.unread ▸ right.gives
  rename_i left
  obtain ⟨rfl, rfl, rfl⟩ := ran
  have low := sound.low
  have nonempty : held s ≠ [] := by
    rw [← List.length_pos_iff, held_length]
    omega
  exact hand_out_right sound nonempty (Nat.pos_of_ne_zero some)

omit sound

variable {failures : List ProvenErr} {rest : List Byte}

theorem gives_meets {size : Nat} {c : Call} {text rest : List Byte}
    (gives : Gives size failures c text outcome rest) (fits : c = .readLine → Fits size text) :
    Meets size failures c text outcome rest := by
  cases gives with
  | line _ some short => exact Meets.line text some (le_trans (first_line_le text) short)
  | tooLong _ long => exact Meets.tooLong text (line_longer long (fits rfl))
  | bytes space bytes _ some small => exact Meets.bytes space bytes rest some small
  | nothing => exact Meets.nothing text
  | ended _ calm => exact Meets.ended c calm
  | broken _ _ e there => exact Meets.broken c text e there

theorem gives_tight {size : Nat} {text : List Byte}
    (gives : Gives size failures .readLine text outcome rest) (tight : ¬Fits size text) :
    (firstLine newline carriage text).length = size ∧ rest = text ∧
      (outcome = ⟨some .outOfBounds, []⟩ ∨ ∃ e ∈ failures, outcome = ⟨some e, []⟩) := by
  obtain ⟨line, after, length, plain, same⟩ := not_not.mp tight
  obtain ⟨whole, first⟩ := @line_tight _ _ newline carriage line after plain (by decide)
  rw [← same] at whole first
  have longer : size < (content newline text).length := by
    rw [whole, List.length_append, length, List.length_singleton]
    exact Nat.lt_succ_self size
  refine ⟨by rw [first, length], ?_⟩
  cases gives with
  | line _ _ short => exact absurd short (not_le.mpr longer)
  | tooLong => exact ⟨rfl, .inl rfl⟩
  | ended =>
    have never := congrArg List.length same
    rw [List.length_append, List.length_cons] at never
    exact absurd never (by rw [List.length_nil]; omega)
  | broken _ _ e there => exact ⟨rfl, .inr ⟨e, there, rfl⟩⟩

theorem call_right {w : World Behind} (sound : Sound inner w.s w.source) (c : Call) : ∃ outcome w',
    call inner w c = some (outcome, w') ∧ Right inner c w.s w.source outcome w'.s w'.source := by
  cases c with
  | readLine =>
    obtain ⟨outcome, s', source', ran, right⟩ := read_line_right sound
    refine ⟨outcome, ⟨s', source'⟩, ?_, right⟩
    rw [call, ran]
    rfl
  | read space => exact ⟨_, _, rfl, read_right sound rfl⟩

theorem opened_sound {behind : Behind} {buf : Nat → Byte} {size : Nat} {start : World Behind}
    (created : opened behind buf size = some start) :
    Sound inner start.s start.source ∧ start.s.size = size ∧ unread inner start.s start.source = inner.text behind := by
  unfold opened at created
  split at created
  · cases created
  rename_i positive
  obtain rfl := Option.some.inj created
  refine ⟨⟨Nat.pos_of_ne_zero positive, Nat.le_refl _, Nat.zero_le _, Nat.zero_le _, List.not_mem_nil,
    fun _ => rfl, fun never => absurd never Bool.false_ne_true, fun _ => rfl, fun e never => ?_⟩, rfl, rfl⟩
  cases never

theorem gives_suffix {size : Nat} {c : Call} {text : List Byte}
    (gives : Gives size failures c text outcome rest) : ∃ used, text = used ++ rest := by
  cases gives with
  | line =>
    refine ⟨text.takeWhile (· ≠ newline) ++ (text.dropWhile (· ≠ newline)).take 1, ?_⟩
    rw [afterLine, List.append_assoc, List.take_append_drop, List.takeWhile_append_dropWhile]
  | tooLong | nothing | ended | broken => exact ⟨[], rfl⟩
  | bytes space bytes => exact ⟨bytes, rfl⟩

structure Kept (inner : Inner Behind) (size : Nat) (text : List Byte) (w : World Behind) : Prop where
  sound : Sound inner w.s w.source
  size : w.s.size = size
  ordered : ∃ used, text = used ++ unread inner w.s w.source

theorem next_kept {size : Nat} {text : List Byte} (w : World Behind) (c : Call) (kept : Kept inner size text w) :
    Kept inner size text (next inner w c) := by
  obtain ⟨outcome, w', ran, right⟩ := call_right kept.sound c
  have same : next inner w c = w' := by
    rw [next, ran]
    rfl
  obtain ⟨before, front⟩ := kept.ordered
  obtain ⟨used, here⟩ := gives_suffix right.gives
  rw [same]
  refine ⟨right.sound, right.size.trans kept.size, before ++ used, ?_⟩
  rw [front, here, List.append_assoc]

/-- Every call of every run returns what it is to return from the text not handed out yet, but for the
call that reads a line which fills the buffer and ends in a carriage return and a newline: that line
is refused. -/
theorem reads_whatever_chunks (inner : Inner Behind) (behind : Behind) (buf : Nat → Byte) (size : Nat)
    (start : World Behind) (created : opened behind buf size = some start) (calls : List Call) (c : Call) :
    let w := run (next inner) start calls
    (∃ used, inner.text behind = used ++ unread inner w.s w.source) ∧ ∃ outcome w', call inner w c = some (outcome, w') ∧
        ((c = .readLine → Fits size (unread inner w.s w.source)) →
          Meets size w'.source.failures c (unread inner w.s w.source) outcome (unread inner w'.s w'.source)) ∧
        (c = .readLine → ¬Fits size (unread inner w.s w.source) →
          (firstLine newline carriage (unread inner w.s w.source)).length = size ∧
            (outcome = ⟨some .outOfBounds, []⟩ ∨ ∃ e ∈ w'.source.failures, outcome = ⟨some e, []⟩)) := by
  obtain ⟨sound, sized, text⟩ := @opened_sound _ inner _ _ _ _ created
  have kept : Kept inner size (inner.text behind) (run (next inner) start calls) :=
    run_invariant (fun w c kept => next_kept w c kept) ⟨sound, sized, [], text.symm⟩ calls
  obtain ⟨outcome, w', ran, right⟩ := call_right kept.sound c
  have gives := right.gives
  rw [kept.size] at gives
  refine ⟨kept.ordered, outcome, w', ran, gives_meets gives, ?_⟩
  rintro rfl tight
  obtain ⟨length, -, refused⟩ := gives_tight gives tight
  exact ⟨length, refused⟩

def fourBytes : World (List Byte) :=
  ⟨⟨fun _ => 0, 4, 0, 0, false, none, 0, false, 0⟩, ⟨[97, 98, 99, 100, 13, 10], []⟩⟩

theorem reads_whatever_chunks_twice : ∃ used, [97, 98, 99, 100, 13, 10] = used ++
    unread fromView (run (next fromView) fourBytes [.read 2, .readLine]).s
      (run (next fromView) fourBytes [.read 2, .readLine]).source :=
  (reads_whatever_chunks fromView [97, 98, 99, 100, 13, 10] (fun _ => 0) 4 fourBytes rfl [.read 2, .readLine]
    .readLine).1

theorem full_line_refused : (call fromView fourBytes .readLine).map (fun after => (after.1, after.2.source.failures)) =
      some (⟨some .outOfBounds, []⟩, []) ∧
    firstLine newline carriage (unread fromView fourBytes.s fourBytes.source) = [97, 98, 99, 100] ∧
    ∀ rest, ¬Meets 4 [] .readLine (unread fromView fourBytes.s fourBytes.source) ⟨some .outOfBounds, []⟩ rest := by
  have line : firstLine newline carriage (unread fromView fourBytes.s fourBytes.source) = [97, 98, 99, 100] := by
    decide
  refine ⟨by decide, line, ?_⟩
  intro rest meets
  cases meets with
  | tooLong _ long =>
    rw [line] at long
    exact lt_irrefl 4 long
  | broken _ _ e there => cases there

end ProvenC.Stream.Chunking
