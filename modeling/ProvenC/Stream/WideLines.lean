import ProvenC.Stream.Characters
import ProvenC.Lib.Lines

/-!
# Lines and units of a text

What a call returns is told by the units not handed out yet and whether something malformed comes after them:
neither the chunks of the source nor what is buffered or looked ahead at shows.
-/

namespace ProvenC.Stream.WideLines

open Bytes Lib.Cells Lib.Lines Lib.Unicode Text.Utf
open Text.Streams Text.Cuts Stream.Wide Stream.Staging Stream.Characters
open Stream.Reader (Inner)

variable {Behind : Type} {inner : Inner Behind}

def Ample : Call → Prop
  | .readLine => True
  | .read cap => 2 ≤ cap

inductive Meets (spoilt : Prop) (size : Nat) : Call → List Unit16 → Outcome → List Unit16 → Prop
  | line (text : List Unit16) : text ≠ [] → newline ∈ text ∨ ¬spoilt → (content newline text).length ≤ size →
      Meets spoilt size .readLine text ⟨none, firstLine newline carriage text⟩ (afterLine newline text)
  | tooLong (text : List Unit16) : size < (content newline text).length →
      Meets spoilt size .readLine text ⟨some .outOfBounds, []⟩ text
  | units (cap : Nat) (front rest : List Unit16) : front ≠ [] → front.length ≤ cap →
      Meets spoilt size (.read cap) (front ++ rest) ⟨none, front⟩ rest
  | refused (cap : Nat) (text : List Unit16) : cap < 2 → Meets spoilt size (.read cap) text ⟨some .invalidArg, []⟩ text
  | ended (c : Call) : Ample c → ¬spoilt → Meets spoilt size c [] ⟨some .eof, []⟩ []
  | malformed (c : Call) : Ample c → spoilt → Meets spoilt size c [] ⟨some .invalidEncoding, []⟩ []

inductive Gives (spoilt : Prop) (size : Nat) : Call → List Unit16 → Outcome → List Unit16 → Prop
  | meets (c : Call) (text : List Unit16) (outcome : Outcome) (rest : List Unit16) :
      Meets spoilt size c text outcome rest → Gives spoilt size c text outcome rest
  | cut (text : List Unit16) : spoilt → text ≠ [] → newline ∉ text → text.length ≤ size →
      Gives spoilt size .readLine text ⟨some .invalidEncoding, []⟩ text

def Whole (units : List Unit16) : Prop := ∀ u, units.getLast? = some u → ¬isHigh u

variable (inner) in
structure Sound (s : U16Reader) (behind : Behind) (enc : TextEncoding) (cps : List Nat) (tail : List Byte) : Prop where
  supplied : Supplied inner s behind enc cps tail
  room : 2 ≤ s.cap
  low : s.cursor ≤ s.len
  within : s.len ≤ s.cap
  heldText : Units (held s)

def unread (s : U16Reader) (cps : List Nat) : List Unit16 := held s ++ units s cps

variable (inner) in
structure Right (c : Call) (s : U16Reader) (enc : TextEncoding) (cps : List Nat) (tail : List Byte) (outcome : Outcome)
    (s' : U16Reader) (behind' : Behind) (cps' : List Nat) : Prop where
  gives : Gives (tail ≠ []) s.cap c (unread s cps) outcome (unread s' cps')
  whole : Whole outcome.val
  sound : Sound inner s' behind' enc cps' tail
  size : s'.cap = s.cap

theorem whole_nil : Whole [] := fun _ last => by cases last

theorem held_length (s : U16Reader) : (held s).length = s.len - s.cursor := range_length _ _

theorem scan_first (buf : Nat → Unit16) (place count : Nat) : scanNewline buf place count = firstAt buf newline place count := by
  induction count generalizing place with
  | zero => rfl
  | succ count ih => exact if_congr Iff.rfl rfl (ih (place + 1))

theorem line_before_stripped (s : U16Reader) (i : Nat) :
    lineBefore s i = stripped carriage (range s.buf s.cursor (i - s.cursor)) :=
  line_up_to s.buf s.cursor i

theorem newline_plain : newline.val < 0xDC00 := by decide

theorem newline_low : ¬isHigh newline := by decide

theorem carriage_plain : carriage.val < 0xDC00 := by decide

theorem ended_whole {before rest : List Unit16} (text : Units (before ++ newline :: rest)) :
    Whole before ∧ Whole (stripped carriage before) ∧ Units rest := by
  have plain : Whole before := units_before text rfl newline_plain
  refine ⟨plain, ?_, ?_⟩
  · unfold stripped
    split
    next last =>
      rcases List.eq_nil_or_concat before with rfl | ⟨front, c, rfl⟩
      · exact whole_nil
      rw [List.concat_eq_append] at last text ⊢
      rw [List.getLast?_append, List.getLast?_singleton] at last
      obtain rfl := Option.some.inj last
      rw [List.dropLast_concat]
      rw [List.append_assoc] at text
      exact units_before text rfl carriage_plain
    · exact plain
  have split_ : before ++ newline :: rest = (before ++ [newline]) ++ rest := by
    rw [List.append_assoc]
    rfl
  refine (units_cut text split_ ?_).2
  intro u last
  rw [List.getLast?_append, List.getLast?_singleton] at last
  obtain rfl := Option.some.inj last
  exact newline_low

variable {s : U16Reader} {behind : Behind} {enc : TextEncoding} {cps : List Nat} {tail : List Byte}

variable (sound : Sound inner s behind enc cps tail)
include sound

theorem unread_text : Units (unread s cps) :=
  units_append sound.heldText (units_append sound.supplied.peekText (units_text sound.supplied.scalars))

theorem advanced_sound {cursor : Nat} (within : cursor ≤ s.len)
    (text : Units (range s.buf cursor (s.len - cursor))) : Sound inner { s with cursor } behind enc cps tail :=
  ⟨⟨sound.supplied.order, sound.supplied.within, sound.supplied.ended, sound.supplied.scalars, sound.supplied.stuck,
    sound.supplied.encoding, sound.supplied.encoded, sound.supplied.peekText, sound.supplied.peekOne,
    sound.supplied.broke⟩, sound.room, within, sound.within, text⟩

theorem found_right {i : Nat} (found : scanNewline s.buf s.cursor (s.len - s.cursor) = some i) :
    Right inner .readLine s enc cps tail ⟨none, lineBefore s i⟩ { s with cursor := i + 1 } behind cps := by
  have low := sound.low
  have within := sound.within
  obtain ⟨above, high, here, plain⟩ := first_at_some (scan_first _ _ _ ▸ found)
  have parts : held s = range s.buf s.cursor (i - s.cursor) ++ newline :: range s.buf (i + 1) (s.len - (i + 1)) := by
    unfold held
    rw [show s.len - s.cursor = i - s.cursor + (s.len - i) by omega, range_append,
      show s.cursor + (i - s.cursor) = i by omega, show s.len - i = s.len - (i + 1) + 1 by omega, range_succ, here]
  have text : unread s cps = range s.buf s.cursor (i - s.cursor) ++ newline :: unread { s with cursor := i + 1 } cps := by
    unfold unread
    rw [parts, List.append_assoc, List.cons_append]
    rfl
  obtain ⟨-, line_whole, -⟩ := ended_whole (by rw [← text]; exact unread_text sound)
  have held_text := sound.heldText
  rw [parts] at held_text
  obtain ⟨-, -, rest_text⟩ := ended_whole held_text
  obtain ⟨whole, line, rest⟩ := @line_ended _ _ newline carriage _ (unread { s with cursor := i + 1 } cps) plain
  rw [← text] at whole line rest
  refine ⟨?_, ?_, advanced_sound sound (by omega) rest_text, rfl⟩
  · rw [line_before_stripped, ← line, ← rest]
    refine Gives.meets _ _ _ _ (Meets.line _ ?_ (.inl ?_) ?_)
    · rw [text]
      exact List.append_ne_nil_of_right_ne_nil _ (List.cons_ne_nil _ _)
    · rw [text]
      exact List.mem_append_right _ List.mem_cons_self
    rw [whole, range_length]
    omega
  rw [line_before_stripped]
  exact line_whole

omit sound

def Full (s : U16Reader) (cps : List Nat) : Prop :=
  s.len = s.cap ∨ s.len + 1 = s.cap ∧ ∃ u v rest, units s cps = u :: v :: rest ∧ isHigh u

theorem held_all (start : s.cursor = 0) : held s = range s.buf 0 s.len := by
  unfold held
  rw [start]
  rfl

theorem full_longer
    (sound : Sound inner s behind enc cps tail) (start : s.cursor = 0) (plain : newline ∉ held s) (full : Full s cps)
    {u : Unit16} {rest : List Unit16} (next : units s cps = u :: rest) (other : u ≠ newline) :
    s.cap < (content newline (unread s cps)).length := by
  have length := held_length s
  rw [start, tsub_zero] at length
  rcases full with full | ⟨almost, u', v, more, pair, high⟩
  · rw [unread, next, ← full, ← length]
    exact content_longer plain other
  rw [next] at pair
  obtain ⟨rfl, rfl⟩ := List.cons.inj pair
  have second : v ≠ newline := by
    rintro rfl
    have text : Units (units s cps) := units_append sound.supplied.peekText (units_text sound.supplied.scalars)
    exact @units_before _ [u] more text newline next newline_plain u rfl high
  have plain' : newline ∉ held s ++ [u] := by
    rw [List.mem_append, List.mem_singleton]
    rintro (there | same)
    · exact plain there
    · exact other same.symm
  have long := @content_longer _ _ newline (held s ++ [u]) more v plain' second
  rw [List.length_append, List.length_singleton, List.append_assoc] at long
  rw [unread, next]
  change _ < (content newline (held s ++ ([u] ++ v :: more))).length
  omega

variable {s' : U16Reader} {outcome : Outcome}

include sound

theorem peeked_right (start : s.cursor = 0) (plain : newline ∉ held s)
    (full : Full s cps) (some_ : s.peek ≠ []) (ran : peekedLine s = (outcome, s')) :
    Right inner .readLine s enc cps tail outcome s' behind cps := by
  have length := held_length s
  have all := held_all start
  unfold peekedLine at ran
  split at ran
  next ends =>
    obtain ⟨rfl, rfl⟩ := ran
    have next : units s cps = newline :: utf16Text cps := by
      rw [units, ends]
      rfl
    have filled : s.len = s.cap := by
      rcases full with full | ⟨-, u, v, rest, pair, high⟩
      · exact full
      rw [next] at pair
      obtain ⟨rfl, -⟩ := List.cons.inj pair
      exact absurd high newline_low
    have text : unread s cps = held s ++ newline :: utf16Text cps := by rw [unread, next]
    have after : unread { s with cursor := s.len, peek := [] } cps = utf16Text cps := by
      unfold unread held units
      rw [tsub_self]
      rfl
    obtain ⟨-, line_whole, -⟩ := ended_whole (by rw [← text]; exact unread_text sound)
    obtain ⟨whole, line, rest⟩ := @line_ended _ _ newline carriage _ (utf16Text cps) plain
    rw [← text] at whole line rest
    have stripped_ : lineBefore s s.len = stripped carriage (held s) := line_before_stripped s s.len
    refine ⟨?_, ?_, ?_, rfl⟩
    · rw [stripped_, after, ← line, ← rest]
      refine Gives.meets _ _ _ _ (Meets.line _ ?_ (.inl ?_) ?_)
      · rw [text]
        exact List.append_ne_nil_of_right_ne_nil _ (List.cons_ne_nil _ _)
      · rw [text]
        exact List.mem_append_right _ List.mem_cons_self
      rw [whole]
      omega
    · rw [stripped_]
      exact line_whole
    refine ⟨⟨sound.supplied.order, sound.supplied.within, sound.supplied.ended, sound.supplied.scalars,
      sound.supplied.stuck, sound.supplied.encoding, sound.supplied.encoded, units_nil, ?_, ?_⟩, sound.room,
      le_refl _, sound.within, ?_⟩
    · intro u more none_
      cases none_
    · intro broken
      exact absurd (sound.supplied.broke broken).2.1 some_
    unfold held
    rw [tsub_self]
    exact units_nil
  rename_i goes
  obtain ⟨rfl, rfl⟩ := ran
  refine ⟨Gives.meets _ _ _ _ (Meets.tooLong _ ?_), whole_nil, sound, rfl⟩
  obtain ⟨u, more, peek⟩ := List.exists_cons_of_ne_nil some_
  have next : units s cps = u :: (more ++ utf16Text cps) := by
    rw [units, peek]
    rfl
  refine full_longer sound start plain full next ?_
  rintro rfl
  rcases sound.supplied.peekOne _ _ peek with rfl | ⟨high, -⟩
  · exact goes peek
  · exact newline_low high

theorem decoded_sound {behind' : Behind} {cps' : List Nat} {cap : Nat}
    (decodes : Decodes inner s enc cps tail cap outcome s' behind' cps') : Sound inner s' behind' enc cps' tail := by
  have beside := decodes.beside
  refine ⟨decodes.supplied, ?_, ?_, ?_, ?_⟩
  · rw [beside.cap]
    exact sound.room
  · rw [beside.cursor, beside.len]
    exact sound.low
  · rw [beside.len, beside.cap]
    exact sound.within
  rw [beside_held beside]
  exact sound.heldText

omit sound

theorem looked_right {s₁ : U16Reader} {behind₁ : Behind} {cps₁ : List Nat} {front : List Unit16} (sound : Sound inner s₁ behind₁ enc cps₁ tail)
    (beside : Beside s s₁) (start : s.cursor = 0) (plain : newline ∉ held s) (full : Full s cps) (bare : s₁.peek = [])
    (fine : s₁.err = none) (text : units s cps = front ++ units s₁ cps₁) (some_ : front ≠ []) (frontText : Units front)
    (character : ∀ u more, front = u :: more → more = [] ∨ (isHigh u ∧ more.length = 1))
    (ran : peekedLine { s₁ with peek := front } = (outcome, s')) :
    Right inner .readLine s enc cps tail outcome s' behind₁ cps₁ := by
  have same : units { s₁ with peek := front } cps₁ = units s cps := by
    rw [text, units, units, bare]
    rfl
  have kept : unread { s₁ with peek := front } cps₁ = unread s cps := by
    unfold unread
    rw [same, ← beside_held beside]
    rfl
  have sound' : Sound inner { s₁ with peek := front } behind₁ enc cps₁ tail :=
    ⟨⟨sound.supplied.order, sound.supplied.within, sound.supplied.ended, sound.supplied.scalars, sound.supplied.stuck,
      sound.supplied.encoding, sound.supplied.encoded, frontText, character, fun broken => absurd fine broken⟩,
      sound.room, sound.low, sound.within, sound.heldText⟩
  have full' : Full { s₁ with peek := front } cps₁ := by
    unfold Full
    rw [same]
    rw [beside.len, beside.cap]
    exact full
  have right := peeked_right sound' (beside.cursor.trans start) (by
    change newline ∉ held s₁
    rw [beside_held beside]
    exact plain) full' some_ ran
  have gives := right.gives
  rw [kept] at gives
  refine ⟨?_, right.whole, right.sound, right.size.trans beside.cap⟩
  rw [← beside.cap]
  exact gives

theorem last_right {s₁ : U16Reader} {behind₁ : Behind} {cps₁ : List Nat} (sound : Sound inner s behind enc cps tail) (sound₁ : Sound inner s₁ behind₁ enc cps₁ tail)
    (beside : Beside s s₁) (start : s.cursor = 0) (plain : newline ∉ held s) (some_ : 0 < s.len)
    (none_ : units s cps = []) (none₁ : units s₁ cps₁ = []) (clean : tail = []) :
    Right inner .readLine s enc cps tail ⟨none, range s₁.buf 0 s₁.len⟩ { s₁ with cursor := s₁.len } behind₁ cps₁ := by
  have all := held_all start
  have length := held_length s
  have within := sound.within
  have text : unread s cps = held s := by rw [unread, none_, List.append_nil]
  have last : unread { s₁ with cursor := s₁.len } cps₁ = [] := by
    unfold unread held
    rw [tsub_self, List.append_eq_nil_iff]
    exact ⟨rfl, none₁⟩
  obtain ⟨whole, line, rest⟩ := @line_open _ _ newline carriage _ plain
  refine ⟨?_, ?_, advanced_sound sound₁ (le_refl _) ?_, beside.cap⟩
  · rw [text, last, beside.buf, beside.len, ← all, ← rest]
    have met := @Meets.line (tail ≠ []) s.cap (held s) (by
      intro empty
      rw [empty, List.length_nil] at length
      omega) (.inr (not_not.mpr clean)) (by
      rw [whole]
      omega)
    rw [line] at met
    exact Gives.meets _ _ _ _ met
  · dsimp only
    rw [beside.buf, beside.len, ← all]
    exact units_last sound.heldText
  rw [tsub_self]
  exact units_nil

theorem cut_right {s₁ : U16Reader} {behind₁ : Behind} {cps₁ : List Nat} (sound : Sound inner s behind enc cps tail) (sound₁ : Sound inner s₁ behind₁ enc cps₁ tail)
    (beside : Beside s s₁) (start : s.cursor = 0) (plain : newline ∉ held s) (none_ : units s cps = [])
    (none₁ : units s₁ cps₁ = []) (spoilt : tail ≠ []) :
    Right inner .readLine s enc cps tail ⟨some .invalidEncoding, []⟩ s₁ behind₁ cps₁ := by
  have length := held_length s
  have within := sound.within
  have text : unread s cps = held s := by rw [unread, none_, List.append_nil]
  have after : unread s₁ cps₁ = held s := by rw [unread, none₁, List.append_nil, beside_held beside]
  refine ⟨?_, whole_nil, sound₁, beside.cap⟩
  rw [text, after]
  by_cases empty : held s = []
  · rw [empty]
    exact Gives.meets _ _ _ _ (Meets.malformed _ True.intro spoilt)
  · exact Gives.cut _ spoilt empty plain (by omega)

theorem full_right (steady : Steady inner) (sound : Sound inner s behind enc cps tail) (start : s.cursor = 0) (plain : newline ∉ held s)
    (some_ : 0 < s.len) (full : Full s cps) :
    ∃ outcome s' behind' cps', fullLine inner s behind = some (outcome, s', behind') ∧
      Right inner .readLine s enc cps tail outcome s' behind' cps' := by
  unfold fullLine
  by_cases bare : s.peek = []
  · rw [if_pos bare]
    obtain ⟨p, s₁, behind₁, cps₁, ran, decodes⟩ := decode_decodes steady Nat.one_pos sound.supplied
    have sound₁ := decoded_sound sound decodes
    have beside := decodes.beside
    have bare₁ := decodes.bare bare
    have fine := decodes.fine
    have gets := decodes.gets
    rw [ran]
    generalize before : units s cps = text at gets
    generalize after : units s₁ cps₁ = text₁ at gets
    cases gets with
    | units front rest front_some fits frontText =>
      dsimp only
      rw [if_neg (by decide)]
      dsimp only
      refine ⟨_, _, behind₁, cps₁, rfl, looked_right sound₁ beside start plain full bare₁ (fine rfl)
        (by rw [before, after]) front_some frontText ?_ rfl⟩
      rintro u more rfl
      rw [List.length_cons] at fits
      exact .inl (List.eq_nil_of_length_eq_zero (by omega))
    | wide u v rest high small =>
      dsimp only
      rw [if_pos rfl]
      obtain ⟨p₂, s₂, behind₂, cps₂, ran₂, decodes₂⟩ := decode_decodes steady (Nat.succ_pos 1) sound₁.supplied
      have sound₂ := decoded_sound sound₁ decodes₂
      have beside₂ := decodes₂.beside
      have gets₂ := decodes₂.gets
      have bare₂ := decodes₂.bare bare₁
      have fine₂ := decodes₂.fine
      have both : Beside s s₂ :=
        ⟨beside₂.buf.trans beside.buf, beside₂.cap.trans beside.cap, beside₂.len.trans beside.len,
          beside₂.cursor.trans beside.cursor⟩
      rw [ran₂]
      rw [after] at gets₂
      generalize after₂ : units s₂ cps₂ = text₂ at gets₂
      generalize same : u :: v :: rest = whole at gets₂
      cases gets₂ with
      | units front rest₂ front_some fits frontText =>
        dsimp only
        refine ⟨_, _, behind₂, cps₂, rfl, looked_right sound₂ both start plain full bare₂ (fine₂ rfl)
          (by rw [before, after₂, same]) front_some frontText ?_ rfl⟩
        -- the pair is taken whole
        rintro x more rfl
        rw [List.cons_append] at same
        obtain ⟨rfl, -⟩ := List.cons.inj same
        rw [List.length_cons] at fits
        right
        refine ⟨high, ?_⟩
        by_contra other
        obtain rfl := List.eq_nil_of_length_eq_zero (show more.length = 0 by omega)
        exact units_last frontText u rfl high
      | wide u' v' rest' high' small' => exact absurd small' (lt_irrefl 2)
      | ended clean => cases same
      | malformed spoilt => cases same
    | ended clean => exact ⟨_, _, behind₁, cps₁, rfl, last_right sound sound₁ beside start plain some_ before after clean⟩
    | malformed spoilt =>
      exact ⟨_, _, behind₁, cps₁, rfl, cut_right sound sound₁ beside start plain before after spoilt⟩
  rw [if_neg bare]
  exact ⟨_, _, behind, cps, rfl, peeked_right sound start plain full bare rfl⟩

theorem right_of_same {c : Call} {s₁ : U16Reader} {behind' : Behind} {cps₁ cps' : List Nat} (kept : unread s₁ cps₁ = unread s cps) (size : s₁.cap = s.cap)
    (right : Right inner c s₁ enc cps₁ tail outcome s' behind' cps') :
    Right inner c s enc cps tail outcome s' behind' cps' := by
  have gives := right.gives
  rw [kept, size] at gives
  exact ⟨gives, right.whole, right.sound, right.size.trans size⟩

include sound

theorem compact_buf_sound : Sound inner (compactBuf s) behind enc cps tail ∧
      (compactBuf s).cursor = 0 ∧ held (compactBuf s) = held s ∧ (compactBuf s).cap = s.cap ∧
      (compactBuf s).peek = s.peek := by
  have low := sound.low
  have within := sound.within
  unfold compactBuf
  split
  · have copied : range (if s.len - s.cursor > 0 then moved s.buf 0 s.cursor (s.len - s.cursor) else s.buf) 0
        (s.len - s.cursor - 0) = held s := by
      rw [Nat.sub_zero]
      split
      · have copied := @range_moved _ s.buf 0 s.cursor (s.len - s.cursor)
        rw [Nat.zero_add] at copied
        exact copied
      rename_i none_
      rw [held, show s.len - s.cursor = 0 by omega]
      rfl
    refine ⟨⟨⟨sound.supplied.order, sound.supplied.within, sound.supplied.ended, sound.supplied.scalars,
      sound.supplied.stuck, sound.supplied.encoding, sound.supplied.encoded, sound.supplied.peekText,
      sound.supplied.peekOne, sound.supplied.broke⟩, sound.room, Nat.zero_le _, ?_, ?_⟩, rfl, copied, rfl, rfl⟩
    · dsimp only
      omega
    have text := sound.heldText
    rw [← copied] at text
    exact text
  rename_i start
  exact ⟨sound, by omega, rfl, rfl, rfl⟩

theorem grown_sound {front : List Unit16} (text : Units front) (fits : s.len + front.length ≤ s.cap) :
    Sound inner { s with buf := storedAll s.buf s.len front, len := s.len + front.length } behind enc cps tail ∧
      held { s with buf := storedAll s.buf s.len front, len := s.len + front.length } = held s ++ front := by
  have low := sound.low
  have grown : held { s with buf := storedAll s.buf s.len front, len := s.len + front.length } = held s ++ front := by
    unfold held
    dsimp only
    rw [show s.len + front.length - s.cursor = s.len - s.cursor + front.length by omega, range_append,
      show s.cursor + (s.len - s.cursor) = s.len by omega, stored_all_range]
    congr 1
    apply range_eq
    intro i inside
    exact stored_all_outside _ _ _ (.inl (by omega))
  refine ⟨⟨⟨sound.supplied.order, sound.supplied.within, sound.supplied.ended, sound.supplied.scalars,
    sound.supplied.stuck, sound.supplied.encoding, sound.supplied.encoded, sound.supplied.peekText,
    sound.supplied.peekOne, sound.supplied.broke⟩, sound.room, ?_, fits, ?_⟩, grown⟩
  · dsimp only
    omega
  rw [grown]
  exact units_append sound.heldText text

omit sound

theorem line_loop_right (steady : Steady inner) {rounds : Nat} (sound : Sound inner s behind enc cps tail)
    (enough : s.cap < rounds + (held s).length) :
    ∃ outcome s' behind' cps', lineLoop inner rounds s behind = some (outcome, s', behind') ∧
      Right inner .readLine s enc cps tail outcome s' behind' cps' := by
  have low := sound.low
  have within := sound.within
  induction rounds generalizing s behind cps with
  | zero =>
    rw [held_length] at enough
    omega
  | succ rounds ih =>
    rw [lineLoop]
    cases found : scanNewline s.buf s.cursor (s.len - s.cursor) with
    | some i => exact ⟨_, _, behind, cps, rfl, found_right sound found⟩
    | none =>
      have plain : newline ∉ held s := first_at_none (scan_first _ _ _ ▸ found)
      obtain ⟨sound₁, start, same, size, peek⟩ := compact_buf_sound sound
      dsimp only
      generalize compactBuf s = s₁ at sound₁ start same size peek
      have kept : unread s₁ cps = unread s cps := by rw [unread, unread, units, units, same, peek]
      rw [← same] at plain enough
      have length := held_length s₁
      rw [start, tsub_zero] at length
      have inside := sound₁.within
      have room := sound₁.room
      suffices ∃ outcome s' behind' cps', _ = some (outcome, s', behind') ∧
          Right inner .readLine s₁ enc cps tail outcome s' behind' cps' by
        obtain ⟨outcome, s', behind', cps', ran, right⟩ := this
        exact ⟨outcome, s', behind', cps', ran, right_of_same kept size right⟩
      by_cases space : s₁.len < s₁.cap
      · rw [if_pos space]
        obtain ⟨r, s₂, behind₂, cps₂, ran, decodes⟩ :=
          decode_decodes steady (show 0 < s₁.cap - s₁.len by omega) sound₁.supplied
        have sound₂ := decoded_sound sound₁ decodes
        have beside := decodes.beside
        have gets := decodes.gets
        rw [ran]
        generalize before : units s₁ cps = text at gets
        generalize after : units s₂ cps₂ = text₂ at gets
        cases gets with
        | units front rest some_ fits frontText =>
          dsimp only
          have fits₂ : s₂.len + front.length ≤ s₂.cap := by
            rw [beside.len, beside.cap]
            omega
          obtain ⟨sound₃, grown⟩ := grown_sound sound₂ frontText fits₂
          have positive := List.length_pos_iff.mpr some_
          obtain ⟨outcome, s', behind', cps', done, right⟩ := ih sound₃ (by
            rw [grown, List.length_append, beside_held beside]
            change s₂.cap < _
            rw [beside.cap, size]
            omega) sound₃.low sound₃.within
          refine ⟨outcome, s', behind', cps', done, right_of_same ?_ (by exact beside.cap) right⟩
          rw [unread, unread, grown, before, beside_held beside, List.append_assoc, ← after]
          rfl
        | wide u v rest high small =>
          dsimp only
          have full : Full s₂ cps₂ := by
            refine .inr ⟨?_, u, v, rest, after, high⟩
            rw [beside.len, beside.cap]
            omega
          have kept₂ : unread s₂ cps₂ = unread s₁ cps := by
            rw [unread, unread, after, before, beside_held beside]
          obtain ⟨outcome, s', behind', cps', done, right⟩ := full_right steady sound₂ (beside.cursor.trans start)
            (by rw [beside_held beside]; exact plain) (by rw [beside.len]; omega) full
          exact ⟨outcome, s', behind', cps', done, right_of_same kept₂ beside.cap right⟩
        | ended clean =>
          dsimp only
          by_cases some_ : s₂.len > 0
          · rw [if_pos some_]
            rw [beside.len] at some_
            exact ⟨_, _, behind₂, cps₂, rfl, last_right sound₁ sound₂ beside start plain some_ before after clean⟩
          rw [if_neg some_]
          refine ⟨_, _, behind₂, cps₂, rfl, ?_, whole_nil, sound₂, beside.cap⟩
          have empty : held s₁ = [] := by
            rw [beside.len] at some_
            exact List.eq_nil_of_length_eq_zero (by omega)
          rw [unread, unread, before, after, beside_held beside, empty]
          exact Gives.meets _ _ _ _ (Meets.ended _ True.intro (not_not.mpr clean))
        | malformed spoilt =>
          exact ⟨_, _, behind₂, cps₂, rfl, cut_right sound₁ sound₂ beside start plain before after spoilt⟩
      rw [if_neg space]
      exact full_right steady sound₁ start plain (by omega) (.inl (by omega))

theorem line_right (steady : Steady inner) (sound : Sound inner s behind enc cps tail) :
    ∃ outcome s' behind' cps', u16ReadLine inner s behind = some (outcome, s', behind') ∧
      Right inner .readLine s enc cps tail outcome s' behind' cps' :=
  line_loop_right steady sound (by omega)

theorem cut_place (sound : Sound inner s behind enc cps tail) (some_ : s.cursor < s.len) {cap n : Nat} (ample : 2 ≤ cap)
    (chosen : n = if s.len - s.cursor > cap then (if isHigh (s.buf (s.cursor + cap - 1)) then cap - 1 else cap)
      else s.len - s.cursor) : 0 < n ∧ n ≤ cap ∧ n ≤ s.len - s.cursor ∧ Whole (range s.buf s.cursor n) := by
  by_cases long : s.len - s.cursor > cap
  · rw [if_pos long] at chosen
    by_cases high : isHigh (s.buf (s.cursor + cap - 1))
    · rw [if_pos high] at chosen
      refine ⟨by omega, by omega, by omega, ?_⟩
      obtain ⟨later, count⟩ : ∃ later, s.len - s.cursor = n + (later + 1) := ⟨s.len - s.cursor - cap, by omega⟩
      have around : held s = range s.buf s.cursor n ++
          s.buf (s.cursor + cap - 1) :: range s.buf (s.cursor + n + 1) later := by
        rw [held, count, range_append, range_succ, show s.cursor + n = s.cursor + cap - 1 by omega]
      apply units_before sound.heldText around
      unfold isHigh at high
      omega
    rw [if_neg high] at chosen
    refine ⟨by omega, by omega, by omega, ?_⟩
    intro u last
    rw [show n = cap - 1 + 1 by omega, range_append, range_one, List.getLast?_append, List.getLast?_singleton] at last
    obtain rfl := Option.some.inj last
    rw [show s.cursor + (cap - 1) = s.cursor + cap - 1 by omega]
    exact high
  rw [if_neg long] at chosen
  rw [chosen]
  exact ⟨by omega, by omega, le_refl _, units_last sound.heldText⟩

theorem read_right (steady : Steady inner) (sound : Sound inner s behind enc cps tail) (cap : Nat) :
    ∃ outcome s' behind' cps', u16Read inner s behind cap = some (outcome, s', behind') ∧
      Right inner (.read cap) s enc cps tail outcome s' behind' cps' := by
  have low := sound.low
  unfold u16Read
  by_cases small : cap < 2
  · rw [if_pos small]
    exact ⟨_, s, behind, cps, rfl, Gives.meets _ _ _ _ (Meets.refused cap _ small), whole_nil, sound, rfl⟩
  rw [if_neg small]
  by_cases some_ : s.cursor < s.len
  · rw [if_pos some_]
    dsimp only
    generalize chosen : (if s.len - s.cursor > cap then
      (if isHigh (s.buf (s.cursor + cap - 1)) then cap - 1 else cap) else s.len - s.cursor) = n
    obtain ⟨positive, fits, inside, whole⟩ := cut_place sound some_ (Nat.not_lt.mp small) chosen.symm
    have parts : held s = range s.buf s.cursor n ++ range s.buf (s.cursor + n) (s.len - (s.cursor + n)) := by
      rw [held, show s.len - s.cursor = n + (s.len - (s.cursor + n)) by omega, range_append]
    have text : unread s cps = range s.buf s.cursor n ++ unread { s with cursor := s.cursor + n } cps := by
      rw [unread, parts, List.append_assoc]
      rfl
    refine ⟨_, _, behind, cps, rfl, ?_, whole, advanced_sound sound (by omega) (units_cut sound.heldText parts whole).2, rfl⟩
    rw [text]
    have length := @range_length _ s.buf s.cursor n
    refine Gives.meets _ _ _ _ (Meets.units cap _ _ ?_ (by omega))
    exact List.length_pos_iff.mp (by omega)
  rw [if_neg some_]
  obtain ⟨r, s₁, behind₁, cps₁, ran, decodes⟩ := decode_decodes steady (show 0 < cap by omega) sound.supplied
  have sound₁ := decoded_sound sound decodes
  have beside := decodes.beside
  have gets := decodes.gets
  have empty : held s = [] := by
    apply List.eq_nil_of_length_eq_zero
    rw [held_length]
    omega
  have text : unread s cps = units s cps := by rw [unread, empty, List.nil_append]
  have text₁ : unread s₁ cps₁ = units s₁ cps₁ := by rw [unread, beside_held beside, empty, List.nil_append]
  refine ⟨r, s₁, behind₁, cps₁, ran, ?_, ?_, sound₁, beside.cap⟩
  · rw [text, text₁]
    generalize before : units s cps = here at gets
    generalize after : units s₁ cps₁ = there at gets
    cases gets with
    | units front rest front_some fits frontText => exact Gives.meets _ _ _ _ (Meets.units cap front _ front_some fits)
    | wide u v rest high less => exact absurd less small
    | ended clean => exact Gives.meets _ _ _ _ (Meets.ended _ (Nat.not_lt.mp small) (not_not.mpr clean))
    | malformed spoilt => exact Gives.meets _ _ _ _ (Meets.malformed _ (Nat.not_lt.mp small) spoilt)
  generalize units s cps = here at gets
  generalize units s₁ cps₁ = there at gets
  cases gets with
  | units front rest front_some fits frontText => exact units_last frontText
  | wide | ended | malformed => exact whole_nil

end ProvenC.Stream.WideLines
