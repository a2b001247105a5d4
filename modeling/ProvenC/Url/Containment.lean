import ProvenC.Url.Resolving

/-!
# A resolved path stays inside its root

The path written is the evaluation of the segments, decoded once, on a stack of names. Only a
segment that goes up from an empty stack is answered with PERMISSION.
-/

namespace ProvenC.Url.Containment

open Bytes Lib.Cells Lib.Segments Lib.Unicode Text.Conversion
open Url.Path Url.Decoding Url.Resolving

variable {rawPath : List Byte} {segments : List (List Byte)} {outSize : Nat} {cells : Memory}

theorem slash_first (body : List Byte) : (decodedUnits (slash :: body)).bind (accepted pathByte) =
      ((decodedUnits body).bind (accepted pathByte)).map (slash :: ·) := by
  have let_ : pathByte slash false = some slash := by decide
  rw [decoded_units_plain slash_ne_percent]
  cases decodedUnits body with
  | none => rfl
  | some units =>
    rw [Option.map_some, Option.bind_some, Option.bind_some, accepted, let_]
    rfl

variable (decoded : OnceDecoded rawPath segments)
include decoded

theorem once_decoded_some : segments ≠ [] := by
  obtain ⟨parts, some_, _, _, same⟩ := decoded.parts
  intro none_
  rw [none_, List.map_nil, List.map_eq_nil_iff] at same
  exact some_ same

theorem once_decoded_unmarked : ∀ segment ∈ segments, slash ∉ segment :=
  fun segment among isSlash => (decoded.bytes segment among slash isSlash).1 rfl

theorem once_decoded_accepted :
    rawPath.head? = some slash ∧ (decodedUnits rawPath).bind (accepted pathByte) = some (pathOf segments) := by
  obtain ⟨parts, some_, rfl, unmarked, same⟩ := decoded.parts
  refine ⟨rfl, ?_⟩
  unfold pathOf
  rw [slash_first, (accepted_parts some_ unmarked _).mpr ⟨segments, same, decoded.bytes, rfl⟩]
  rfl

omit decoded in
theorem accepted_once_decoded {text : List Byte} (rooted : rawPath.head? = some slash)
    (found : (decodedUnits rawPath).bind (accepted pathByte) = some text) (isText : Utf8Text text) :
    ∃ segments, OnceDecoded rawPath segments := by
  cases rawPath with
  | nil => cases rooted
  | cons head body =>
    cases rooted
    obtain ⟨parts, some_, unmarked, rfl⟩ := parts_exist slash body
    rw [slash_first] at found
    obtain ⟨rest, restFound, rfl⟩ := Option.map_eq_some_iff.mp found
    obtain ⟨segments, same, bytes, rfl⟩ := (accepted_parts some_ unmarked rest).mp restFound
    exact ⟨segments, ⟨parts, some_, rfl, unmarked, same⟩, bytes, isText⟩

theorem decode_fits (fits : (pathOf segments).length ≤ outSize) :
    decodeLoop (apartFrom rawPath) rawPath.length outSize pathByte rawPath.length { i := 0, w := 0, cells := cells } =
      .ok { i := rawPath.length, w := (pathOf segments).length, cells := storedAll cells 0 (pathOf segments) } := by
  have found := (once_decoded_accepted decoded).2
  have looped := decode_loop_some (apart_reads rawPath cells) rawPath.length { i := 0, w := 0, cells := cells }
    (pathOf segments) (by dsimp only; omega) (Nat.zero_le _) (Nat.le_refl 0) (Nat.zero_le outSize) (fun _ _ => rfl) found
  rw [looped, if_neg (by dsimp only; omega)]
  rw [Nat.zero_add]

omit decoded in
theorem resolve_fits (cells : Memory) (decoded : OnceDecoded rawPath segments) (fits : (pathOf segments).length ≤ outSize) :
    match evalPath [] segments with
    | none => urlPathResolve rawPath outSize cells = .error .permission
    | some result =>
      ∃ written after, urlPathResolve rawPath outSize cells = .ok (written, after) ∧ written ≤ outSize ∧
        range after 0 written = writtenPath result.reverse (asksDirectory segments) := by
  have rooted := (once_decoded_accepted decoded).1
  have text := stored_all_range cells 0 (pathOf segments)
  have valid := (utf8_validate_text (pathOf segments)).mpr decoded.text
  obtain ⟨segment, later, rfl⟩ := List.exists_cons_of_ne_nil (once_decoded_some decoded)
  have whole : (pathOf (segment :: later)).length = 1 + (List.intercalate [slash] (segment :: later)).length :=
    Nat.add_comm _ 1
  have start : Standing (pathOf (segment :: later)).length
      { w := 1, r := 1, cells := storedAll cells 0 (pathOf (segment :: later)) } [] (segment :: later) := by
    refine ⟨Nat.le_refl 1, by dsimp only; omega, ?_, ?_, once_decoded_unmarked decoded, fun _ among => absurd among List.not_mem_nil⟩
    · have dropped := @range_drop _ (storedAll cells 0 (pathOf (segment :: later))) 0 (pathOf (segment :: later)).length 1
        (by omega)
      rw [text] at dropped
      exact dropped
    rw [range_one, ← Nat.zero_add 0]
    exact congrArg (fun c => [c]) (range_at [] text)
  have enough : later.length < (pathOf (segment :: later)).length := by
    have longer : ∀ (first : List Byte) (rest : List (List Byte)),
        rest.length ≤ (List.intercalate [slash] (first :: rest)).length := by
      intro first rest
      induction rest generalizing first with
      | nil => exact Nat.zero_le _
      | cons second rest ih =>
        have shorter := ih second
        rw [intercalate_cons_mark slash first (List.cons_ne_nil _ _), List.length_append, List.length_cons, List.length_cons]
        omega
    have shorter := longer segment later
    omega
  have resolved := resolve_loop_standing start enough
  unfold urlPathResolve
  rw [if_neg (not_not.mpr rooted), decode_fits decoded fits]
  dsimp only
  rw [text, valid]
  dsimp only
  cases evaluated : evalPath [] (segment :: later) with
  | none =>
    rw [evaluated] at resolved
    dsimp only at resolved ⊢
    rw [resolved]
  | some result =>
    rw [evaluated] at resolved
    obtain ⟨done, looped, low, written⟩ := resolved
    dsimp only
    rw [looped]
    exact ⟨done.w, done.cells, rfl, by omega, written⟩

theorem resolve_short (short : outSize < (pathOf segments).length) :
    urlPathResolve rawPath outSize cells = .error .outOfBounds := by
  obtain ⟨rooted, found⟩ := once_decoded_accepted decoded
  have looped := decode_loop_some (apart_reads rawPath cells) rawPath.length { i := 0, w := 0, cells := cells }
    (pathOf segments) (by dsimp only; omega) (Nat.zero_le _) (Nat.le_refl 0) (Nat.zero_le outSize) (fun _ _ => rfl) found
  rw [if_pos (by dsimp only; omega)] at looped
  unfold urlPathResolve
  rw [if_neg (not_not.mpr rooted), looped]

omit decoded

theorem resolve_undecoded (outSize : Nat) (cells : Memory) (undecoded : ¬ ∃ segments, OnceDecoded rawPath segments) :
    ∃ err, urlPathResolve rawPath outSize cells = .error err ∧ err ≠ .permission := by
  unfold urlPathResolve
  by_cases rooted : rawPath.head? = some slash
  · rw [if_neg (not_not.mpr rooted)]
    cases found : (decodedUnits rawPath).bind (accepted pathByte) with
    | none =>
      obtain ⟨err, looped, other⟩ := decode_loop_none (apart_reads rawPath cells) rawPath.length
        { i := 0, w := 0, cells := cells } (by dsimp only; omega) (Nat.le_refl 0) (fun _ _ => rfl) found
      rw [looped]
      exact ⟨err, rfl, other⟩
    | some text =>
      have looped := decode_loop_some (apart_reads rawPath cells) rawPath.length { i := 0, w := 0, cells := cells }
        text (by dsimp only; omega) (Nat.zero_le _) (Nat.le_refl 0) (Nat.zero_le outSize) (fun _ _ => rfl) found
      dsimp only at looped
      by_cases short : outSize < 0 + text.length
      · rw [if_pos short] at looped
        rw [looped]
        exact ⟨_, rfl, nofun⟩
      rw [if_neg short, Nat.zero_add] at looped
      rw [looped]
      dsimp only
      rw [stored_all_range]
      cases valid : Text.Utf.utf8Validate text with
      | error place => exact ⟨_, rfl, nofun⟩
      | ok done => exact absurd (accepted_once_decoded rooted found ((utf8_validate_text text).mp valid)) undecoded
  rw [if_pos rooted]
  exact ⟨_, rfl, nofun⟩

theorem segments_text {front : List (List Byte)} (isText : Utf8Text (List.intercalate [slash] front)) :
    ∀ segment ∈ front, Utf8Text segment := by
  induction front with
  | nil => exact fun _ among => absurd among List.not_mem_nil
  | cons first rest ih =>
    by_cases last : rest = []
    · rw [last, List.intercalate_singleton] at isText
      rw [last]
      exact List.forall_mem_singleton.mpr isText
    rw [intercalate_cons_mark slash first last] at isText
    obtain ⟨firstText, restText⟩ := utf8_text_split isText (by decide)
    exact List.forall_mem_cons.mpr ⟨firstText, ih restText⟩

theorem slash_text {text : List Byte} (isText : Utf8Text text) : Utf8Text (slash :: text) :=
  Utf8Text.char [slash] text (Utf8Char.one slash (by decide)) isText

theorem text_of_segments {front : List (List Byte)} (texts : ∀ segment ∈ front, Utf8Text segment) :
    Utf8Text (List.intercalate [slash] front) := by
  induction front with
  | nil => exact Utf8Text.nil
  | cons first rest ih =>
    obtain ⟨firstText, restTexts⟩ := List.forall_mem_cons.mp texts
    by_cases last : rest = []
    · rw [last, List.intercalate_singleton]
      exact firstText
    rw [intercalate_cons_mark slash first last]
    exact utf8_text_append firstText (slash_text (ih restTexts))

structure IsName (name : List Byte) : Prop where
  kept : isSkipped name = false ∧ isUp name = false
  bytes : ∀ c ∈ name, IsPathByte c
  text : Utf8Text name

theorem names_left (decoded : OnceDecoded rawPath segments) {result : List (List Byte)}
    (evaluated : evalPath [] segments = some result) : ∀ name ∈ result.reverse, IsName name := by
  intro name among
  have texts : ∀ segment ∈ segments, Utf8Text segment := by
    have split := @utf8_text_split [] (List.intercalate [slash] segments) slash decoded.text (by decide)
    exact segments_text split.2
  rcases stack_eval_members evaluated (List.mem_reverse.mp among) with none_ | ⟨inside, plain⟩
  · exact absurd none_ List.not_mem_nil
  · exact ⟨plain, decoded.bytes name inside, texts name inside⟩

theorem last_named {result : List (List Byte)} (evaluated : evalPath [] segments = some result)
    (named : asksDirectory segments = false) : ∃ front last, result.reverse = front ++ [last] := by
  rcases List.eq_nil_or_concat segments with rfl | ⟨front, last, rfl⟩
  · cases named
  rw [List.concat_eq_append] at evaluated named
  unfold asksDirectory at named
  rw [List.getLast?_append_of_ne_nil front (List.cons_ne_nil last []), List.getLast?_singleton] at named
  obtain ⟨notSkipped, notUp⟩ := Bool.or_eq_false_iff.mp named
  unfold evalPath at evaluated
  rw [stack_eval_append] at evaluated
  obtain ⟨before, _, ended⟩ := Option.bind_eq_some_iff.mp evaluated
  have plain : stackEval isSkipped isUp before ([last] ++ []) = _ :=
    stack_eval_plain before (List.forall_mem_singleton.mpr ⟨notSkipped, notUp⟩) []
  rw [List.append_nil] at plain
  rw [plain] at ended
  cases ended
  exact ⟨before.reverse, last, List.reverse_cons⟩

variable {names : List (List Byte)} {directory : Bool}

theorem written_segments (isNames : ∀ name ∈ names, IsName name) (ended : directory = false → ∃ front last, names = front ++ [last]) :
    names ++ (if directory then [[]] else []) ≠ [] ∧
    (∀ segment ∈ names ++ (if directory then [[]] else []), segment = [] ∨ IsName segment) ∧
    (∀ segment ∈ (names ++ (if directory then [[]] else [])).dropLast, IsName segment) := by
  cases directory with
  | true =>
    rw [if_pos rfl, List.dropLast_concat]
    refine ⟨List.append_ne_nil_of_right_ne_nil names (List.cons_ne_nil _ _), ?_, isNames⟩
    intro segment among
    rcases List.mem_append.mp among with name | last
    · exact .inr (isNames segment name)
    · exact .inl (List.mem_singleton.mp last)
  | false =>
    obtain ⟨front, last, rfl⟩ := ended rfl
    rw [if_neg nofun, List.append_nil]
    refine ⟨List.append_ne_nil_of_right_ne_nil front (List.cons_ne_nil _ _), fun segment among => .inr (isNames segment among), ?_⟩
    intro segment among
    exact isNames segment (List.dropLast_subset _ among)

theorem named_unmarked {segment : List Byte} (named : segment = [] ∨ IsName segment) : slash ∉ segment := by
  intro isSlash
  rcases named with rfl | name
  · exact List.not_mem_nil isSlash
  · exact (name.bytes slash isSlash).1 rfl

theorem written_contained (isNames : ∀ name ∈ names, IsName name) (ended : directory = false → ∃ front last, names = front ++ [last]) :
    Contained (writtenPath names directory) := by
  obtain ⟨some_, all, front⟩ := written_segments isNames ended
  have split : ((writtenPath names directory).drop 1).splitOn slash = names ++ (if directory then [[]] else []) :=
    List.splitOn_intercalate slash (fun segment among => named_unmarked (all segment among)) some_
  have plain : ∀ {name : List Byte}, IsName name → name ≠ [] ∧ name ≠ [dot] ∧ name ≠ [dot, dot] := by
    intro name isName
    obtain ⟨notSkipped, notUp⟩ := isName.kept
    unfold isSkipped at notSkipped
    unfold isUp at notUp
    rw [decide_eq_false_iff_not] at notSkipped notUp
    obtain ⟨notEmpty, notDot⟩ := not_or.mp notSkipped
    exact ⟨notEmpty, notDot, notUp⟩
  refine ⟨rfl, ?_, ?_, ?_, ?_⟩
  · rw [split]
    exact fun segment among => (plain (front segment among)).1
  · rw [split]
    intro segment among
    rcases all segment among with rfl | name
    · exact ⟨List.cons_ne_nil _ _ |>.symm, (List.cons_ne_nil _ _).symm⟩
    · exact (plain name).2
  · have slashFine : 0x20 ≤ slash.val ∧ slash.val ≠ 0x7F ∧ slash ≠ backslash := by decide
    have inside : ∀ parts : List (List Byte), (∀ segment ∈ parts, segment = [] ∨ IsName segment) →
        ∀ c ∈ List.intercalate [slash] parts, 0x20 ≤ c.val ∧ c.val ≠ 0x7F ∧ c ≠ backslash := by
      intro parts
      induction parts with
      | nil => exact fun _ _ among => absurd among List.not_mem_nil
      | cons first rest ih =>
        intro named c among
        obtain ⟨firstNamed, restNamed⟩ := List.forall_mem_cons.mp named
        have firstFine : c ∈ first → 0x20 ≤ c.val ∧ c.val ≠ 0x7F ∧ c ≠ backslash := by
          intro inFirst
          rcases firstNamed with rfl | name
          · exact absurd inFirst List.not_mem_nil
          · exact (name.bytes c inFirst).2
        by_cases last : rest = []
        · rw [last, List.intercalate_singleton] at among
          exact firstFine among
        rw [intercalate_cons_mark slash first last] at among
        rcases List.mem_append.mp among with inFirst | after
        · exact firstFine inFirst
        rcases List.mem_cons.mp after with rfl | inRest
        · exact slashFine
        · exact ih restNamed c inRest
    intro c among
    rcases List.mem_cons.mp among with rfl | later
    · exact slashFine
    · exact inside _ all c later
  apply slash_text
  apply text_of_segments
  intro segment among
  rcases all segment among with rfl | name
  · exact Utf8Text.nil
  · exact name.text

theorem decoded_units_free {part : List Byte} (free : percent ∉ part) :
    decodedUnits part = some (part.map fun c => (c, false)) := by
  induction part with
  | nil => rfl
  | cons c part ih =>
    have plain : c ≠ percent := fun same => free (List.mem_cons.mpr (.inl same.symm))
    rw [decoded_units_plain plain, ih fun among => free (List.mem_cons_of_mem c among)]
    rfl

theorem part_inside {parts : List (List Byte)} {part : List Byte} (among : part ∈ parts) {c : Byte} (inside : c ∈ part) :
    c ∈ List.intercalate [slash] parts := by
  induction parts with
  | nil => exact absurd among List.not_mem_nil
  | cons first rest ih =>
    by_cases last : rest = []
    · rw [last] at among ⊢
      rw [List.intercalate_singleton, ← List.mem_singleton.mp among]
      exact inside
    rw [intercalate_cons_mark slash first last]
    rcases List.mem_cons.mp among with rfl | later
    · exact List.mem_append_left _ inside
    · exact List.mem_append_right _ (List.mem_cons_of_mem slash (ih later))

theorem written_again (isNames : ∀ name ∈ names, IsName name) (ended : directory = false → ∃ front last, names = front ++ [last])
    (free : percent ∉ writtenPath names directory) :
    OnceDecoded (writtenPath names directory) (names ++ if directory then [[]] else []) ∧
    evalPath [] (names ++ if directory then [[]] else []) = some names.reverse ∧
    asksDirectory (names ++ if directory then [[]] else []) = directory := by
  obtain ⟨some_, all, _⟩ := written_segments isNames ended
  have contained := written_contained isNames ended
  refine ⟨⟨⟨_, some_, rfl, fun segment among => named_unmarked (all segment among), ?_⟩, ?_, contained.text⟩, ?_, ?_⟩
  · apply List.map_congr_left
    intro part among
    unfold percentDecoded
    rw [decoded_units_free fun escape => free (List.mem_cons_of_mem slash (part_inside among escape)), Option.map_some, List.map_map]
    exact congrArg some (List.map_id part)
  · intro segment among c inside
    rcases all segment among with rfl | name
    · exact absurd inside List.not_mem_nil
    · exact name.bytes c inside
  · unfold evalPath
    rw [stack_eval_plain [] (fun name among => (isNames name among).kept), List.append_nil]
    cases directory with
    | true | false => rfl
  unfold asksDirectory
  cases directory with
  | true =>
    rw [if_pos rfl, List.getLast?_append_of_ne_nil names (List.cons_ne_nil [] [])]
    rfl
  | false =>
    obtain ⟨front, last, rfl⟩ := ended rfl
    obtain ⟨notSkipped, notUp⟩ := (isNames last (List.mem_append_right front List.mem_cons_self)).kept
    rw [if_neg nofun, List.append_nil, List.getLast?_append_of_ne_nil front (List.cons_ne_nil last []),
      List.getLast?_singleton]
    dsimp only
    rw [notSkipped, notUp]
    rfl

def writtenBytes (answer : Nat × Memory) : List Byte := range answer.2 0 answer.1

theorem resolved_contained {answer : Nat × Memory} (answered : urlPathResolve rawPath outSize cells = .ok answer) :
    ∃ segments result, OnceDecoded rawPath segments ∧ evalPath [] segments = some result ∧ answer.1 ≤ outSize ∧
      writtenBytes answer = writtenPath result.reverse (asksDirectory segments) ∧ Contained (writtenBytes answer) ∧
      (percent ∉ writtenBytes answer → ∀ sizeAgain cellsAgain, answer.1 ≤ sizeAgain →
        (urlPathResolve (writtenBytes answer) sizeAgain cellsAgain).map writtenBytes = .ok (writtenBytes answer)) := by
  by_cases undecoded : ¬ ∃ segments, OnceDecoded rawPath segments
  · obtain ⟨err, failed, _⟩ := resolve_undecoded outSize cells undecoded
    rw [failed] at answered
    cases answered
  obtain ⟨segments, decoded⟩ := not_not.mp undecoded
  by_cases short : outSize < (pathOf segments).length
  · rw [resolve_short decoded short] at answered
    cases answered
  have resolved := resolve_fits cells decoded (Nat.not_lt.mp short)
  cases evaluated : evalPath [] segments with
  | none =>
    rw [evaluated] at resolved
    dsimp only at resolved
    rw [resolved] at answered
    cases answered
  | some result =>
    rw [evaluated] at resolved
    obtain ⟨written, after, found, low, path⟩ := resolved
    rw [found] at answered
    cases answered
    have isNames := names_left decoded evaluated
    have ended : asksDirectory segments = false → _ := fun named => last_named evaluated named
    have same : writtenBytes (written, after) = writtenPath result.reverse (asksDirectory segments) := path
    refine ⟨segments, result, decoded, evaluated, low, path, ?_, ?_⟩
    · rw [same]
      exact written_contained isNames ended
    intro free sizeAgain cellsAgain room
    rw [same] at free ⊢
    obtain ⟨again, evaluatedAgain, directoryAgain⟩ := written_again isNames ended free
    have long : (writtenPath result.reverse (asksDirectory segments)).length = written := by
      rw [← same]
      exact range_length 0 written
    have resolvedAgain := resolve_fits cellsAgain again (le_trans (le_of_eq long) room)
    rw [evaluatedAgain] at resolvedAgain
    obtain ⟨writtenAgain, afterAgain, foundAgain, _, pathAgain⟩ := resolvedAgain
    rw [List.reverse_reverse, directoryAgain] at pathAgain
    rw [foundAgain]
    exact congrArg Except.ok pathAgain

theorem permission_iff (decoded : OnceDecoded rawPath segments) (fits : (pathOf segments).length ≤ outSize) :
    urlPathResolve rawPath outSize cells = .error .permission ↔
      ∃ before later, segments = before ++ [dot, dot] :: later ∧ evalPath [] before = some [] := by
  have popped : evalPath [] segments = none ↔
      ∃ before later, segments = before ++ [dot, dot] :: later ∧ evalPath [] before = some [] := by
    unfold evalPath
    rw [stack_eval_none]
    constructor
    all_goals intro found
    · obtain ⟨before, segment, later, split, up, empty⟩ := found
      unfold isUp at up
      rw [decide_eq_true_iff] at up
      exact ⟨before, later, up ▸ split, empty⟩
    obtain ⟨before, later, split, empty⟩ := found
    exact ⟨before, [dot, dot], later, split, by decide, empty⟩
  rw [← popped]
  have resolved := resolve_fits cells decoded fits
  cases evaluated : evalPath [] segments with
  | none =>
    rw [evaluated] at resolved
    exact iff_of_true resolved rfl
  | some result =>
    rw [evaluated] at resolved
    obtain ⟨written, after, found, _⟩ := resolved
    rw [found]
    exact iff_of_false nofun nofun

theorem decode_in_place (size : Nat) (plusIsSpace : Bool) (other : Memory) :
    (urlDecode inPlace size outSize plusIsSpace cells).map writtenBytes =
      (urlDecode (apartFrom (range cells 0 size)) size outSize plusIsSpace other).map writtenBytes := by
  have agree := decode_loops_agree outSize (formByte plusIsSpace) (in_place_reads cells size)
    (apart_reads (range cells 0 size) other) size 0 0 cells other (le_refl 0) (fun _ _ => rfl) (fun _ _ => rfl) rfl
  rw [range_length] at agree
  unfold urlDecode
  revert agree
  cases decodeLoop inPlace size outSize (formByte plusIsSpace) size { i := 0, w := 0, cells := cells } with
  | error err =>
    cases decodeLoop (apartFrom (range cells 0 size)) size outSize (formByte plusIsSpace) size
        { i := 0, w := 0, cells := other } with
    | error otherErr => exact fun same => congrArg Except.error (Except.error.inj same)
    | ok st => exact nofun
  | ok st =>
    cases decodeLoop (apartFrom (range cells 0 size)) size outSize (formByte plusIsSpace) size
        { i := 0, w := 0, cells := other } with
    | error otherErr => exact nofun
    | ok otherSt => exact fun same => congrArg Except.ok (Except.ok.inj same)

/-- The resolution of every raw path, and where it reads and writes. -/
theorem path_resolve_contained (rawPath : List Byte) (outSize : Nat) (cells : Memory) :
    (∀ answer, urlPathResolve rawPath outSize cells = .ok answer →
      ∃ segments result, OnceDecoded rawPath segments ∧ evalPath [] segments = some result ∧ answer.1 ≤ outSize ∧
        writtenBytes answer = writtenPath result.reverse (asksDirectory segments) ∧ Contained (writtenBytes answer) ∧
        (percent ∉ writtenBytes answer → ∀ sizeAgain cellsAgain, answer.1 ≤ sizeAgain →
          (urlPathResolve (writtenBytes answer) sizeAgain cellsAgain).map writtenBytes = .ok (writtenBytes answer))) ∧
    (∀ segments, OnceDecoded rawPath segments → (pathOf segments).length ≤ outSize →
      (urlPathResolve rawPath outSize cells = .error .permission ↔
        ∃ before later, segments = before ++ [dot, dot] :: later ∧ evalPath [] before = some [])) ∧
    (urlPathResolve rawPath outSize cells = .error .permission → ∃ segments, OnceDecoded rawPath segments) ∧
    (∀ st, Passes (apartFrom rawPath) rawPath.length outSize pathByte { i := 0, w := 0, cells := cells } st → st.w ≤ st.i) ∧
    (∀ n decodedCells st, Rounds n { w := 1, r := 1, cells := decodedCells } st → st.w ≤ st.r) ∧
    (∀ size plusIsSpace st, Passes inPlace size outSize (formByte plusIsSpace) { i := 0, w := 0, cells := cells } st →
        st.w ≤ st.i ∧ ∀ j, st.i ≤ j → st.cells j = cells j) ∧
    (∀ size plusIsSpace other, (urlDecode inPlace size outSize plusIsSpace cells).map writtenBytes =
        (urlDecode (apartFrom (range cells 0 size)) size outSize plusIsSpace other).map writtenBytes) := by
  refine ⟨fun answer => resolved_contained, fun segments => permission_iff, ?_, ?_, ?_, ?_, decode_in_place⟩
  · intro refused
    by_contra undecoded
    obtain ⟨err, failed, other⟩ := resolve_undecoded outSize cells undecoded
    rw [failed] at refused
    exact other (Except.error.inj refused)
  · exact fun st passes => (decode_never_passes (le_refl 0) passes).1
  · exact fun n decodedCells st rounds => resolve_never_passes (le_refl 1) rounds
  · exact fun size plusIsSpace st passes => decode_never_passes (le_refl 0) passes

end ProvenC.Url.Containment
