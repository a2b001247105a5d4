import ProvenC.Http.Feeding

/-!
# The chunked grammar

A chunked body is chunks, a last chunk of size zero and a trailer section.
-/

namespace ProvenC.Http.Chunks

open List Bytes Http.Head Http.Body Http.Feeding Lib.Streaming

def sizeFrom (value : Nat) (digits : List Byte) : Nat := digits.foldl (fun v c => v * 16 + (httpHex c).getD 0) value

def HexDigits (digits : List Byte) : Prop := ∀ c ∈ digits, (httpHex c).isSome = true

def FieldBytes (bytes : List Byte) : Prop := ∀ c ∈ bytes, httpIsFieldByte c = true

def ChunkExt (ext : List Byte) : Prop := ext = [] ∨ ∃ rest, ext = semicolon :: rest ∧ FieldBytes rest

def ChunkLine (line : List Byte) (size : Nat) : Prop :=
  ∃ digits ext, line = digits ++ ext ++ crlf ∧ digits ≠ [] ∧ digits.length ≤ 16 ∧ HexDigits digits ∧ ChunkExt ext ∧
    size = sizeFrom 0 digits

def FieldLine (line : List Byte) : Prop :=
  ∃ name value, line = name ++ colon :: value ++ crlf ∧ httpIsToken name = true ∧ FieldBytes value

inductive TrailerSection : List Byte → Prop where
  | last : TrailerSection crlf
  | field (line rest : List Byte) (isField : FieldLine line) (isSection : TrailerSection rest) : TrailerSection (line ++ rest)

/-- A chunked body of at most `room` bytes of data. -/
inductive ChunkedBody (lineMax sectionMax : Nat) : Nat → List Byte → List Byte → Prop where
  | last (room : Nat) (line trailers : List Byte) (isLine : ChunkLine line 0) (lineFits : line.length ≤ lineMax)
      (isSection : TrailerSection trailers) (sectionFits : trailers.length ≤ sectionMax) :
      ChunkedBody lineMax sectionMax room (line ++ trailers) []
  | chunk (room : Nat) (line piece rest data : List Byte) (isLine : ChunkLine line piece.length) (lineFits : line.length ≤ lineMax)
      (some_ : piece ≠ []) (pieceFits : piece.length ≤ room)
      (isBody : ChunkedBody lineMax sectionMax (room - piece.length) rest data) :
      ChunkedBody lineMax sectionMax room (line ++ (piece ++ (crlf ++ rest))) (piece ++ data)

theorem chunked_wider {lineMax sectionMax lineMax' sectionMax' room : Nat} {text data : List Byte}
    (isBody : ChunkedBody lineMax sectionMax room text data) (lines : lineMax ≤ lineMax') (sections : sectionMax ≤ sectionMax') :
    ChunkedBody lineMax' sectionMax' room text data := by
  induction isBody with
  | last room line trailers isLine lineFits isSection sectionFits =>
    exact ChunkedBody.last room line trailers isLine (le_trans lineFits lines) isSection (le_trans sectionFits sections)
  | chunk room line piece rest data isLine lineFits some_ pieceFits _ ih =>
    exact ChunkedBody.chunk room line piece rest data isLine (le_trans lineFits lines) some_ pieceFits ih

def lineLimit : Nat := httpMaxChunkLine + 1

def sectionLimit (body : HttpBody) : Nat :=
  if body.trailers.isSome then min body.trailerCap (httpMaxTrailerBytes + 1) else httpMaxTrailerBytes + 1

def roomOf (body : HttpBody) : Nat := body.maxBody - body.total

def AfterLine (body : HttpBody) (size : Nat) (text data : List Byte) : Prop :=
  (size = 0 ∧ data = [] ∧ TrailerSection text ∧ text.length ≤ sectionLimit body) ∨ (size ≠ 0 ∧ size ≤ roomOf body ∧
      ∃ piece rest more, text = piece ++ (crlf ++ rest) ∧ piece.length = size ∧ data = piece ++ more ∧
        ChunkedBody lineLimit (sectionLimit body) (roomOf body - size) rest more)

def SectionFits (body : HttpBody) (text data : List Byte) : Prop :=
  data = [] ∧ body.lineBytes + text.length ≤ sectionLimit body

def Inner (state : BodyState) (text : List Byte) : Prop :=
  match state with
  | .trailerStart => TrailerSection text
  | .trailerName =>
    ∃ name value rest, text = name ++ (colon :: (value ++ (crlf ++ rest))) ∧ name.all httpIsTchar = true ∧ FieldBytes value ∧
      TrailerSection rest
  | .trailerValue => ∃ value rest, text = value ++ (crlf ++ rest) ∧ FieldBytes value ∧ TrailerSection rest
  | .trailerLf => ∃ rest, text = lineFeed :: rest ∧ TrailerSection rest
  | .finalLf => text = [lineFeed]
  | _ => False

def Left (body : HttpBody) (text data : List Byte) : Prop :=
  match body.state with
  | .size =>
    ∃ digits ext rest, text = digits ++ (ext ++ (crlf ++ rest)) ∧ HexDigits digits ∧ body.sizeDigits + digits.length ≤ 16 ∧
      0 < body.sizeDigits + digits.length ∧ ChunkExt ext ∧
      body.lineBytes + digits.length + ext.length < httpMaxChunkLine ∧
      AfterLine body (sizeFrom body.remaining digits) rest data
  | .ext =>
    ∃ ext rest, text = ext ++ (crlf ++ rest) ∧ FieldBytes ext ∧ body.lineBytes + ext.length < httpMaxChunkLine ∧
      AfterLine body body.remaining rest data
  | .sizeLf => ∃ rest, text = lineFeed :: rest ∧ AfterLine body body.remaining rest data
  | .data =>
    body.lineBytes < httpMaxChunkLine ∧
    ∃ piece rest more, text = piece ++ (crlf ++ rest) ∧ piece.length = body.remaining ∧ data = piece ++ more ∧
      ChunkedBody lineLimit (sectionLimit body) (roomOf body - body.remaining) rest more
  | .dataCr =>
    body.lineBytes < httpMaxChunkLine ∧
    ∃ rest, text = crlf ++ rest ∧ ChunkedBody lineLimit (sectionLimit body) (roomOf body) rest data
  | .dataLf => ∃ rest, text = lineFeed :: rest ∧ ChunkedBody lineLimit (sectionLimit body) (roomOf body) rest data
  | .trailerStart | .trailerName | .trailerValue | .trailerLf | .finalLf => Inner body.state text ∧ SectionFits body text data
  | .failed => False

structure Chunking (body : HttpBody) : Prop where
  kind : body.kind = .chunked
  digits : body.state = .size → body.remaining < 16 ^ body.sizeDigits ∧ body.sizeDigits ≤ 16
  some_ : body.state = .data → 0 < body.remaining
  counted : body.state.inTrailers = true → body.lineBytes ≤ httpMaxTrailerBytes

def LeadsTo (reaction : Reaction HttpBody Byte ProvenErr) (text data : List Byte) : Prop :=
  match reaction with
  | .on next items => ∃ more, data = items ++ more ∧ Left next text more
  | .ended _ items => text = [] ∧ data = items
  | .failed _ _ => False

variable {body : HttpBody} {c : Byte} {text data : List Byte}

theorem hex_lt {c : Byte} {d : Nat} (found : httpHex c = some d) : d < 16 := by
  have nine : '9'.toNat = 57 := rfl
  have zero : '0'.toNat = 48 := rfl
  have small : 'a'.toNat = 97 := rfl
  have small' : 'f'.toNat = 102 := rfl
  have large : 'A'.toNat = 65 := rfl
  have large' : 'F'.toNat = 70 := rfl
  unfold httpHex at found
  split_ifs at found <;> cases found <;> omega

theorem hex_semicolon : httpHex semicolon = none := by decide

theorem hex_return : httpHex carriageReturn = none := by decide

theorem return_not_field : httpIsFieldByte carriageReturn = false := by decide

theorem return_not_tchar : httpIsTchar carriageReturn = false := by decide

theorem colon_not_tchar : httpIsTchar colon = false := by decide

theorem return_not_semicolon : carriageReturn ≠ semicolon := by decide

theorem crlf_cons (rest : List Byte) : crlf ++ rest = carriageReturn :: lineFeed :: rest := rfl

theorem digit_added {value digits d : Nat} (small : value < 16 ^ digits) (few : digits < 16) (digit : d < 16) :
    ((value <<< 4) ||| d) % u64End = value * 16 + d ∧ value * 16 + d < 16 ^ (digits + 1) := by
  have bits : d < 2 ^ 4 := digit
  rw [← Nat.shiftLeft_add_eq_or_of_lt bits, Nat.shiftLeft_eq]
  have next : value * 16 + d < 16 ^ (digits + 1) := by
    rw [pow_succ]
    omega
  have most : 16 ^ (digits + 1) ≤ 16 ^ 16 := Nat.pow_le_pow_right (by decide) few
  have wide : (16 : Nat) ^ 16 = u64End := by decide
  exact ⟨Nat.mod_eq_of_lt (by omega), next⟩

theorem byte_outside (kind : body.kind = .chunked) (state : body.state ≠ .data) (outside : body.state.inTrailers = false) :
    bodyByte body c = match bodySwitch body c with
      | .count next =>
        match countByte next with
        | .failed next err => .failed { next with state := .failed } err
        | .ended next => .ended next []
        | .on next | .count next => .on next []
      | .failed next err => .failed { next with state := .failed } err
      | .ended next => .ended next []
      | .on next => .on next [] := by
  have keeps : keepByte body c = some body := by
    unfold keepByte
    cases body.trailers with
    | none => rfl
    | some buf =>
      dsimp only
      rw [outside]
      rfl
  rw [body_byte_framing (by rw [kind]; exact nofun) state]
  unfold bodyTurn
  rw [keeps]
  dsimp only
  cases bodySwitch body c <;> rfl

theorem on_nothing (next : HttpBody) : LeadsTo (.on next []) text data ↔ Left next text data := by
  constructor
  · intro leads
    obtain ⟨more, rfl, left⟩ := leads
    exact left
  · exact fun left => ⟨data, rfl, left⟩

theorem count_outside {next : HttpBody} (outside : next.state.inTrailers = false) : LeadsTo (match countByte next with
        | .failed next err => .failed { next with state := .failed } err
        | .ended next => .ended next []
        | .on next | .count next => .on next []) text data ↔
      next.lineBytes < httpMaxChunkLine ∧ Left { next with lineBytes := next.lineBytes + 1 } text data := by
  have plain : ¬ next.state.inTrailers = true := Bool.eq_false_iff.mp outside
  unfold countByte
  dsimp only
  rw [if_neg plain]
  by_cases past : httpMaxChunkLine < next.lineBytes + 1
  · rw [if_pos past]
    exact iff_of_false id fun wrong => absurd wrong.1 (by omega)
  rw [if_neg past]
  dsimp only
  rw [on_nothing]
  exact ⟨fun left => ⟨by omega, left⟩, fun both => both.2⟩

variable (chunking : Chunking body)
include chunking

theorem left_size (state : body.state = .size) : Left body (c :: text) data ↔ LeadsTo (bodyByte body c) text data := by
  have few := chunking.digits state
  rw [byte_outside chunking.kind (by rw [state]; exact nofun) (by rw [state]; rfl)]
  obtain ⟨kind, _, sizeDigits, done, remaining, total, maxBody, lineBytes, trailerCap, trailers⟩ := body
  cases state
  unfold bodySwitch
  dsimp only at few ⊢
  obtain ⟨small, few⟩ := few
  cases hex : httpHex c with
  | some d =>
    have digit := hex_lt hex
    dsimp only
    by_cases many : 16 ≤ sizeDigits
    · rw [if_pos many]
      apply iff_of_false _ id
      intro left
      obtain ⟨digits, ext, rest, split, _, most, _, isExt, _⟩ := left
      dsimp only at most
      cases digits with
      | cons first digits =>
        rw [length_cons] at most
        omega
      | nil =>
        rcases isExt with rfl | ⟨more, rfl, _⟩
        · rw [(List.cons.inj split).1, hex_return] at hex
          cases hex
        rw [(List.cons.inj split).1, hex_semicolon] at hex
        cases hex
    obtain ⟨added, _⟩ := digit_added small (not_le.mp many) digit
    rw [if_neg many]
    dsimp only
    rw [added, count_outside rfl]
    unfold Left
    dsimp only
    constructor
    all_goals intro left
    · obtain ⟨digits, ext, rest, split, hexes, most, _, isExt, short, after⟩ := left
      cases digits with
      | nil =>
        rcases isExt with rfl | ⟨more, rfl, _⟩
        · rw [(List.cons.inj split).1, hex_return] at hex
          cases hex
        rw [(List.cons.inj split).1, hex_semicolon] at hex
        cases hex
      | cons first digits =>
        obtain ⟨rfl, later⟩ := List.cons.inj split
        obtain ⟨_, hexes⟩ := forall_mem_cons.mp hexes
        rw [length_cons] at most short
        rw [sizeFrom, foldl_cons, hex, Option.getD_some] at after
        exact ⟨by omega, digits, ext, rest, later, hexes, by omega, by omega, isExt, by omega, after⟩
    obtain ⟨_, digits, ext, rest, rfl, hexes, most, _, isExt, short, after⟩ := left
    have isHex : (httpHex c).isSome = true := by rw [hex]; rfl
    refine ⟨c :: digits, ext, rest, rfl, forall_mem_cons.mpr ⟨isHex, hexes⟩, ?_, ?_, isExt, ?_, ?_⟩
    · rw [length_cons]
      omega
    · rw [length_cons]
      omega
    · rw [length_cons]
      omega
    rw [sizeFrom, foldl_cons, hex, Option.getD_some]
    exact after
  | none =>
    dsimp only
    have noDigit : ∀ {digits : List Byte} {tail_ : List Byte}, HexDigits digits → c :: text = digits ++ tail_ → digits = [] := by
      intro digits tail_ hexes split
      cases digits with
      | nil => rfl
      | cons first digits =>
        rw [← (List.cons.inj split).1] at hexes
        have isHex := hexes c mem_cons_self
        rw [hex] at isHex
        cases isHex
    by_cases first : sizeDigits = 0
    · rw [if_pos first]
      apply iff_of_false _ id
      intro left
      obtain ⟨digits, ext, rest, split, hexes, _, positive, _⟩ := left
      rw [noDigit hexes split, first] at positive
      exact absurd positive (lt_irrefl 0)
    rw [if_neg first]
    by_cases isSemicolon : c = semicolon
    · rw [if_pos isSemicolon]
      dsimp only
      rw [count_outside rfl]
      unfold Left
      dsimp only
      constructor
      all_goals intro left
      · obtain ⟨digits, ext, rest, split, hexes, _, _, isExt, short, after⟩ := left
        have none_ := noDigit hexes split
        subst none_
        rcases isExt with rfl | ⟨more, rfl, fields⟩
        · rw [(List.cons.inj split).1] at isSemicolon
          exact absurd isSemicolon return_not_semicolon
        obtain ⟨_, later⟩ := List.cons.inj split
        rw [length_nil, length_cons] at short
        exact ⟨by omega, more, rest, later, fields, by omega, after⟩
      obtain ⟨_, more, rest, rfl, fields, short, after⟩ := left
      refine ⟨[], semicolon :: more, rest, by rw [isSemicolon]; rfl, fun _ wrong => absurd wrong not_mem_nil, ?_, ?_,
        .inr ⟨more, rfl, fields⟩, ?_, after⟩
      · rw [length_nil]
        exact few
      · rw [length_nil]
        omega
      rw [length_nil, length_cons]
      omega
    rw [if_neg isSemicolon]
    by_cases isReturn : c = carriageReturn
    · rw [if_pos isReturn]
      dsimp only
      rw [count_outside rfl]
      unfold Left
      dsimp only
      constructor
      all_goals intro left
      · obtain ⟨digits, ext, rest, split, hexes, _, _, isExt, short, after⟩ := left
        have none_ := noDigit hexes split
        subst none_
        rcases isExt with rfl | ⟨more, rfl, _⟩
        · obtain ⟨_, later⟩ := List.cons.inj split
          rw [length_nil] at short
          exact ⟨by omega, rest, later, after⟩
        · exact absurd (List.cons.inj split).1 isSemicolon
      obtain ⟨short, rest, rfl, after⟩ := left
      refine ⟨[], [], rest, by rw [isReturn]; rfl, fun _ wrong => absurd wrong not_mem_nil, ?_, ?_, .inl rfl, ?_, after⟩
      all_goals rw [length_nil]
      · exact few
      · omega
      · omega
    rw [if_neg isReturn]
    apply iff_of_false _ id
    intro left
    obtain ⟨digits, ext, rest, split, hexes, _, _, isExt, _⟩ := left
    have none_ := noDigit hexes split
    subst none_
    rcases isExt with rfl | ⟨more, rfl, _⟩
    · exact isReturn (List.cons.inj split).1
    · exact isSemicolon (List.cons.inj split).1

theorem left_ext (state : body.state = .ext) : Left body (c :: text) data ↔ LeadsTo (bodyByte body c) text data := by
  rw [byte_outside chunking.kind (by rw [state]; exact nofun) (by rw [state]; rfl)]
  obtain ⟨kind, _, sizeDigits, done, remaining, total, maxBody, lineBytes, trailerCap, trailers⟩ := body
  cases state
  unfold bodySwitch
  dsimp only
  by_cases isReturn : c = carriageReturn
  · rw [if_pos isReturn]
    dsimp only
    rw [count_outside rfl]
    unfold Left
    dsimp only
    constructor
    all_goals intro left
    · obtain ⟨ext, rest, split, fields, short, after⟩ := left
      cases ext with
      | nil =>
        rw [length_nil] at short
        exact ⟨by omega, rest, (List.cons.inj split).2, after⟩
      | cons first ext =>
        have isField := fields first mem_cons_self
        rw [← (List.cons.inj split).1, isReturn, return_not_field] at isField
        cases isField
    obtain ⟨short, rest, rfl, after⟩ := left
    exact ⟨[], rest, by rw [isReturn]; rfl, fun _ wrong => absurd wrong not_mem_nil, by rw [length_nil]; omega, after⟩
  rw [if_neg isReturn]
  cases field : httpIsFieldByte c with
  | false =>
    rw [if_pos rfl]
    apply iff_of_false _ id
    intro left
    obtain ⟨ext, rest, split, fields, _⟩ := left
    cases ext with
    | nil => exact isReturn (List.cons.inj split).1
    | cons first ext =>
      have isField := fields first mem_cons_self
      rw [← (List.cons.inj split).1, field] at isField
      cases isField
  | true =>
    rw [if_neg nofun]
    dsimp only
    rw [count_outside rfl]
    unfold Left
    dsimp only
    constructor
    all_goals intro left
    · obtain ⟨ext, rest, split, fields, short, after⟩ := left
      cases ext with
      | nil => exact absurd (List.cons.inj split).1 isReturn
      | cons first ext =>
        rw [length_cons] at short
        exact ⟨by omega, ext, rest, (List.cons.inj split).2, (forall_mem_cons.mp fields).2, by omega, after⟩
    obtain ⟨_, ext, rest, rfl, fields, short, after⟩ := left
    exact ⟨c :: ext, rest, rfl, forall_mem_cons.mpr ⟨field, fields⟩, by rw [length_cons]; omega, after⟩

theorem left_size_lf (state : body.state = .sizeLf) :
    Left body (c :: text) data ↔ LeadsTo (bodyByte body c) text data := by
  rw [byte_outside chunking.kind (by rw [state]; exact nofun) (by rw [state]; rfl)]
  obtain ⟨kind, _, sizeDigits, done, remaining, total, maxBody, lineBytes, trailerCap, trailers⟩ := body
  cases state
  unfold bodySwitch
  dsimp only
  by_cases isFeed : c = lineFeed
  · have same : ∀ size, Left ⟨kind, .sizeLf, sizeDigits, done, size, total, maxBody, lineBytes, trailerCap, trailers⟩ (c :: text) data ↔
        AfterLine ⟨kind, .sizeLf, sizeDigits, done, size, total, maxBody, lineBytes, trailerCap, trailers⟩ size text data := by
      intro size
      unfold Left
      dsimp only
      constructor
      · intro left
        obtain ⟨rest, split, after⟩ := left
        rw [(List.cons.inj split).2]
        exact after
      · exact fun after => ⟨text, by rw [isFeed], after⟩
    rw [if_neg (not_not.mpr isFeed), same]
    by_cases last : remaining = 0
    · rw [if_pos last]
      dsimp only
      rw [on_nothing]
      unfold Left SectionFits AfterLine
      dsimp only
      rw [zero_add]
      constructor
      · intro after
        rcases after with ⟨_, nothing, isSection, short⟩ | ⟨more, _⟩
        · exact ⟨isSection, nothing, short⟩
        · exact absurd last more
      intro left
      obtain ⟨isSection, nothing, short⟩ := left
      exact .inl ⟨last, nothing, isSection, short⟩
    rw [if_neg last]
    by_cases room : maxBody - total < remaining
    · rw [if_pos room]
      apply iff_of_false _ id
      intro after
      rcases after with ⟨none_, _⟩ | ⟨_, fits, _⟩
      · exact last none_
      · exact absurd fits (not_le.mpr room)
    rw [if_neg room]
    dsimp only
    rw [on_nothing]
    unfold Left AfterLine
    dsimp only
    constructor
    · intro after
      rcases after with ⟨none_, _⟩ | ⟨_, _, chunk⟩
      · exact absurd none_ last
      · exact ⟨by decide, chunk⟩
    · exact fun left => .inr ⟨last, not_lt.mp room, left.2⟩
  rw [if_pos isFeed]
  apply iff_of_false _ id
  intro left
  obtain ⟨rest, split, _⟩ := left
  exact isFeed (List.cons.inj split).1

theorem left_data (state : body.state = .data) : Left body (c :: text) data ↔ LeadsTo (bodyByte body c) text data := by
  have positive := chunking.some_ state
  have notClose : body.kind ≠ .untilClose := by
    rw [chunking.kind]
    exact nofun
  have notLength : body.kind ≠ .length := by
    rw [chunking.kind]
    exact nofun
  unfold bodyByte
  rw [if_neg notClose, if_pos state]
  obtain ⟨kind, _, sizeDigits, done, remaining, total, maxBody, lineBytes, trailerCap, trailers⟩ := body
  cases state
  dsimp only at positive notLength ⊢
  by_cases last : remaining - 1 = 0
  · rw [if_pos last, if_neg notLength]
    have one : remaining = 1 := by omega
    subst one
    unfold Left LeadsTo
    constructor
    · intro left
      obtain ⟨short, piece, rest, more, split, long, rfl, isBody⟩ := left
      obtain ⟨first, rfl⟩ := length_eq_one_iff.mp long
      obtain ⟨rfl, rfl⟩ := List.cons.inj split
      exact ⟨more, rfl, short, rest, rfl, isBody⟩
    intro leads
    obtain ⟨more, rfl, short, rest, rfl, isBody⟩ := leads
    exact ⟨short, [c], rest, more, rfl, rfl, rfl, isBody⟩
  rw [if_neg last]
  have room : maxBody - (total + 1) - (remaining - 1) = maxBody - total - remaining := by omega
  unfold LeadsTo Left
  dsimp only [roomOf]
  rw [room]
  constructor
  · intro left
    obtain ⟨short, piece, rest, more, split, long, rfl, isBody⟩ := left
    cases piece with
    | nil => exact absurd long.symm (ne_of_gt positive)
    | cons first piece =>
      obtain ⟨rfl, rfl⟩ := List.cons.inj split
      rw [length_cons] at long
      exact ⟨piece ++ more, rfl, short, piece, rest, more, rfl, by omega, rfl, isBody⟩
  intro leads
  obtain ⟨_, rfl, short, piece, rest, more, rfl, long, rfl, isBody⟩ := leads
  exact ⟨short, c :: piece, rest, more, rfl, by rw [length_cons]; omega, rfl, isBody⟩

theorem left_data_cr (state : body.state = .dataCr) :
    Left body (c :: text) data ↔ LeadsTo (bodyByte body c) text data := by
  rw [byte_outside chunking.kind (by rw [state]; exact nofun) (by rw [state]; rfl)]
  obtain ⟨kind, _, sizeDigits, done, remaining, total, maxBody, lineBytes, trailerCap, trailers⟩ := body
  cases state
  unfold bodySwitch
  by_cases isReturn : c = carriageReturn
  · rw [if_neg (not_not.mpr isReturn)]
    rw [count_outside rfl]
    unfold Left
    constructor
    all_goals intro left
    · obtain ⟨short, rest, split, isBody⟩ := left
      exact ⟨short, rest, (List.cons.inj split).2, isBody⟩
    obtain ⟨short, rest, rfl, isBody⟩ := left
    exact ⟨short, rest, by rw [isReturn]; rfl, isBody⟩
  rw [if_pos isReturn]
  apply iff_of_false _ id
  intro left
  obtain ⟨_, rest, split, _⟩ := left
  exact isReturn (List.cons.inj split).1

omit chunking in
theorem left_fresh (state : body.state = .size) (digits : body.sizeDigits = 0) (remaining : body.remaining = 0)
    (line : body.lineBytes = 0) :
    Left body text data ↔ ChunkedBody lineLimit (sectionLimit body) (roomOf body) text data := by
  unfold Left
  rw [state, digits, remaining, line]
  have longLine : ∀ digits ext : List Byte, (digits ++ ext ++ crlf).length ≤ lineLimit ↔
      0 + digits.length + ext.length < httpMaxChunkLine := by
    intro digits ext
    have limit : lineLimit = httpMaxChunkLine + 1 := rfl
    have two : crlf.length = 2 := rfl
    rw [length_append, length_append, limit, two]
    omega
  constructor
  · intro left
    obtain ⟨digits, ext, rest, rfl, hexes, most, some_, isExt, short, after⟩ := left
    have nonempty : digits ≠ [] := by
      intro none_
      rw [none_] at some_
      exact absurd some_ (lt_irrefl 0)
    have fits := (longLine digits ext).mpr short
    have joined : ∀ more, digits ++ (ext ++ (crlf ++ more)) = (digits ++ ext ++ crlf) ++ more := by
      intro more
      rw [append_assoc, append_assoc]
    rw [zero_add] at most
    rw [joined]
    rcases after with ⟨last, rfl, isSection, sectionFits⟩ | ⟨notLast, room, piece, further, more, rfl, long, rfl, isBody⟩
    · exact ChunkedBody.last _ _ rest ⟨digits, ext, rfl, nonempty, most, hexes, isExt, last.symm⟩ fits isSection sectionFits
    refine ChunkedBody.chunk _ _ piece further more ⟨digits, ext, rfl, nonempty, most, hexes, isExt, long⟩ fits ?_ ?_ ?_
    · intro none_
      rw [none_] at long
      exact notLast long.symm
    · rw [long]
      exact room
    rw [long]
    exact isBody
  intro isBody
  cases isBody with
  | last _ line trailers isLine lineFits isSection sectionFits =>
    obtain ⟨digits, ext, rfl, nonempty, most, hexes, isExt, size⟩ := isLine
    refine ⟨digits, ext, trailers, by rw [append_assoc, append_assoc], hexes, by omega,
      by rw [zero_add]; exact length_pos_iff.mpr nonempty, isExt, (longLine digits ext).mp lineFits,
      .inl ⟨size.symm, rfl, isSection, sectionFits⟩⟩
  | chunk _ line piece rest more isLine lineFits some_ pieceFits isBody =>
    obtain ⟨digits, ext, rfl, nonempty, most, hexes, isExt, size⟩ := isLine
    refine ⟨digits, ext, piece ++ (crlf ++ rest), by rw [append_assoc, append_assoc], hexes, by omega,
      by rw [zero_add]; exact length_pos_iff.mpr nonempty, isExt, (longLine digits ext).mp lineFits, .inr ?_⟩
    rw [← size]
    exact ⟨fun none_ => some_ (eq_nil_of_length_eq_zero none_), pieceFits, piece, rest, more, rfl, rfl, rfl, isBody⟩

theorem left_data_lf (state : body.state = .dataLf) :
    Left body (c :: text) data ↔ LeadsTo (bodyByte body c) text data := by
  rw [byte_outside chunking.kind (by rw [state]; exact nofun) (by rw [state]; rfl)]
  obtain ⟨kind, _, sizeDigits, done, remaining, total, maxBody, lineBytes, trailerCap, trailers⟩ := body
  cases state
  unfold bodySwitch
  dsimp only
  by_cases isFeed : c = lineFeed
  · rw [if_neg (not_not.mpr isFeed)]
    dsimp only
    rw [on_nothing]
    refine Iff.trans ?_ (left_fresh ?_ ?_ ?_ ?_).symm
    rotate_left
    · rfl
    · rfl
    · rfl
    · rfl
    unfold Left
    dsimp only
    constructor
    · intro left
      obtain ⟨rest, split, isBody⟩ := left
      rw [(List.cons.inj split).2]
      exact isBody
    · exact fun isBody => ⟨text, by rw [isFeed], isBody⟩
  rw [if_pos isFeed]
  apply iff_of_false _ id
  intro left
  obtain ⟨rest, split, _⟩ := left
  exact isFeed (List.cons.inj split).1

omit chunking

def keptAt (body : HttpBody) (c : Byte) : HttpBody := { body with trailers := body.trailers.map (·.set body.lineBytes c) }

theorem kept_limit (body : HttpBody) (c : Byte) : sectionLimit (keptAt body c) = sectionLimit body := by
  unfold sectionLimit keptAt
  rw [Option.isSome_map]

theorem byte_inside (kind : body.kind = .chunked) (state : body.state ≠ .data) (inside : body.state.inTrailers = true)
    (room : body.lineBytes < sectionLimit body) : bodyByte body c = match bodySwitch (keptAt body c) c with
      | .count next =>
        match countByte next with
        | .failed next err => .failed { next with state := .failed } err
        | .ended next => .ended next []
        | .on next | .count next => .on next []
      | .failed next err => .failed { next with state := .failed } err
      | .ended next => .ended next []
      | .on next => .on next [] := by
  have keeps : keepByte body c = some (keptAt body c) := by
    unfold keepByte keptAt
    unfold sectionLimit at room
    cases buffer : body.trailers with
    | none =>
      dsimp only
      rw [Option.map_none, ← buffer]
    | some buf =>
      rw [buffer, Option.isSome_some, if_pos rfl] at room
      dsimp only
      rw [if_pos inside, if_neg (by omega), Option.map_some]
  rw [body_byte_framing (by rw [kind]; exact nofun) state]
  unfold bodyTurn
  rw [keeps]
  dsimp only
  cases bodySwitch (keptAt body c) c <;> rfl

theorem byte_full (kind : body.kind = .chunked) (inside : body.state.inTrailers = true)
    (counted : body.lineBytes ≤ httpMaxTrailerBytes) (full : sectionLimit body ≤ body.lineBytes) :
    ¬ LeadsTo (bodyByte body c) text data := by
  have state : body.state ≠ .data := by
    intro wrong
    rw [wrong] at inside
    cases inside
  have none_ : keepByte body c = none := by
    unfold keepByte
    unfold sectionLimit at full
    cases buffer : body.trailers with
    | none =>
      rw [buffer, Option.isSome_none, if_neg nofun] at full
      omega
    | some buf =>
      rw [buffer, Option.isSome_some, if_pos rfl] at full
      dsimp only
      rw [if_pos inside, if_pos (by omega)]
  rw [body_byte_framing (by rw [kind]; exact nofun) state]
  unfold bodyTurn
  rw [none_]
  exact id

theorem count_inside {next : HttpBody} (inside : next.state.inTrailers = true) {Rest : Prop} (some_ : Rest → 0 < text.length)
    (left : Left { next with lineBytes := next.lineBytes + 1 } text data ↔
      Rest ∧ data = [] ∧ next.lineBytes + 1 + text.length ≤ sectionLimit next) :
    LeadsTo
        (match countByte next with
        | .failed next err => .failed { next with state := .failed } err
        | .ended next => .ended next []
        | .on next | .count next => .on next []) text data ↔
      Rest ∧ data = [] ∧ next.lineBytes + 1 + text.length ≤ sectionLimit next := by
  have limit : sectionLimit next ≤ httpMaxTrailerBytes + 1 := by
    unfold sectionLimit
    split_ifs
    · exact Nat.min_le_right _ _
    · exact le_refl _
  unfold countByte
  dsimp only
  rw [if_pos inside]
  by_cases past : httpMaxTrailerBytes < next.lineBytes + 1
  · rw [if_pos past]
    apply iff_of_false id
    intro wrong
    obtain ⟨rest, _, fits⟩ := wrong
    have more := some_ rest
    omega
  rw [if_neg past]
  dsimp only
  rw [on_nothing, left]

theorem section_positive {text : List Byte} (isSection : TrailerSection text) : 0 < text.length := by
  cases isSection with
  | last => decide
  | field line rest isField isSection =>
    obtain ⟨name, value, rfl, _⟩ := isField
    rw [length_append, length_append, length_append, length_cons]
    omega

variable {state : BodyState}

theorem inner_positive (inner : Inner state text) : 0 < text.length := by
  cases state with
  | trailerStart => exact section_positive inner
  | trailerName =>
    obtain ⟨name, value, rest, rfl, _⟩ := inner
    rw [length_append, length_cons]
    omega
  | trailerValue =>
    obtain ⟨value, rest, rfl, _⟩ := inner
    rw [crlf_cons, length_append, length_cons]
    omega
  | trailerLf =>
    obtain ⟨rest, rfl, _⟩ := inner
    exact Nat.succ_pos _
  | finalLf =>
    rw [inner]
    exact Nat.one_pos
  | data | size | ext | sizeLf | dataCr | dataLf | failed => exact absurd inner id

def trailerNext (state : BodyState) (c : Byte) : Option BodyState :=
  match state with
  | .trailerStart =>
    if c = carriageReturn then some .finalLf else if httpIsTchar c then some .trailerName else none
  | .trailerName => if c = colon then some .trailerValue else if httpIsTchar c = false then none else some .trailerName
  | .trailerValue =>
    if c = carriageReturn then some .trailerLf else if httpIsFieldByte c = false then none else some .trailerValue
  | .trailerLf => if c ≠ lineFeed then none else some .trailerStart
  | _ => none

theorem switch_inside (inside : body.state.inTrailers = true) (notFinal : body.state ≠ .finalLf) : bodySwitch body c =
      match trailerNext body.state c with
      | some next => .count { body with state := next }
      | none => .failed body .invalidFormat := by
  obtain ⟨kind, state, sizeDigits, done, remaining, total, maxBody, lineBytes, trailerCap, trailers⟩ := body
  unfold bodySwitch trailerNext
  cases state with
  | finalLf => exact absurd rfl notFinal
  | data | size | ext | sizeLf | dataCr | dataLf | failed => cases inside
  | trailerStart | trailerName | trailerValue | trailerLf =>
    dsimp only
    split_ifs <;> rfl

theorem trailer_next_inside {next : BodyState} (found : trailerNext state c = some next) : next.inTrailers = true := by
  unfold trailerNext at found
  cases state <;> dsimp only at found <;> first | cases found | (split_ifs at found <;> cases found <;> rfl)

theorem field_split (name value rest : List Byte) :
    name ++ colon :: value ++ crlf ++ rest = name ++ (colon :: (value ++ (crlf ++ rest))) := by
  rw [append_assoc, append_assoc]
  rfl

theorem token_cons {first : Byte} {name : List Byte} :
    httpIsToken (first :: name) = true ↔ httpIsTchar first = true ∧ name.all httpIsTchar = true := by
  unfold httpIsToken
  rw [isEmpty_cons, Bool.not_false, Bool.true_and, all_cons, Bool.and_eq_true]

theorem last_or_field : TrailerSection (c :: text) ↔
    c = carriageReturn ∧ Inner .finalLf text ∨ httpIsTchar c = true ∧ Inner .trailerName text := by
  constructor
  · intro inner
    generalize whole : c :: text = section_ at inner
    cases inner with
    | last => exact .inl (List.cons.inj whole)
    | field line rest isField isSection =>
      obtain ⟨name, value, rfl, token, fields⟩ := isField
      cases name with
      | nil => cases token
      | cons first name =>
        obtain ⟨same, split⟩ := List.cons.inj whole
        obtain ⟨isTchar, tchars⟩ := token_cons.mp token
        exact .inr ⟨by rw [same, isTchar], name, value, rest, split.trans (field_split name value rest), tchars, fields, isSection⟩
  rintro (⟨rfl, rfl⟩ | ⟨isTchar, name, value, rest, rfl, tchars, fields, isSection⟩)
  · exact TrailerSection.last
  rw [← field_split]
  exact TrailerSection.field _ rest ⟨c :: name, value, rfl, token_cons.mpr ⟨isTchar, tchars⟩, fields⟩ isSection

theorem name_or_value : Inner .trailerName (c :: text) ↔
    c = colon ∧ Inner .trailerValue text ∨ httpIsTchar c = true ∧ Inner .trailerName text := by
  constructor
  · rintro ⟨name, value, rest, split, tchars, fields, isSection⟩
    cases name with
    | nil => exact .inl ⟨(List.cons.inj split).1, value, rest, (List.cons.inj split).2, fields, isSection⟩
    | cons first name =>
      rw [all_cons, Bool.and_eq_true, ← (List.cons.inj split).1] at tchars
      exact .inr ⟨tchars.1, name, value, rest, (List.cons.inj split).2, tchars.2, fields, isSection⟩
  rintro (⟨rfl, value, rest, rfl, fields, isSection⟩ | ⟨isTchar, name, value, rest, rfl, tchars, fields, isSection⟩)
  · exact ⟨[], value, rest, rfl, rfl, fields, isSection⟩
  exact ⟨c :: name, value, rest, rfl, by rw [all_cons, isTchar, tchars]; rfl, fields, isSection⟩

theorem value_or_end : Inner .trailerValue (c :: text) ↔
    c = carriageReturn ∧ Inner .trailerLf text ∨ httpIsFieldByte c = true ∧ Inner .trailerValue text := by
  constructor
  · rintro ⟨value, rest, split, fields, isSection⟩
    cases value with
    | nil => exact .inl ⟨(List.cons.inj split).1, rest, (List.cons.inj split).2, isSection⟩
    | cons first value =>
      obtain ⟨field, fields⟩ := forall_mem_cons.mp fields
      exact .inr ⟨by rw [(List.cons.inj split).1, field], value, rest, (List.cons.inj split).2, fields, isSection⟩
  rintro (⟨rfl, rest, rfl, isSection⟩ | ⟨field, value, rest, rfl, fields, isSection⟩)
  · exact ⟨[], rest, rfl, fun _ wrong => absurd wrong not_mem_nil, isSection⟩
  exact ⟨c :: value, rest, rfl, forall_mem_cons.mpr ⟨field, fields⟩, isSection⟩

theorem inner_step (inside : state.inTrailers = true) (notFinal : state ≠ .finalLf) :
    Inner state (c :: text) ↔ ∃ next, trailerNext state c = some next ∧ Inner next text := by
  unfold trailerNext
  cases state with
  | finalLf => exact absurd rfl notFinal
  | data | size | ext | sizeLf | dataCr | dataLf | failed => cases inside
  | trailerStart =>
    apply last_or_field.trans
    by_cases isReturn : c = carriageReturn
    · simp [isReturn, return_not_tchar]
    · cases httpIsTchar c <;> simp [isReturn]
  | trailerName =>
    apply name_or_value.trans
    by_cases isColon : c = colon
    · simp [isColon, colon_not_tchar]
    · cases httpIsTchar c <;> simp [isColon]
  | trailerValue =>
    apply value_or_end.trans
    by_cases isReturn : c = carriageReturn
    · simp [isReturn, return_not_field]
    · cases httpIsFieldByte c <;> simp [isReturn]
  | trailerLf => by_cases isFeed : c = lineFeed <;> simp [Inner, isFeed]

theorem left_inside (inside : body.state.inTrailers = true) : Left body text data ↔ Inner body.state text ∧ SectionFits body text data := by
  obtain ⟨kind, state, sizeDigits, done, remaining, total, maxBody, lineBytes, trailerCap, trailers⟩ := body
  cases state with
  | trailerStart | trailerName | trailerValue | trailerLf | finalLf => exact Iff.rfl
  | data | size | ext | sizeLf | dataCr | dataLf | failed => cases inside

theorem left_trailers (chunking : Chunking body) (inside : body.state.inTrailers = true) :
    Left body (c :: text) data ↔ LeadsTo (bodyByte body c) text data := by
  have counted := chunking.counted inside
  have state : body.state ≠ .data := by
    intro wrong
    rw [wrong] at inside
    cases inside
  by_cases room : body.lineBytes < sectionLimit body
  · rw [byte_inside chunking.kind state inside room, left_inside inside]
    by_cases final : body.state = .finalLf
    · have switched : bodySwitch (keptAt body c) c =
          if c ≠ lineFeed then .failed (keptAt body c) .invalidFormat else .ended { keptAt body c with done := true } := by
        unfold bodySwitch keptAt
        dsimp only
        rw [final]
      rw [switched, final]
      by_cases isFeed : c = lineFeed
      · rw [if_neg (not_not.mpr isFeed)]
        constructor
        · intro left
          exact ⟨(List.cons.inj left.1).2, left.2.1⟩
        intro leads
        obtain ⟨rfl, rfl⟩ := leads
        exact ⟨by rw [isFeed]; rfl, rfl, by rw [length_singleton]; omega⟩
      rw [if_pos isFeed]
      exact iff_of_false (fun left => isFeed (List.cons.inj left.1).1) id
    have keptInside : (keptAt body c).state.inTrailers = true := inside
    rw [switch_inside keptInside final]
    have sameState : (keptAt body c).state = body.state := rfl
    rw [sameState, inner_step inside final]
    cases next : trailerNext body.state c with
    | none => exact iff_of_false (fun left => nomatch left.1.choose_spec.1) id
    | some after =>
      have nextInside := trailer_next_inside next
      have limit : sectionLimit { keptAt body c with state := after } = sectionLimit body := kept_limit body c
      dsimp only
      rw [count_inside nextInside (fun inner : Inner after text => inner_positive inner)
        (by
          rw [left_inside nextInside]
          exact Iff.rfl), limit]
      have line : ({ keptAt body c with state := after } : HttpBody).lineBytes = body.lineBytes := rfl
      rw [line]
      unfold SectionFits
      rw [length_cons, add_assoc, add_comm 1]
      constructor
      · intro left
        obtain ⟨⟨other, same, inner⟩, fits⟩ := left
        cases same
        exact ⟨inner, fits⟩
      · exact fun both => ⟨⟨after, rfl, both.1⟩, both.2⟩
  apply iff_of_false _ (byte_full chunking.kind inside counted (not_lt.mp room))
  intro left
  have fits := ((left_inside inside).mp left).2.2
  rw [length_cons] at fits
  omega

theorem left_step (chunking : Chunking body) : Left body (c :: text) data ↔ LeadsTo (bodyByte body c) text data := by
  cases state : body.state with
  | size => exact left_size chunking state
  | ext => exact left_ext chunking state
  | sizeLf => exact left_size_lf chunking state
  | data => exact left_data chunking state
  | dataCr => exact left_data_cr chunking state
  | dataLf => exact left_data_lf chunking state
  | trailerStart | trailerName | trailerValue | trailerLf | finalLf =>
    exact left_trailers chunking (by rw [state]; rfl)
  | failed =>
    rw [byte_outside chunking.kind (by rw [state]; exact nofun) (by rw [state]; rfl)]
    obtain ⟨kind, _, sizeDigits, done, remaining, total, maxBody, lineBytes, trailerCap, trailers⟩ := body
    cases state
    exact Iff.rfl

theorem nothing_left (left : Left body [] data) : False := by
  have framed : ∀ {front rest : List Byte}, [] ≠ front ++ (crlf ++ rest) := by
    intro front rest nothing
    exact cons_ne_nil _ _ (append_eq_nil_iff.mp nothing.symm).2
  unfold Left at left
  cases state : body.state with
  | size =>
    rw [state] at left
    obtain ⟨digits, ext, rest, split, _⟩ := left
    rw [← append_assoc] at split
    exact framed split
  | ext =>
    rw [state] at left
    obtain ⟨ext, rest, split, _⟩ := left
    exact framed split
  | sizeLf | dataLf =>
    rw [state] at left
    obtain ⟨rest, split, _⟩ := left
    cases split
  | data =>
    rw [state] at left
    obtain ⟨_, piece, rest, more, split, _⟩ := left
    exact framed split
  | dataCr =>
    rw [state] at left
    obtain ⟨_, rest, split, _⟩ := left
    cases split
  | trailerStart | trailerName | trailerValue | trailerLf | finalLf =>
    rw [state] at left
    exact lt_irrefl 0 (inner_positive left.1)
  | failed =>
    rw [state] at left
    exact left

theorem count_byte_on {after next : HttpBody} (counted : countByte after = .on next ∨ countByte after = .count next) :
    next = { after with lineBytes := after.lineBytes + 1 } ∧
      (after.state.inTrailers = true → after.lineBytes + 1 ≤ httpMaxTrailerBytes) := by
  unfold countByte at counted
  by_cases past : (if after.state.inTrailers = true then httpMaxTrailerBytes else httpMaxChunkLine) < after.lineBytes + 1
  · rw [if_pos past] at counted
    rcases counted with wrong | wrong <;> cases wrong
  rw [if_neg past] at counted
  refine ⟨?_, ?_⟩
  · rcases counted with found | wrong
    · cases found
      rfl
    · cases wrong
  intro inside
  rw [if_pos inside] at past
  exact not_lt.mp past

include chunking

theorem switch_chunking {next : HttpBody} (turned : bodySwitch body c = .count next ∨ bodySwitch body c = .on next) :
    next.kind = .chunked ∧ (next.state = .size → next.remaining < 16 ^ next.sizeDigits ∧ next.sizeDigits ≤ 16) ∧
      (next.state = .data → 0 < next.remaining) ∧
      (bodySwitch body c = .on next → next.state.inTrailers = true → next.lineBytes ≤ httpMaxTrailerBytes) := by
  have onward := switch_onward turned
  have digits := chunking.digits
  refine ⟨onward.kind.trans chunking.kind, ?_, onward.some_, ?_⟩
  · obtain ⟨kind, state, sizeDigits, done, remaining, total, maxBody, lineBytes, trailerCap, trailers⟩ := body
    intro isSize
    cases state with
    | size =>
      obtain ⟨small, few⟩ := digits rfl
      dsimp only at small few
      unfold bodySwitch at turned
      dsimp only at turned
      cases hex : httpHex c with
      | some d =>
        rw [hex] at turned
        dsimp only at turned
        by_cases many : 16 ≤ sizeDigits
        · rw [if_pos many] at turned
          rcases turned with wrong | wrong <;> cases wrong
        rw [if_neg many] at turned
        rcases turned with found | wrong
        · cases found
          obtain ⟨added, less⟩ := digit_added small (not_le.mp many) (hex_lt hex)
          dsimp only
          rw [added]
          exact ⟨less, by omega⟩
        · cases wrong
      | none =>
        rw [hex] at turned
        dsimp only at turned
        split_ifs at turned <;> rcases turned with found | found <;> cases found <;> cases isSize
    | dataLf =>
      unfold bodySwitch at turned
      dsimp only at turned
      split_ifs at turned <;> rcases turned with found | found <;> cases found
      exact ⟨Nat.one_pos, Nat.zero_le _⟩
    | data | failed => rcases turned with wrong | wrong <;> cases wrong
    | ext | sizeLf | dataCr | trailerStart | trailerName | trailerValue | trailerLf | finalLf =>
      unfold bodySwitch at turned
      dsimp only at turned
      split_ifs at turned <;> rcases turned with found | found <;> cases found <;> cases isSize
  intro moved inside
  obtain ⟨kind, state, sizeDigits, done, remaining, total, maxBody, lineBytes, trailerCap, trailers⟩ := body
  unfold bodySwitch at moved
  cases state with
  | size =>
    dsimp only at moved
    cases hex : httpHex c <;> rw [hex] at moved <;> dsimp only at moved <;> split_ifs at moved
  | sizeLf =>
    dsimp only at moved
    split_ifs at moved <;> cases moved
    · exact Nat.zero_le _
    · cases inside
  | dataLf =>
    dsimp only at moved
    split_ifs at moved
    cases moved
    cases inside
  | data | failed => cases moved
  | ext | dataCr | trailerStart | trailerName | trailerValue | trailerLf | finalLf =>
    dsimp only at moved
    split_ifs at moved

theorem chunking_step {next : HttpBody} {items : List Byte} (stepped : bodyByte body c = .on next items) :
    Chunking next := by
  have notClose : body.kind ≠ .untilClose := by
    rw [chunking.kind]
    exact nofun
  by_cases state : body.state = .data
  · have notLength : body.kind ≠ .length := by
      rw [chunking.kind]
      exact nofun
    unfold bodyByte at stepped
    rw [if_neg notClose, if_pos state] at stepped
    dsimp only at stepped
    by_cases last : body.remaining - 1 = 0
    · rw [if_pos last, if_neg notLength] at stepped
      cases stepped
      exact ⟨chunking.kind, nofun, nofun, nofun⟩
    rw [if_neg last] at stepped
    cases stepped
    refine ⟨chunking.kind, ?_, fun _ => Nat.pos_of_ne_zero last, ?_⟩
    all_goals intro wrong
    · cases state.symm.trans wrong
    dsimp only at wrong
    rw [state] at wrong
    cases wrong
  rw [body_byte_framing notClose state] at stepped
  unfold bodyTurn at stepped
  cases kept : keepByte body c with
  | none => rw [kept] at stepped; cases stepped
  | some after =>
    have same := keep_byte_same kept
    have keeping : Chunking after := by
      rw [same]
      exact ⟨chunking.kind, chunking.digits, chunking.some_, chunking.counted⟩
    rw [kept] at stepped
    dsimp only at stepped
    cases switched : bodySwitch after c with
    | failed other err => rw [switched] at stepped; cases stepped
    | ended other => rw [switched] at stepped; cases stepped
    | on other =>
      obtain ⟨kind, digits, some_, counted⟩ := switch_chunking keeping (.inr switched)
      rw [switched] at stepped
      cases stepped
      exact ⟨kind, digits, some_, counted switched⟩
    | count other =>
      obtain ⟨kind, digits, some_, _⟩ := switch_chunking keeping (.inl switched)
      rw [switched] at stepped
      dsimp only at stepped
      cases counting : countByte other with
      | failed last err => rw [counting] at stepped; cases stepped
      | ended last => rw [counting] at stepped; cases stepped
      | on last =>
        obtain ⟨rfl, fits⟩ := count_byte_on (.inl counting)
        rw [counting] at stepped
        cases stepped
        exact ⟨kind, digits, some_, fits⟩
      | count last =>
        obtain ⟨rfl, fits⟩ := count_byte_on (.inr counting)
        rw [counting] at stepped
        cases stepped
        exact ⟨kind, digits, some_, fits⟩

theorem left_run : Left body text data ↔
      (run bodyByte body text).ended = true ∧ (run bodyByte body text).items = data ∧ (run bodyByte body text).used = text.length := by
  induction text generalizing body data with
  | nil => exact iff_of_false nothing_left fun wrong => by cases wrong.1
  | cons c text ih =>
    rw [left_step chunking, run]
    cases stepped : bodyByte body c with
    | failed next err => exact iff_of_false id fun wrong => by cases wrong.1
    | ended next items =>
      unfold LeadsTo
      dsimp only
      rw [length_cons]
      constructor
      · intro leads
        obtain ⟨rfl, rfl⟩ := leads
        exact ⟨rfl, rfl, rfl⟩
      intro found
      obtain ⟨_, rfl, all⟩ := found
      exact ⟨eq_nil_of_length_eq_zero (by omega), rfl⟩
    | on next items =>
      unfold LeadsTo Ran.after
      dsimp only
      rw [length_cons]
      constructor
      · intro leads
        obtain ⟨more, rfl, left⟩ := leads
        obtain ⟨ended, same, all⟩ := (ih (chunking_step chunking stepped)).mp left
        exact ⟨ended, by rw [same], by omega⟩
      intro found
      obtain ⟨ended, rfl, all⟩ := found
      exact ⟨_, rfl, (ih (chunking_step chunking stepped)).mpr ⟨ended, rfl, by omega⟩⟩

omit chunking

end ProvenC.Http.Chunks
