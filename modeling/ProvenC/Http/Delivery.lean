import ProvenC.Http.Chunks
import ProvenC.Http.RoundTrip

/-!
# Bodies delivered

However a body arrives, the same comes out of it; a chunked body is one of the grammar, and what the
chunk writers wrote is the data they were given.
-/

namespace ProvenC.Http.Delivery

open List Bytes Http.Head Http.Body Http.Feeding Http.Chunks Http.Writer
open Http.RoundTrip Lib.Streaming

def bodyStart (framing : HttpFraming) (maxBody : Nat) (kept : Option (List Byte)) : Except ProvenErr HttpBody :=
  match httpBodyInit framing maxBody with
  | .error err => .error err
  | .ok body =>
    match kept with
    | none => .ok body
    | some buf => httpBodyKeepTrailers body buf

/-- The calls for a stream: each offers the next bytes of what is left, as many as `offers` says. -/
def bodyCalls (body : HttpBody) (stream : List Byte) (offers : List Nat) : Option (Ran HttpBody Byte ProvenErr) :=
  if body.done then some { err := none, ended := true, state := body, items := [], used := 0 }
  else calls httpBodyFeed body stream offers

def allAtOnce (stream : List Byte) : List Nat := List.replicate stream.length stream.length

variable {framing : HttpFraming} {maxBody : Nat} {kept : Option (List Byte)} {body : HttpBody} {stream : List Byte}

theorem start_fields (started : bodyStart framing maxBody kept = .ok body) :
    body.kind = framing.kind ∧ body.maxBody = maxBody ∧ body.total = 0 ∧ body.sizeDigits = 0 ∧ body.lineBytes = 0 ∧
      body.state = (if framing.kind = .chunked then .size else .data) ∧
      body.done = (framing.kind = .none ∨ (framing.kind = .length ∧ framing.length = 0) : Bool) ∧
      body.remaining = (if framing.kind = .length then framing.length else 0) ∧ body.trailers = kept ∧
      body.trailerCap = (match kept with | none => 0 | some buf => min buf.length httpMaxTrailerBytes) := by
  unfold bodyStart at started
  cases begun : httpBodyInit framing maxBody with
  | error err => rw [begun] at started; cases started
  | ok fresh =>
    rw [begun] at started
    dsimp only at started
    have fields : fresh.kind = framing.kind ∧ fresh.maxBody = maxBody ∧ fresh.total = 0 ∧ fresh.sizeDigits = 0 ∧
        fresh.lineBytes = 0 ∧ fresh.state = (if framing.kind = .chunked then .size else .data) ∧
        fresh.done = (framing.kind = .none ∨ (framing.kind = .length ∧ framing.length = 0) : Bool) ∧
        fresh.remaining = (if framing.kind = .length then framing.length else 0) ∧
        fresh.trailers = none ∧ fresh.trailerCap = 0 := by
      obtain ⟨kind, length⟩ := framing
      unfold httpBodyInit at begun
      cases kind with
      | none | chunked | untilClose =>
        cases begun
        exact ⟨rfl, rfl, rfl, rfl, rfl, rfl, rfl, rfl, rfl, rfl⟩
      | length =>
        dsimp only at begun
        by_cases large : maxBody < length
        · rw [if_pos large] at begun
          cases begun
        rw [if_neg large] at begun
        cases begun
        refine ⟨rfl, rfl, rfl, rfl, rfl, rfl, ?_, rfl, rfl, rfl⟩
        dsimp only
        by_cases zero : length = 0
        · rw [decide_eq_true zero, decide_eq_true (Or.inr ⟨rfl, zero⟩)]
        · rw [decide_eq_false zero, decide_eq_false fun wrong => wrong.elim nofun fun both => zero both.2]
    obtain ⟨kind, max, total, digits, line, state, done, remaining, trailers, cap⟩ := fields
    cases kept with
    | none =>
      cases started
      exact ⟨kind, max, total, digits, line, state, done, remaining, trailers, cap⟩
    | some buf =>
      dsimp only at started
      unfold httpBodyKeepTrailers at started
      by_cases empty : buf = []
      · rw [if_pos empty] at started
        cases started
      rw [if_neg empty] at started
      cases started
      refine ⟨kind, max, total, digits, line, state, done, remaining, rfl, ?_⟩
      dsimp only
      by_cases small : buf.length < httpMaxTrailerBytes
      · rw [if_pos small, min_eq_left (le_of_lt small)]
      · rw [if_neg small, min_eq_right (not_lt.mp small)]

theorem start_midway (started : bodyStart framing maxBody kept = .ok body) (going : body.done = false) : Midway body := by
  obtain ⟨kind, max, total, _, _, state, done, remaining, _⟩ := start_fields started
  have fine : body.state ≠ .failed := by
    rw [state]
    split_ifs <;> exact nofun
  refine ⟨going, fine, ?_, ?_⟩
  · intro close
    rw [kind] at close
    rw [total, state, close, if_neg nofun]
    exact ⟨Nat.zero_le _, rfl⟩
  intro notClose isData
  rw [kind] at notClose
  rw [going] at done
  have notDone := of_decide_eq_false done.symm
  obtain ⟨notNone, notEmpty⟩ := not_or.mp notDone
  have isLength : framing.kind = .length := by
    rw [state] at isData
    cases other : framing.kind with
    | none => exact absurd other notNone
    | length => rfl
    | chunked =>
      rw [other, if_pos rfl] at isData
      cases isData
    | untilClose => exact absurd other notClose
  rw [remaining, if_pos isLength]
  exact Nat.pos_of_ne_zero fun zero => notEmpty ⟨isLength, zero⟩

theorem feed_exactly (kind : body.kind ≠ .untilClose) (midway : Midway body) (input : List Byte) {err : ProvenErr}
    (failed : (httpBodyFeed body input).err = some err) :
    (httpBodyFeed body input).items = (run bodyByte body input).items ∧
      (httpBodyFeed body input).state = (run bodyByte body input).state := by
  rw [feed_midway midway, if_neg kind] at failed ⊢
  exact ((loop_follows input body 0 midway kind).1 err failed).2

def Framed (body : HttpBody) : Prop := Midway body ∧ body.kind ≠ .untilClose

theorem byte_kind {c : Byte} {next : HttpBody} {items : List Byte} (kind : body.kind ≠ .untilClose)
    (stepped : bodyByte body c = .on next items) : next.kind = body.kind := by
  by_cases state : body.state = .data
  · unfold bodyByte at stepped
    rw [if_neg kind, if_pos state] at stepped
    dsimp only at stepped
    split_ifs at stepped <;> cases stepped <;> rfl
  rw [body_byte_framing kind state] at stepped
  cases turned : bodyTurn body c with
  | failed | ended => rw [turned] at stepped; cases stepped
  | on after =>
    rw [turned] at stepped
    cases stepped
    exact (turn_onward (Or.inr turned)).kind
  | count after =>
    rw [turned] at stepped
    cases stepped
    exact (turn_onward (Or.inl turned)).kind

theorem framed_follows : Follows bodyByte Framed httpBodyFeed where
  taken := fun body input framed => feed_follows.taken body input framed.1
  moves := fun body input framed => feed_follows.moves body input framed.1
  fails := fun body input framed => feed_follows.fails body input framed.1
  keeps := by
    intro body input framed fine goes
    refine ⟨feed_follows.keeps body input framed.1 fine goes, ?_⟩
    obtain ⟨_, took⟩ := feed_follows.taken body input framed.1 fine
    have steps : ∀ (before : HttpBody) (c : Byte) (next : HttpBody) (items : List Byte), before.kind ≠ .untilClose →
        bodyByte before c = .on next items → next.kind ≠ .untilClose := by
      intro before c next items other stepped
      rw [byte_kind other stepped]
      exact other
    have kept := run_keeps steps (input.take (httpBodyFeed body input).used) framed.2 (by rw [took]; exact fine)
      (by rw [took]; exact goes)
    rw [took] at kept
    exact kept

theorem at_once_ends (midway : Midway body) (stream : List Byte) : ∃ ran, calls httpBodyFeed body stream (allAtOnce stream) = some ran := by
  apply calls_end feed_follows _ midway
  · intro offer among
    obtain ⟨some_, rfl⟩ := mem_replicate.mp among
    exact Nat.pos_of_ne_zero some_
  · exact le_of_eq length_replicate.symm

variable {offers : List Nat} {ran : Ran HttpBody Byte ProvenErr}

theorem calls_agree (midway : Midway body) {offers' : List Nat} {ran' : Ran HttpBody Byte ProvenErr}
    (called : calls httpBodyFeed body stream offers = some ran) (called' : calls httpBodyFeed body stream offers' = some ran') :
    ran.err = ran'.err ∧ (ran.err = none → ran = ran') ∧
      (body.kind ≠ .untilClose → ran.items = ran'.items ∧ ran.state = ran'.state) := by
  obtain ⟨err, _, same⟩ := calls_follow feed_follows midway called
  obtain ⟨err', _, same'⟩ := calls_follow feed_follows midway called'
  refine ⟨err.trans err'.symm, ?_, ?_⟩
  · intro fine
    rw [same fine, same' (err'.trans (err.symm.trans fine))]
  intro kind
  have exactly := calls_exactly framed_follows
    (fun before input framed err failed => feed_exactly framed.2 framed.1 input failed) ⟨midway, kind⟩ called
  have exactly' := calls_exactly framed_follows
    (fun before input framed err failed => feed_exactly framed.2 framed.1 input failed) ⟨midway, kind⟩ called'
  exact ⟨exactly.1.trans exactly'.1.symm, exactly.2.trans exactly'.2.symm⟩

theorem until_close_prefix (kind : body.kind = .untilClose) (midway : Midway body) (called : calls httpBodyFeed body stream offers = some ran) : ran.items <+: stream := by
  have bounded := (midway.bounded kind).1
  have before := (calls_follow feed_follows midway called).2.1
  by_cases past : body.maxBody < body.total + stream.length
  · rw [(run_past_limit body kind bounded stream past).2] at before
    exact before.trans (List.take_prefix _ _)
  rw [run_until_close body kind stream (not_lt.mp past)] at before
  exact before

def sectionRoom (kept : Option (List Byte)) : Nat :=
  match kept with
  | none => httpMaxTrailerBytes
  | some buf => min buf.length httpMaxTrailerBytes

theorem start_limit (started : bodyStart framing maxBody kept = .ok body) :
    sectionRoom kept ≤ sectionLimit body ∧ sectionLimit body ≤ sectionRoom kept + 1 := by
  obtain ⟨_, _, _, _, _, _, _, _, trailers, cap⟩ := start_fields started
  unfold sectionLimit sectionRoom
  rw [trailers, cap]
  cases kept with
  | none =>
    rw [Option.isSome_none, if_neg nofun]
    exact ⟨Nat.le_succ _, le_refl _⟩
  | some buf =>
    rw [Option.isSome_some, if_pos rfl]
    dsimp only
    omega

variable {text data : List Byte}

variable (started : bodyStart framing maxBody kept = .ok body)
include started

variable (chunked : framing.kind = .chunked)
include chunked

theorem chunked_accepted : ChunkedBody lineLimit (sectionLimit body) maxBody text data ↔
      (run bodyByte body text).ended = true ∧ (run bodyByte body text).items = data ∧ (run bodyByte body text).used = text.length := by
  obtain ⟨kind, max, total, digits, line, state, _, remaining, _⟩ := start_fields started
  rw [chunked, if_pos rfl] at state
  rw [chunked, if_neg nofun] at remaining
  have chunking : Chunking body := by
    refine ⟨kind.trans chunked, ?_, ?_, ?_⟩
    · intro _
      rw [remaining, digits]
      exact ⟨Nat.one_pos, Nat.zero_le _⟩
    · intro wrong
      rw [state] at wrong
      cases wrong
    intro wrong
    rw [state] at wrong
    cases wrong
  have room : roomOf body = maxBody := by
    unfold roomOf
    rw [max, total]
    rfl
  rw [← left_run chunking, left_fresh state digits remaining line, room]

theorem start_chunked : Midway body := by
  apply start_midway started
  obtain ⟨_, _, _, _, _, _, done, _⟩ := start_fields started
  rw [done, chunked]
  rfl

theorem chunked_done (called : bodyCalls body stream offers = some ran) :
    ran.err = (run bodyByte body stream).err ∧ (ran.err = none → ran = run bodyByte body stream) := by
  have midway := start_chunked started chunked
  have going : ¬ body.done = true := Bool.eq_false_iff.mp midway.going
  unfold bodyCalls at called
  rw [if_neg going] at called
  obtain ⟨err, _, same⟩ := calls_follow feed_follows midway called
  exact ⟨err, same⟩

theorem chunked_sound (called : bodyCalls body stream offers = some ran)
    (fine : ran.err = none) (ended : ran.ended = true) : ran.used ≤ stream.length ∧
      ChunkedBody (httpMaxChunkLine + 1) (sectionRoom kept + 1) maxBody (stream.take ran.used) ran.items := by
  obtain ⟨_, same⟩ := chunked_done started chunked called
  have whole := same fine
  have used : (run bodyByte body stream).used ≤ stream.length := run_used_le body stream
  rw [← whole] at used
  refine ⟨used, ?_⟩
  have front : run bodyByte body (stream.take ran.used) = ran := by
    have short := run_take bodyByte body stream (by rw [← whole]; exact fine)
    rw [← whole] at short
    exact short
  have accepted : ChunkedBody lineLimit (sectionLimit body) maxBody (stream.take ran.used) ran.items :=
    (chunked_accepted started chunked).mpr (by rw [front, length_take, min_eq_left used]; exact ⟨ended, rfl, rfl⟩)
  exact chunked_wider accepted (le_refl _) (start_limit started).2

theorem chunked_complete {tail_ : List Byte} (isBody : ChunkedBody httpMaxChunkLine (sectionRoom kept) maxBody text data)
    (called : bodyCalls body (text ++ tail_) offers = some ran) :
    ran.err = none ∧ ran.ended = true ∧ ran.items = data ∧ ran.used = text.length := by
  have wider := chunked_wider isBody (Nat.le_succ httpMaxChunkLine) (start_limit started).1
  obtain ⟨ended, items, used⟩ := (chunked_accepted started chunked).mp wider
  have whole := run_stopped bodyByte tail_ (Or.inr ended)
  obtain ⟨err, same⟩ := chunked_done started chunked called
  rw [whole] at err same
  have fine := err.trans (ended_fine ended)
  rw [same fine]
  exact ⟨ended_fine ended, ended, items, used⟩

omit chunked

omit started

theorem hex_digit (d : Nat) (small : d < 16) : httpHex (httpDigits.getD d 0) = some d := by
  interval_cases d <;> decide

theorem digits_up_hex (room v : Nat) (small : v < 16 ^ room) :
    HexDigits (digitsUp 16 room v).reverse ∧ sizeFrom 0 (digitsUp 16 room v).reverse = v := by
  induction room generalizing v with
  | zero =>
    have zero : v = 0 := by omega
    exact ⟨fun _ wrong => absurd wrong not_mem_nil, zero.symm⟩
  | succ room ih =>
    have digit := hex_digit (v % 16) (Nat.mod_lt v (by decide))
    rw [Nat.pow_succ] at small
    have further : HexDigits (if v / 16 = 0 then [] else digitsUp 16 room (v / 16)).reverse ∧
        sizeFrom 0 (if v / 16 = 0 then [] else digitsUp 16 room (v / 16)).reverse = v / 16 := by
      by_cases last : v / 16 = 0
      · rw [if_pos last, last]
        exact ⟨fun _ wrong => absurd wrong not_mem_nil, rfl⟩
      rw [if_neg last]
      exact ih (v / 16) (by omega)
    rw [digitsUp, reverse_cons]
    refine ⟨?_, ?_⟩
    · intro c among
      rcases mem_append.mp among with before | last
      · exact further.1 c before
      rw [mem_singleton.mp last, digit]
      rfl
    have read := further.2
    unfold sizeFrom at read ⊢
    rw [foldl_append, read, foldl_cons, foldl_nil, digit, Option.getD_some]
    omega

theorem digits_up_length (room v k : Nat) (small : v < 16 ^ (k + 1)) : (digitsUp 16 room v).length ≤ k + 1 := by
  induction k generalizing room v with
  | zero =>
    cases room with
    | zero => exact Nat.zero_le _
    | succ room =>
      have last : v / 16 = 0 := by omega
      rw [digitsUp, if_pos last]
      exact le_refl 1
  | succ k ih =>
    cases room with
    | zero => exact Nat.zero_le _
    | succ room =>
      rw [digitsUp, length_cons]
      by_cases last : v / 16 = 0
      · rw [if_pos last]
        exact Nat.succ_le_succ (Nat.zero_le _)
      rw [if_neg last]
      rw [Nat.pow_succ] at small
      have shorter := ih room (v / 16) (by omega)
      omega

def chunkText (piece : List Byte) : List Byte := u64Text piece.length 16 ++ crlf ++ (piece ++ crlf)

theorem size_line (n : Nat) (small : n < u64End) :
    ChunkLine (u64Text n 16 ++ crlf) n ∧ (u64Text n 16 ++ crlf).length ≤ httpMaxChunkLine := by
  have wide : u64End = 16 ^ (15 + 1) := by decide
  rw [wide] at small
  have short := digits_up_length 20 n 15 small
  have more : (16 : Nat) ^ (15 + 1) ≤ 16 ^ 20 := Nat.pow_le_pow_right (by decide) (by decide)
  obtain ⟨hexes, read⟩ := digits_up_hex 20 n (lt_of_lt_of_le small more)
  have length : (u64Text n 16).length = (digitsUp 16 20 n).length := length_reverse
  refine ⟨⟨u64Text n 16, [], by rw [append_nil], ?_, by rw [length]; exact short, hexes, Or.inl rfl, read.symm⟩, ?_⟩
  · intro nothing
    have zero := congrArg List.length nothing
    rw [length, digitsUp, length_cons] at zero
    cases zero
  have two : crlf.length = 2 := rfl
  have limit : httpMaxChunkLine = 256 := rfl
  rw [length_append, length, two, limit]
  omega

variable {before out : List Byte}

theorem chunk_written {size : Nat} {piece : List Byte} (written : writeChunk size before piece = .ok out) :
    piece ≠ [] ∧ out = before ++ chunkText piece := by
  unfold writeChunk at written
  cases begun : httpWriteChunkBegin size before piece.length with
  | error err => rw [begun] at written; cases written
  | ok line =>
    rw [begun] at written
    dsimp only at written
    by_cases full : size < (line ++ piece).length
    · rw [if_pos full] at written
      cases written
    rw [if_neg full] at written
    have ended := head_end_written written
    unfold httpWriteChunkBegin at begun
    cases opened : httpWBegin size before with
    | none => rw [opened] at begun; cases begun
    | some w =>
      rw [opened] at begun
      dsimp only at begun
      by_cases empty : piece.length = 0
      · rw [if_pos empty] at begun
        cases begun
      rw [if_neg empty] at begun
      have puts := end_of_puts [u64Text piece.length 16, ascii "\r\n"] begun
      have end_ : ascii "\r\n" = crlf := by decide
      rw [begin_text opened, end_] at puts
      refine ⟨fun nothing => empty (by rw [nothing]; rfl), ?_⟩
      rw [ended, puts]
      unfold chunkText
      rw [flatten_cons, flatten_singleton, append_assoc, append_assoc, append_assoc]

theorem last_chunk_written {size : Nat} (written : httpWriteLastChunk size before = .ok out) :
    out = before ++ ((ascii "0" ++ crlf) ++ crlf) := by
  unfold httpWriteLastChunk at written
  cases opened : httpWBegin size before with
  | none => rw [opened] at written; cases written
  | some w =>
    rw [opened] at written
    have puts := end_of_puts [ascii "0\r\n\r\n"] written
    have same : ascii "0\r\n\r\n" = (ascii "0" ++ crlf) ++ crlf := by decide
    rw [puts, begin_text opened, flatten_singleton, same]

theorem chunks_written {size : Nat} (pieces : List (List Byte)) (small : ∀ piece ∈ pieces, piece.length < u64End)
    (written : writeChunks size before pieces = .ok out) {room sectionMax : Nat} (fits : pieces.flatten.length ≤ room)
    (sections : 2 ≤ sectionMax) :
    ∃ text, out = before ++ text ∧ ChunkedBody httpMaxChunkLine sectionMax room text pieces.flatten := by
  induction pieces generalizing before room with
  | nil =>
    refine ⟨_, last_chunk_written written, ?_⟩
    refine ChunkedBody.last room _ crlf ?_ (by decide) TrailerSection.last sections
    have hexes : HexDigits (ascii "0") := by
      intro c among
      have same : c = byteOf '0'.toNat := mem_singleton.mp among
      rw [same]
      rfl
    exact ⟨ascii "0", [], by rw [append_nil], by decide, by decide, hexes, Or.inl rfl, by decide⟩
  | cons piece pieces ih =>
    obtain ⟨pieceSmall, laterSmall⟩ := forall_mem_cons.mp small
    rw [writeChunks] at written
    cases first : writeChunk size before piece with
    | error err => rw [first] at written; cases written
    | ok between =>
      rw [first] at written
      dsimp only at written
      obtain ⟨some_, rfl⟩ := chunk_written first
      rw [flatten_cons, length_append] at fits
      have left : pieces.flatten.length ≤ room - piece.length := by omega
      obtain ⟨text, rfl, isBody⟩ := ih laterSmall written left
      obtain ⟨isLine, lineFits⟩ := size_line piece.length pieceSmall
      refine ⟨chunkText piece ++ text, append_assoc _ _ _, ?_⟩
      have body := ChunkedBody.chunk room _ piece text pieces.flatten isLine lineFits some_ (by omega) isBody
      unfold chunkText
      rw [append_assoc (u64Text piece.length 16 ++ crlf), append_assoc piece]
      exact body

end ProvenC.Http.Delivery
