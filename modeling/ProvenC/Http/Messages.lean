import ProvenC.Http.Delivery
import ProvenC.Http.Framing
import ProvenC.Http.Stable

/-!
# Messages one after another

A request and its body, as the writers leave them, are taken in whole and no further.
-/

namespace ProvenC.Http.Messages

open List Bytes Http.Head Http.Body Http.Feeding Http.Writer Http.RoundTrip Http.Framing Http.Stable Http.Delivery Lib.Streaming

/-- How a payload leaves: the field that frames it, what that field means, and the bytes behind the head. -/
inductive Leaves (payload : List Byte) : Option HeaderCall → HttpFraming → List Byte → Prop
  | none (nothing : payload = []) : Leaves payload none ⟨.none, 0⟩ []
  | length (small : payload.length < u64End) :
      Leaves payload (some (.number clName payload.length)) ⟨.length, payload.length⟩ payload
  | chunked (size : Nat) (pieces : List (List Byte)) (text : List Byte) (whole : pieces.flatten = payload)
      (small : ∀ piece ∈ pieces, piece.length < u64End) (wrote : writeChunks size [] pieces = .ok text) :
      Leaves payload (some (.text teName chunkedName)) ⟨.chunked, 0⟩ text

variable {payload text : List Byte} {framer : Option HeaderCall} {framing : HttpFraming}

theorem digits_up_value (room v : Nat) (small : v < 10 ^ room) :
    (∀ d ∈ digitsUp 10 room v, isDigit d = true) ∧ Nat.ofDigits 10 ((digitsUp 10 room v).map fun d => d.val - 48) = v := by
  induction room generalizing v with
  | zero =>
    exact ⟨fun _ among => absurd among not_mem_nil, (Nat.lt_one_iff.mp small).symm⟩
  | succ room ih =>
    have lowest : isDigit (httpDigits.getD (v % 10) 0) = true ∧ (httpDigits.getD (v % 10) 0).val - 48 = v % 10 := by
      have tens : ∀ d < 10, isDigit (httpDigits.getD d 0) = true ∧ (httpDigits.getD d 0).val - 48 = d := by decide
      exact tens _ (Nat.mod_lt v (by decide))
    rw [digitsUp, map_cons, Nat.ofDigits_cons, lowest.2, forall_mem_cons]
    split
    next last =>
      exact ⟨⟨lowest.1, fun _ among => absurd among not_mem_nil⟩, by rw [map_nil, Nat.ofDigits_nil]; omega⟩
    obtain ⟨digits, value⟩ := ih (v / 10) (by omega)
    exact ⟨⟨lowest.1, digits⟩, by rw [value]; omega⟩

theorem length_text (n : Nat) (small : n < u64End) : Denotes (u64Text n 10) n := by
  obtain ⟨digits, value⟩ := digits_up_value 20 n (small.trans_le (by decide))
  refine ⟨fun nothing => ?_, fun d among => digits d (mem_reverse.mp among), ?_, small⟩
  · cases reverse_eq_nil_iff.mp nothing
  rw [decimalValue, u64Text, map_reverse, reverse_reverse, value]

theorem leaves_framed (leaves : Leaves payload framer framing text) {headers : List HttpHeader} {request : HttpRequest}
    (plain : ∀ header ∈ headers, named teName header = false ∧ named clName header = false)
    (fields : request.headers = headers ++ (framer.map HeaderCall.field).toList) (version : request.versionMinor = 1) :
    httpRequestFraming request = .ok framing := by
  rw [request_framing_plain]
  have others : ∀ name, name = teName ∨ name = clName → fieldValues headers name = [] := by
    rintro name (rfl | rfl) <;> simp +contextual [fieldValues, plain]
  have values : ∀ name, name = teName ∨ name = clName →
      fieldValues request.headers name = fieldValues (framer.map HeaderCall.field).toList name := by
    intro name known
    rw [fields, fieldValues, filter_append, map_append, ← fieldValues, others name known, nil_append, fieldValues]
  have te := values teName (.inl rfl)
  have cl := values clName (.inr rfl)
  cases leaves with
  | none nothing => exact .none te cl
  | length small => exact .length _ _ te cl (length_text _ small)
  | chunked size pieces text whole small wrote =>
    refine .chunked chunkedName (by rw [version]; decide) cl ?_ (by decide)
    rw [te]
    decide

theorem leaves_read (leaves : Leaves payload framer framing text) {maxBody : Nat} (fits : payload.length ≤ maxBody)
    (later : List Byte) : ∃ body, bodyStart framing maxBody none = .ok body ∧
      ∀ offers ran, bodyCalls body (text ++ later) offers = some ran →
        ran.err = none ∧ ran.ended = true ∧ ran.items = payload ∧ ran.used = text.length := by
  cases leaves with
  | none nothing =>
    refine ⟨_, rfl, fun offers ran called => ?_⟩
    cases called
    exact ⟨rfl, rfl, nothing.symm, rfl⟩
  | length small =>
    obtain ⟨body, isBody⟩ : ∃ body, body = { freshBody maxBody with
        kind := .length, remaining := payload.length, done := payload.length = 0 } := ⟨_, rfl⟩
    have started : bodyStart ⟨.length, payload.length⟩ maxBody none = .ok body := by
      rw [isBody, bodyStart, httpBodyInit, if_neg (not_lt.mpr fits)]
    refine ⟨body, started, fun offers ran called => ?_⟩
    by_cases empty : payload = []
    · subst empty isBody
      cases called
      exact ⟨rfl, rfl, rfl, rfl⟩
    have midway := start_midway started (by rw [isBody]; exact decide_eq_false (mt length_eq_zero_iff.mp empty))
    have whole := run_data_whole body (by rw [isBody]; exact nofun) (by rw [isBody]; rfl) payload empty (by rw [isBody])
    rw [dataEnd, if_pos (by rw [isBody])] at whole
    rw [bodyCalls, if_neg (Bool.eq_false_iff.mp midway.going)] at called
    obtain ⟨err, -, same⟩ := calls_follow feed_follows midway called
    rw [run_stopped bodyByte later (.inr (by rw [whole])), whole] at err same
    rw [same err]
    exact ⟨rfl, rfl, rfl, rfl⟩
  | chunked size pieces text whole small wrote =>
    obtain ⟨written, rfl, isBody⟩ := chunks_written pieces small wrote (whole ▸ fits) (show 2 ≤ sectionRoom none by decide)
    have started : bodyStart ⟨.chunked, 0⟩ maxBody none = .ok _ := rfl
    refine ⟨_, started, fun offers ran called => ?_⟩
    exact whole ▸ chunked_complete started rfl isBody called

end ProvenC.Http.Messages
