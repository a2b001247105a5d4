import ProvenC.Quic.Varint

/-!
# Frames as bytes (RFC 9000, section 19)

A frame is read from the rest of a packet that has opened, and written where a packet is made.
-/

namespace ProvenC.Quic.FrameCodec

open List Bytes Lib.BigEndian Lib.Scanning
open Quic.Varint

def frameEncodingError : Nat := 0x07
def protocolViolation : Nat := 0x0a

def streamLimit : Nat := 1 <<< 62 - 1
def maxStreamCount : Nat := 1 <<< 60
def quicMaxCid : Nat := 20
def quicResetToken : Nat := 16

/-- `PROVEN_QUIC_FT_*` -/
inductive FrameType where
  | padding
  | ping
  | ack
  | ackEcn
  | resetStream
  | stopSending
  | crypto
  | newToken
  | stream
  | maxData
  | maxStreamData
  | maxStreamsBidi
  | maxStreamsUni
  | dataBlocked
  | streamDataBlocked
  | streamsBlockedBidi
  | streamsBlockedUni
  | newConnectionId
  | retireConnectionId
  | pathChallenge
  | pathResponse
  | connectionClose
  | connectionCloseApp
  | handshakeDone
deriving DecidableEq, Repr

def frameTypes : List FrameType :=
  [.padding, .ping, .ack, .ackEcn, .resetStream, .stopSending, .crypto, .newToken,
    .stream, .stream, .stream, .stream, .stream, .stream, .stream, .stream,
    .maxData, .maxStreamData, .maxStreamsBidi, .maxStreamsUni, .dataBlocked, .streamDataBlocked,
    .streamsBlockedBidi, .streamsBlockedUni, .newConnectionId, .retireConnectionId, .pathChallenge, .pathResponse,
    .connectionClose, .connectionCloseApp, .handshakeDone]

def frameTypeOf (type : Nat) : Option FrameType := frameTypes[type]?

structure QuicFrame where
  type : Nat
  id : Nat
  offset : Nat
  value : Nat
  finalSize : Nat
  frameType : Nat
  fin : Bool
  data : List Byte
  cid : List Byte
  resetToken : List Byte
  largest : Nat
  ackDelay : Nat
  firstRange : Nat
  rangeCount : Nat
  ranges : List Byte
  ecn : Nat × Nat × Nat
deriving DecidableEq, Repr

def zeroFrame : QuicFrame :=
  { type := 0, id := 0, offset := 0, value := 0, finalSize := 0, frameType := 0, fin := false, data := [], cid := []
    resetToken := List.replicate quicResetToken 0, largest := 0, ackDelay := 0, firstRange := 0, rangeCount := 0
    ranges := [], ecn := (0, 0, 0) }

def rdPair : Scanner Byte Nat (Nat × Nat) := do
  let gap ← quicRdVarint
  let len ← quicRdVarint
  pure (gap, len)

/-- The ranges of an ACK below one that begins at `lo`: none goes below packet number 0. -/
def ackLoop : Nat → Nat → Nat → List Byte → Nat × Scan Byte Nat Unit
  | 0, turns, _, input => (turns, .got () input)
  | left + 1, turns, lo, input =>
    match rdPair input with
    | .short => (turns + 1, .short)
    | .bad fault => (turns + 1, .bad fault)
    | .got (gap, len) rest =>
      if lo < 2 ∨ lo - 2 < gap then (turns + 1, .bad frameEncodingError)
      else
        let hi := lo - gap - 2
        if hi < len then (turns + 1, .bad frameEncodingError) else ackLoop left (turns + 1) (hi - len) rest

def rdRanges (rangeCount lo : Nat) : Scanner Byte Nat (List Byte) := fun input =>
  match (ackLoop rangeCount 0 lo input).2 with
  | .short => .short
  | .bad fault => .bad fault
  | .got () rest => .got (input.take (input.length - rest.length)) rest

def rdEcn : Scanner Byte Nat (Nat × Nat × Nat) := do
  let ect0 ← quicRdVarint
  let ect1 ← quicRdVarint
  let ce ← quicRdVarint
  pure (ect0, ect1, ce)

def ackBody (f : QuicFrame) (ecn : Bool) : Scanner Byte Nat QuicFrame := do
  let largest ← quicRdVarint
  let ackDelay ← quicRdVarint
  let rangeCount ← quicRdVarint
  let firstRange ← quicRdVarint
  if largest < firstRange then fail frameEncodingError
  else do
    let ranges ← rdRanges rangeCount (largest - firstRange)
    let counts ← cond ecn rdEcn (pure (0, 0, 0))
    pure
      { f with
        largest := largest, ackDelay := ackDelay, rangeCount := rangeCount, firstRange := firstRange
        ranges := ranges, ecn := counts }

def valueBody (f : QuicFrame) : Scanner Byte Nat QuicFrame := do
  let value ← quicRdVarint
  pure { f with value := value }

def idValueBody (f : QuicFrame) : Scanner Byte Nat QuicFrame := do
  let id ← quicRdVarint
  let value ← quicRdVarint
  pure { f with id := id, value := value }

def resetStreamBody (f : QuicFrame) : Scanner Byte Nat QuicFrame := do
  let id ← quicRdVarint
  let value ← quicRdVarint
  let finalSize ← quicRdVarint
  pure { f with id := id, value := value, finalSize := finalSize }

def cryptoBody (f : QuicFrame) : Scanner Byte Nat QuicFrame := do
  let offset ← quicRdVarint
  let len ← quicRdVarint
  let data ← count len
  if streamLimit - offset < len then fail frameEncodingError else pure { f with offset := offset, data := data }

def newTokenBody (f : QuicFrame) : Scanner Byte Nat QuicFrame := do
  let len ← quicRdVarint
  let data ← count len
  if len = 0 then fail frameEncodingError else pure { f with data := data }

def streamsBody (f : QuicFrame) : Scanner Byte Nat QuicFrame := do
  let value ← quicRdVarint
  if maxStreamCount < value then fail frameEncodingError else pure { f with value := value }

def newConnectionIdBody (f : QuicFrame) : Scanner Byte Nat QuicFrame := do
  let id ← quicRdVarint
  let value ← quicRdVarint
  let len ← quicRdUint 1
  if len < 1 ∨ quicMaxCid < len ∨ id < value then fail frameEncodingError
  else do
    let cid ← count len
    let token ← count quicResetToken
    pure { f with id := id, value := value, cid := cid, resetToken := token }

def retireBody (f : QuicFrame) : Scanner Byte Nat QuicFrame := do
  let id ← quicRdVarint
  pure { f with id := id }

def pathBody (f : QuicFrame) : Scanner Byte Nat QuicFrame := do
  let data ← count 8
  pure { f with data := data }

def closeBody (f : QuicFrame) (transport : Bool) : Scanner Byte Nat QuicFrame := do
  let value ← quicRdVarint
  let frameType ← cond transport quicRdVarint (pure 0)
  let len ← quicRdVarint
  let data ← count len
  pure { f with value := value, frameType := frameType, data := data }

/-- What is left of the packet, left there: `r->n`. -/
def remaining : Scanner Byte Nat Nat := fun input => .got input.length input

def streamBody (f : QuicFrame) (type : Nat) : Scanner Byte Nat QuicFrame := do
  let id ← quicRdVarint
  let offset ← cond (type &&& 0x04 ≠ 0) quicRdVarint (pure 0)
  let len ← cond (type &&& 0x02 ≠ 0) quicRdVarint remaining
  let data ← count len
  if streamLimit - offset < len then fail frameEncodingError
  else pure { f with id := id, offset := offset, data := data, fin := type &&& 0x01 ≠ 0 }

/-- The switch of `proven_quic_frame_read`. -/
def bodyOf (type : Nat) (f : QuicFrame) : FrameType → Scanner Byte Nat QuicFrame
  | .padding | .ping | .handshakeDone => pure f
  | .ack => ackBody f false
  | .ackEcn => ackBody f true
  | .resetStream => resetStreamBody f
  | .stopSending => idValueBody f
  | .crypto => cryptoBody f
  | .newToken => newTokenBody f
  | .maxData | .dataBlocked => valueBody f
  | .maxStreamData | .streamDataBlocked => idValueBody f
  | .maxStreamsBidi | .maxStreamsUni | .streamsBlockedBidi | .streamsBlockedUni => streamsBody f
  | .newConnectionId => newConnectionIdBody f
  | .retireConnectionId => retireBody f
  | .pathChallenge | .pathResponse => pathBody f
  | .connectionClose => closeBody f true
  | .connectionCloseApp => closeBody f false
  | .stream => streamBody f type

def frameBody (type : Nat) : Scanner Byte Nat QuicFrame :=
  let f := { zeroFrame with type := if 0x08 ≤ type ∧ type ≤ 0x0f then 0x08 else type }
  match frameTypeOf type with
  | none => fail frameEncodingError
  | some kind => bodyOf type f kind

def frameScan : Scanner Byte Nat QuicFrame := do
  let before ← remaining
  let type ← quicRdVarint
  let after ← remaining
  if before - after ≠ quicVarintLen type then fail protocolViolation else frameBody type

/-- `proven_quic_frame_read`: the frame and what follows it, or the code to close with. -/
def quicFrameRead (input : List Byte) : Except Nat (QuicFrame × List Byte) :=
  match frameScan input with
  | .short => .error frameEncodingError
  | .bad code => .error code
  | .got f rest => .ok (f, rest)

def streamType (f : QuicFrame) : Nat :=
  0x08 ||| (if f.offset ≠ 0 then 0x04 else 0) ||| 0x02 ||| (if f.fin then 0x01 else 0)

/-- The switch of `proven_quic_frame_put`. -/
def putsOf (f : QuicFrame) : FrameType → List Put
  | .padding | .ping | .handshakeDone => [.varint f.type]
  | .resetStream => [.varint f.type, .varint f.id, .varint f.value, .varint f.finalSize]
  | .stopSending | .maxStreamData | .streamDataBlocked => [.varint f.type, .varint f.id, .varint f.value]
  | .crypto => [.varint f.type, .varint f.offset, .varint f.data.length, .raw f.data]
  | .newToken => [.varint f.type, .varint f.data.length, .raw f.data]
  | .stream =>
    [.varint (streamType f), .varint f.id] ++ (if f.offset ≠ 0 then [.varint f.offset] else []) ++
      [.varint f.data.length, .raw f.data]
  | .maxData | .dataBlocked | .maxStreamsBidi | .maxStreamsUni | .streamsBlockedBidi | .streamsBlockedUni =>
    [.varint f.type, .varint f.value]
  | .newConnectionId =>
    [.varint f.type, .varint f.id, .varint f.value, .uint f.cid.length 1, .raw f.cid, .raw f.resetToken]
  | .retireConnectionId => [.varint f.type, .varint f.id]
  | .pathChallenge | .pathResponse => [.varint f.type, if f.data.length ≠ 8 then .refuse else .raw f.data]
  | .connectionClose => [.varint f.type, .varint f.value, .varint f.frameType, .varint f.data.length, .raw f.data]
  | .connectionCloseApp => [.varint f.type, .varint f.value, .varint f.data.length, .raw f.data]
  | .ack | .ackEcn => [.refuse]

def framePuts (f : QuicFrame) : List Put :=
  match if 0x08 < f.type ∧ f.type ≤ 0x0f then none else frameTypeOf f.type with
  | none => [.refuse]
  | some kind => putsOf f kind

def quicFramePut (w : Writer) (f : QuicFrame) : Writer × Bool :=
  let place := w.out.length
  let w := runPuts w (framePuts f)
  if !w.ok then ({ w with out := w.out.take place, ok := true }, false) else (w, true)

theorem plain_type {type : Nat} {kind : FrameType} (typed : frameTypeOf type = some kind) (plain : kind ≠ .stream) :
    type < 31 ∧ ¬(0x08 ≤ type ∧ type ≤ 0x0f) := by
  have less : type < 31 := (List.getElem?_eq_some_iff.mp typed).1
  refine ⟨less, fun inside => plain ?_⟩
  have all : ∀ type < 31, 0x08 ≤ type ∧ type ≤ 0x0f → frameTypeOf type = some .stream := by decide
  rw [all type less inside] at typed
  exact (Option.some.inj typed).symm

theorem small_type {type : Nat} (less : type < 31) : type ≤ quicVarintMax :=
  le_trans (le_of_lt less) (by decide)

variable {puts : List Put}

theorem form_varint {v : Nat} {bytes : List Byte} (small : v ≤ quicVarintMax)
    (later : formOf puts = some bytes) : formOf (.varint v :: puts) = some (quicVarintPut v ++ bytes) := by
  rw [formOf, Put.form, if_pos small, later]

theorem form_raw {front bytes : List Byte} (later : formOf puts = some bytes) :
    formOf (.raw front :: puts) = some (front ++ bytes) := by
  rw [formOf, Put.form, later]

theorem form_uint {v size : Nat} {bytes : List Byte} (later : formOf puts = some bytes) :
    formOf (.uint v size :: puts) = some (bigEndianBytes size v ++ bytes) := by
  rw [formOf, Put.form, later]

theorem form_last_varint {v : Nat} (small : v ≤ quicVarintMax) : formOf [.varint v] = some (quicVarintPut v) := by
  rw [form_varint small rfl, append_nil]

theorem form_last_raw (bytes : List Byte) : formOf [.raw bytes] = some bytes := by
  rw [form_raw rfl, append_nil]

theorem frame_read_put {type : Nat} {body : List Byte} {f : QuicFrame} {more : List Byte} (small : type ≤ quicVarintMax)
    (reads : frameBody type (body ++ more) = .got f more) :
    quicFrameRead (quicVarintPut type ++ body ++ more) = .ok (f, more) := by
  have scanned : frameScan (quicVarintPut type ++ (body ++ more)) = .got f more := by
    have length : (quicVarintPut type ++ (body ++ more)).length - (body ++ more).length = quicVarintLen type := by
      rw [length_append, Nat.add_sub_cancel, varint_put_length]
    unfold frameScan
    rw [bind_got (show remaining (quicVarintPut type ++ (body ++ more)) = .got _ _ from rfl), rd_varint_then small,
      bind_got (show remaining (body ++ more) = .got _ _ from rfl), if_neg (not_not_intro length), reads]
  unfold quicFrameRead
  rw [append_assoc, scanned]

def Recoded (f : QuicFrame) : Prop :=
  ∃ bytes, formOf (framePuts f) = some bytes ∧ ∀ more, quicFrameRead (bytes ++ more) = .ok (f, more)

theorem recoded_plain {type : Nat} {kind : FrameType} {f : QuicFrame} (body : List Byte)
    (typed : frameTypeOf type = some kind) (plain : kind ≠ .stream) (same : f.type = type)
    (form : formOf (putsOf f kind) = some (quicVarintPut type ++ body))
    (reads : ∀ more, bodyOf type { zeroFrame with type := type } kind (body ++ more) = .got f more) : Recoded f := by
  obtain ⟨less, outside⟩ := plain_type typed plain
  refine ⟨quicVarintPut type ++ body, ?_, fun more => frame_read_put (small_type less) ?_⟩
  · unfold framePuts
    rw [same, if_neg (by omega), typed]
    exact form
  unfold frameBody
  simp only [typed]
  rw [if_neg outside]
  exact reads more

section Shapes

variable {type : Nat} {kind : FrameType} {f : QuicFrame} {input rest : List Byte} (typed : frameTypeOf type = some kind)
  (plain : kind ≠ .stream) (read : bodyOf type { zeroFrame with type := type } kind input = .got f rest)

include typed plain read

theorem recoded_bare (body : ∀ f, bodyOf type f kind = pure f) (puts : ∀ f, putsOf f kind = [.varint f.type]) : Recoded f := by
  rw [body] at read
  cases read
  refine recoded_plain [] typed plain rfl ?_ ?_
  · rw [puts]
    exact form_varint (small_type (plain_type typed plain).1) rfl
  intro more
  rw [body]
  rfl

theorem recoded_value (body : ∀ f, bodyOf type f kind = valueBody f)
    (puts : ∀ f, putsOf f kind = [.varint f.type, .varint f.value]) : Recoded f := by
  rw [body] at read
  obtain ⟨value, between, valueSmall, -, read⟩ := then_read read
  cases read
  refine recoded_plain (quicVarintPut value) typed plain rfl ?_ ?_
  · rw [puts]
    exact form_varint (small_type (plain_type typed plain).1) (form_last_varint valueSmall)
  intro more
  rw [body]
  exact rd_varint_then valueSmall more

theorem recoded_streams (body : ∀ f, bodyOf type f kind = streamsBody f)
    (puts : ∀ f, putsOf f kind = [.varint f.type, .varint f.value]) : Recoded f := by
  rw [body] at read
  obtain ⟨value, between, valueSmall, -, read⟩ := then_read read
  obtain ⟨few, read⟩ := guard_scanned read
  cases read
  refine recoded_plain (quicVarintPut value) typed plain rfl ?_ ?_
  · rw [puts]
    exact form_varint (small_type (plain_type typed plain).1) (form_last_varint valueSmall)
  intro more
  rw [body]
  unfold streamsBody
  rw [rd_varint_then valueSmall, if_neg few]
  rfl

theorem recoded_retire (body : ∀ f, bodyOf type f kind = retireBody f)
    (puts : ∀ f, putsOf f kind = [.varint f.type, .varint f.id]) : Recoded f := by
  rw [body] at read
  obtain ⟨id, between, idSmall, -, read⟩ := then_read read
  cases read
  refine recoded_plain (quicVarintPut id) typed plain rfl ?_ ?_
  · rw [puts]
    exact form_varint (small_type (plain_type typed plain).1) (form_last_varint idSmall)
  intro more
  rw [body]
  exact rd_varint_then idSmall more

theorem recoded_id_value (body : ∀ f, bodyOf type f kind = idValueBody f)
    (puts : ∀ f, putsOf f kind = [.varint f.type, .varint f.id, .varint f.value]) : Recoded f := by
  rw [body] at read
  obtain ⟨id, between, idSmall, -, read⟩ := then_read read
  obtain ⟨value, between', valueSmall, -, read⟩ := then_read read
  cases read
  refine recoded_plain (quicVarintPut id ++ quicVarintPut value) typed plain rfl ?_ ?_
  · rw [puts]
    exact form_varint (small_type (plain_type typed plain).1) (form_varint idSmall (form_last_varint valueSmall))
  intro more
  rw [body, append_assoc]
  unfold idValueBody
  rw [rd_varint_then idSmall, rd_varint_then valueSmall]
  rfl

theorem recoded_reset_stream (body : ∀ f, bodyOf type f kind = resetStreamBody f)
    (puts : ∀ f, putsOf f kind = [.varint f.type, .varint f.id, .varint f.value, .varint f.finalSize]) : Recoded f := by
  rw [body] at read
  obtain ⟨id, between, idSmall, -, read⟩ := then_read read
  obtain ⟨value, between', valueSmall, -, read⟩ := then_read read
  obtain ⟨size, between'', sizeSmall, -, read⟩ := then_read read
  cases read
  refine recoded_plain (quicVarintPut id ++ (quicVarintPut value ++ quicVarintPut size)) typed plain rfl ?_ ?_
  · rw [puts]
    exact form_varint (small_type (plain_type typed plain).1)
      (form_varint idSmall (form_varint valueSmall (form_last_varint sizeSmall)))
  intro more
  rw [body, append_assoc, append_assoc]
  unfold resetStreamBody
  rw [rd_varint_then idSmall, rd_varint_then valueSmall, rd_varint_then sizeSmall]
  rfl

theorem recoded_path (body : ∀ f, bodyOf type f kind = pathBody f)
    (puts : ∀ f, putsOf f kind = [.varint f.type, if f.data.length ≠ 8 then .refuse else .raw f.data]) : Recoded f := by
  rw [body] at read
  obtain ⟨data, between, counted, read⟩ := bind_scanned read
  cases read
  have length := (count_got counted).1
  refine recoded_plain data typed plain rfl ?_ ?_
  · rw [puts]
    simp only
    rw [if_neg (not_not_intro length)]
    exact form_varint (small_type (plain_type typed plain).1) (form_last_raw data)
  intro more
  rw [body]
  exact count_then length more

theorem recoded_new_token (body : ∀ f, bodyOf type f kind = newTokenBody f)
    (puts : ∀ f, putsOf f kind = [.varint f.type, .varint f.data.length, .raw f.data]) : Recoded f := by
  rw [body] at read
  obtain ⟨len, between, lenSmall, -, read⟩ := then_read read
  obtain ⟨data, between', counted, read⟩ := bind_scanned read
  obtain ⟨some, read⟩ := guard_scanned read
  cases read
  have length := (count_got counted).1
  subst length
  refine recoded_plain (quicVarintPut data.length ++ data) typed plain rfl ?_ ?_
  · rw [puts]
    exact form_varint (small_type (plain_type typed plain).1) (form_varint lenSmall (form_last_raw data))
  intro more
  rw [body, append_assoc]
  unfold newTokenBody
  rw [rd_varint_then lenSmall, count_then rfl, if_neg some]
  rfl

theorem recoded_crypto (body : ∀ f, bodyOf type f kind = cryptoBody f)
    (puts : ∀ f, putsOf f kind = [.varint f.type, .varint f.offset, .varint f.data.length, .raw f.data]) : Recoded f := by
  rw [body] at read
  obtain ⟨offset, afterOffset, offsetSmall, -, read⟩ := then_read read
  obtain ⟨len, between, lenSmall, -, read⟩ := then_read read
  obtain ⟨data, between', counted, read⟩ := bind_scanned read
  obtain ⟨within, read⟩ := guard_scanned read
  cases read
  have length := (count_got counted).1
  subst length
  refine recoded_plain (quicVarintPut offset ++ (quicVarintPut data.length ++ data)) typed plain rfl ?_ ?_
  · rw [puts]
    exact form_varint (small_type (plain_type typed plain).1)
      (form_varint offsetSmall (form_varint lenSmall (form_last_raw data)))
  intro more
  rw [body, append_assoc, append_assoc]
  unfold cryptoBody
  rw [rd_varint_then offsetSmall, rd_varint_then lenSmall, count_then rfl, if_neg within]
  rfl

theorem recoded_new_connection_id (body : ∀ f, bodyOf type f kind = newConnectionIdBody f) (puts : ∀ f, putsOf f kind =
      [.varint f.type, .varint f.id, .varint f.value, .uint f.cid.length 1, .raw f.cid, .raw f.resetToken]) : Recoded f := by
  rw [body] at read
  obtain ⟨id, afterId, idSmall, -, read⟩ := then_read read
  obtain ⟨value, afterValue, valueSmall, -, read⟩ := then_read read
  obtain ⟨len, afterLen, lenRead, read⟩ := bind_scanned read
  obtain ⟨valid, read⟩ := guard_scanned read
  obtain ⟨cid, afterCid, cidRead, read⟩ := bind_scanned read
  obtain ⟨token, afterToken, tokenRead, read⟩ := bind_scanned read
  cases read
  have lenSmall := rd_uint_got lenRead
  have length := (count_got cidRead).1
  have tokenLength := (count_got tokenRead).1
  subst length
  refine recoded_plain (quicVarintPut id ++ (quicVarintPut value ++ (bigEndianBytes 1 cid.length ++ (cid ++ token))))
    typed plain rfl ?_ ?_
  · rw [puts]
    exact form_varint (small_type (plain_type typed plain).1)
      (form_varint idSmall (form_varint valueSmall (form_uint (form_raw (form_last_raw token)))))
  intro more
  rw [body]
  simp only [append_assoc]
  unfold newConnectionIdBody
  rw [rd_varint_then idSmall, rd_varint_then valueSmall, rd_uint_then lenSmall, if_neg valid, count_then rfl,
    count_then tokenLength]
  rfl

theorem recoded_close (body : ∀ f, bodyOf type f kind = closeBody f true)
    (puts : ∀ f, putsOf f kind = [.varint f.type, .varint f.value, .varint f.frameType, .varint f.data.length, .raw f.data]) : Recoded f := by
  rw [body] at read
  obtain ⟨value, afterValue, valueSmall, -, read⟩ := then_read read
  obtain ⟨frameType, afterType, typeSmall, -, read⟩ := then_read read
  obtain ⟨len, afterLen, lenSmall, -, read⟩ := then_read read
  obtain ⟨data, between, counted, read⟩ := bind_scanned read
  cases read
  have length := (count_got counted).1
  subst length
  refine recoded_plain (quicVarintPut value ++ (quicVarintPut frameType ++ (quicVarintPut data.length ++ data)))
    typed plain rfl ?_ ?_
  · rw [puts]
    exact form_varint (small_type (plain_type typed plain).1)
      (form_varint valueSmall (form_varint typeSmall (form_varint lenSmall (form_last_raw data))))
  intro more
  rw [body]
  simp only [append_assoc]
  unfold closeBody
  rw [rd_varint_then valueSmall, cond_true, rd_varint_then typeSmall, rd_varint_then lenSmall, count_then rfl]
  rfl

theorem recoded_close_app (body : ∀ f, bodyOf type f kind = closeBody f false)
    (puts : ∀ f, putsOf f kind = [.varint f.type, .varint f.value, .varint f.data.length, .raw f.data]) : Recoded f := by
  rw [body] at read
  obtain ⟨value, afterValue, valueSmall, -, read⟩ := then_read read
  obtain ⟨frameType, afterType, typeRead, read⟩ := bind_scanned read
  cases typeRead
  obtain ⟨len, afterLen, lenSmall, -, read⟩ := then_read read
  obtain ⟨data, between, counted, read⟩ := bind_scanned read
  cases read
  have length := (count_got counted).1
  subst length
  refine recoded_plain (quicVarintPut value ++ (quicVarintPut data.length ++ data)) typed plain rfl ?_ ?_
  · rw [puts]
    exact form_varint (small_type (plain_type typed plain).1)
      (form_varint valueSmall (form_varint lenSmall (form_last_raw data)))
  intro more
  rw [body]
  simp only [append_assoc]
  unfold closeBody
  rw [rd_varint_then valueSmall, cond_false, bind_got (pure_apply _ _), rd_varint_then lenSmall, count_then rfl]
  rfl

end Shapes

theorem stream_type_bits (f) : frameTypeOf (streamType f) = some .stream ∧ (0x08 ≤ streamType f ∧ streamType f ≤ 0x0f) ∧
      (streamType f &&& 0x04 ≠ 0 ↔ f.offset ≠ 0) ∧ streamType f &&& 0x02 ≠ 0 ∧
      (streamType f &&& 0x01 ≠ 0 ↔ f.fin = true) := by
  unfold streamType
  by_cases start : f.offset = 0 <;> cases f.fin <;> simp [start] <;> decide

def streamFrame (id offset : Nat) (data : List Byte) (fin : Bool) : QuicFrame :=
  { zeroFrame with type := 0x08, id := id, offset := offset, data := data, fin := fin }

theorem stream_recoded {id offset : Nat} {data : List Byte} (fin : Bool) (idSmall : id ≤ quicVarintMax)
    (within : ¬streamLimit - offset < data.length) (offsetSmall : offset ≤ quicVarintMax) :
    Recoded (streamFrame id offset data fin) := by
  obtain ⟨typed, inside, offsetBit, lengthBit, finBit⟩ := stream_type_bits (streamFrame id offset data fin)
  have top : streamLimit = quicVarintMax := rfl
  have lenSmall : data.length ≤ quicVarintMax := by omega
  have typeSmall : streamType (streamFrame id offset data fin) ≤ quicVarintMax := by
    unfold quicVarintMax
    omega
  have puts : framePuts (streamFrame id offset data fin) =
      [.varint (streamType (streamFrame id offset data fin)), .varint id] ++
        (if offset ≠ 0 then [.varint offset] else []) ++ [.varint data.length, .raw data] := rfl
  have body (input : List Byte) : frameBody (streamType (streamFrame id offset data fin)) input =
      streamBody { zeroFrame with type := 0x08 } (streamType (streamFrame id offset data fin)) input := by
    unfold frameBody
    simp only [typed]
    rw [if_pos inside]
    rfl
  have finSame : decide (streamType (streamFrame id offset data fin) &&& 0x01 ≠ 0) = fin := by
    cases fin with
    | true => exact decide_eq_true (finBit.mpr rfl)
    | false => exact decide_eq_false fun set => Bool.false_ne_true (finBit.mp set)
  have lengthSame : decide (streamType (streamFrame id offset data fin) &&& 0x02 ≠ 0) = true := decide_eq_true lengthBit
  generalize streamType (streamFrame id offset data fin) = type at *
  by_cases start : offset = 0
  · have offsetSame : decide (type &&& 0x04 ≠ 0) = false := decide_eq_false fun set => offsetBit.mp set start
    refine ⟨quicVarintPut type ++ (quicVarintPut id ++ (quicVarintPut data.length ++ data)), ?_, fun more => ?_⟩
    · rw [puts, if_neg (not_not_intro start)]
      exact form_varint typeSmall (form_varint idSmall (form_varint lenSmall (form_last_raw data)))
    refine frame_read_put typeSmall ?_
    rw [body]
    simp only [append_assoc]
    unfold streamBody
    rw [rd_varint_then idSmall, offsetSame, cond_false, bind_got (pure_apply _ _), lengthSame, cond_true,
      rd_varint_then lenSmall, count_then rfl, if_neg (start ▸ within), finSame, start]
    rfl
  have offsetSame : decide (type &&& 0x04 ≠ 0) = true := decide_eq_true (offsetBit.mpr start)
  refine ⟨quicVarintPut type ++ (quicVarintPut id ++ (quicVarintPut offset ++ (quicVarintPut data.length ++ data))),
    ?_, fun more => ?_⟩
  · rw [puts, if_pos start]
    exact form_varint typeSmall
      (form_varint idSmall (form_varint offsetSmall (form_varint lenSmall (form_last_raw data))))
  refine frame_read_put typeSmall ?_
  rw [body]
  simp only [append_assoc]
  unfold streamBody
  rw [rd_varint_then idSmall, offsetSame, cond_true, rd_varint_then offsetSmall, lengthSame, cond_true,
    rd_varint_then lenSmall, count_then rfl, if_neg within, finSame]
  rfl

theorem recoded_stream {type : Nat} {f : QuicFrame} {input rest : List Byte}
    (read : streamBody { zeroFrame with type := 0x08 } type input = .got f rest) : Recoded f := by
  obtain ⟨id, afterId, idSmall, -, read⟩ := then_read read
  obtain ⟨offset, afterOffset, offsetRead, read⟩ := bind_scanned read
  obtain ⟨len, afterLen, lenRead, read⟩ := bind_scanned read
  obtain ⟨data, between, counted, read⟩ := bind_scanned read
  obtain ⟨within, read⟩ := guard_scanned read
  cases read
  have length := (count_got counted).1
  subst length
  have offsetSmall : offset ≤ quicVarintMax := by
    cases bit : decide (type &&& 0x04 ≠ 0) with
    | true =>
      rw [bit] at offsetRead
      exact (rd_varint_got offsetRead).1
    | false =>
      rw [bit] at offsetRead
      cases offsetRead
      exact Nat.zero_le _
  exact stream_recoded _ idSmall within offsetSmall

theorem body_type (type) (f : QuicFrame) (kind : FrameType) :
    Yields (fun f' => f'.type = f.type) (bodyOf type f kind) := by
  have one {next : Nat → QuicFrame} (same : ∀ v, (next v).type = f.type) :
      Yields (fun f' => f'.type = f.type) (do let v ← quicRdVarint; pure (next v) : Scanner Byte Nat QuicFrame) :=
    yields_bind fun v => yields_pure (same v)
  have idValue : Yields (fun f' => f'.type = f.type) (idValueBody f) := yields_bind fun _ => one fun _ => rfl
  have streams : Yields (fun f' => f'.type = f.type) (streamsBody f) :=
    yields_bind fun _ => yields_ite (yields_fail _ _) (yields_pure rfl)
  have ack (ecn : Bool) : Yields (fun f' => f'.type = f.type) (ackBody f ecn) :=
    yields_bind fun _ => yields_bind fun _ => yields_bind fun _ => yields_bind fun _ =>
      yields_ite (yields_fail _ _) (yields_bind fun _ => yields_bind fun _ => yields_pure rfl)
  have close (transport : Bool) : Yields (fun f' => f'.type = f.type) (closeBody f transport) :=
    yields_bind fun _ => yields_bind fun _ => yields_bind fun _ => yields_bind fun _ => yields_pure rfl
  cases kind with
  | padding | ping | handshakeDone => exact yields_pure rfl
  | ack => exact ack false
  | ackEcn => exact ack true
  | resetStream => exact yields_bind fun _ => yields_bind fun _ => one fun _ => rfl
  | stopSending | maxStreamData | streamDataBlocked => exact idValue
  | crypto =>
    exact yields_bind fun _ => yields_bind fun _ => yields_bind fun _ => yields_ite (yields_fail _ _) (yields_pure rfl)
  | newToken => exact yields_bind fun _ => yields_bind fun _ => yields_ite (yields_fail _ _) (yields_pure rfl)
  | maxData | dataBlocked | retireConnectionId => exact one fun _ => rfl
  | maxStreamsBidi | maxStreamsUni | streamsBlockedBidi | streamsBlockedUni => exact streams
  | newConnectionId =>
    exact yields_bind fun _ => yields_bind fun _ => yields_bind fun _ => yields_ite (yields_fail _ _)
      (yields_bind fun _ => yields_bind fun _ => yields_pure rfl)
  | pathChallenge | pathResponse => exact yields_bind fun _ => yields_pure rfl
  | connectionClose => exact close true
  | connectionCloseApp => exact close false
  | stream =>
    exact yields_bind fun _ => yields_bind fun _ => yields_bind fun _ => yields_bind fun _ =>
      yields_ite (yields_fail _ _) (yields_pure rfl)

theorem special_types : ∀ type < 31, (frameTypeOf type = some .ack → type = 0x02) ∧
    (frameTypeOf type = some .ackEcn → type = 0x03) ∧ (frameTypeOf type = some .stream → 0x08 ≤ type ∧ type ≤ 0x0f) := by
  decide

theorem body_recoded {type : Nat} {f : QuicFrame} {input rest : List Byte}
    (read : frameBody type input = .got f rest) (notAck : f.type ≠ 0x02) (notAckEcn : f.type ≠ 0x03) : Recoded f := by
  unfold frameBody at read
  cases typed : frameTypeOf type with
  | none => rw [typed] at read; cases read
  | some kind =>
    rw [typed] at read
    simp only at read
    have less : type < 31 := (List.getElem?_eq_some_iff.mp typed).1
    obtain ⟨isAck, isAckEcn, isStream⟩ := special_types type less
    by_cases streams : kind = .stream
    · subst streams
      rw [if_pos (isStream typed)] at read
      exact recoded_stream read
    rw [if_neg (plain_type typed streams).2] at read
    cases kind with
    | padding => exact recoded_bare typed streams read (fun _ => rfl) fun _ => rfl
    | ping => exact recoded_bare typed streams read (fun _ => rfl) fun _ => rfl
    | handshakeDone => exact recoded_bare typed streams read (fun _ => rfl) fun _ => rfl
    | ack => exact absurd ((body_type _ _ .ack _ _ _ read).trans (isAck typed)) notAck
    | ackEcn => exact absurd ((body_type _ _ .ackEcn _ _ _ read).trans (isAckEcn typed)) notAckEcn
    | resetStream => exact recoded_reset_stream typed streams read (fun _ => rfl) fun _ => rfl
    | stopSending => exact recoded_id_value typed streams read (fun _ => rfl) fun _ => rfl
    | maxStreamData => exact recoded_id_value typed streams read (fun _ => rfl) fun _ => rfl
    | streamDataBlocked => exact recoded_id_value typed streams read (fun _ => rfl) fun _ => rfl
    | crypto => exact recoded_crypto typed streams read (fun _ => rfl) fun _ => rfl
    | newToken => exact recoded_new_token typed streams read (fun _ => rfl) fun _ => rfl
    | stream => exact absurd rfl streams
    | maxData => exact recoded_value typed streams read (fun _ => rfl) fun _ => rfl
    | dataBlocked => exact recoded_value typed streams read (fun _ => rfl) fun _ => rfl
    | maxStreamsBidi => exact recoded_streams typed streams read (fun _ => rfl) fun _ => rfl
    | maxStreamsUni => exact recoded_streams typed streams read (fun _ => rfl) fun _ => rfl
    | streamsBlockedBidi => exact recoded_streams typed streams read (fun _ => rfl) fun _ => rfl
    | streamsBlockedUni => exact recoded_streams typed streams read (fun _ => rfl) fun _ => rfl
    | newConnectionId => exact recoded_new_connection_id typed streams read (fun _ => rfl) fun _ => rfl
    | retireConnectionId => exact recoded_retire typed streams read (fun _ => rfl) fun _ => rfl
    | pathChallenge => exact recoded_path typed streams read (fun _ => rfl) fun _ => rfl
    | pathResponse => exact recoded_path typed streams read (fun _ => rfl) fun _ => rfl
    | connectionClose => exact recoded_close typed streams read (fun _ => rfl) fun _ => rfl
    | connectionCloseApp => exact recoded_close_app typed streams read (fun _ => rfl) fun _ => rfl

theorem onward_remaining : Onward remaining := by
  intro input value rest read
  cases read
  exact suffix_refl _

theorem onward_varint : Onward (quicRdVarint : Scanner Byte Nat Nat) := onward_of_settled settled_rd_varint

theorem settled_pair : Settled rdPair :=
  settled_bind settled_rd_varint fun _ => settled_bind settled_rd_varint fun _ => settled_pure _

theorem ack_loop_onward (left turns lo : Nat) (input rest : List Byte)
    (read : (ackLoop left turns lo input).2 = .got () rest) : rest <:+ input := by
  induction left generalizing turns lo input with
  | zero =>
    cases read
    exact suffix_refl _
  | succ left ih =>
    rw [ackLoop] at read
    cases scanned : rdPair input with
    | short => rw [scanned] at read; cases read
    | bad fault => rw [scanned] at read; cases read
    | got value between =>
      obtain ⟨gap, len⟩ := value
      rw [scanned] at read
      simp only at read
      split at read
      · cases read
      split at read
      · cases read
      · exact (ih _ _ _ read).trans (settled_pair.steady.suffix _ _ _ scanned)

theorem onward_ranges (rangeCount lo : Nat) : Onward (rdRanges rangeCount lo) := by
  intro input value rest read
  unfold rdRanges at read
  cases looped : (ackLoop rangeCount 0 lo input).2 with
  | short | bad => rw [looped] at read; cases read
  | got done between =>
    rw [looped] at read
    cases read
    exact ack_loop_onward _ _ _ _ _ looped

theorem ack_loop_turns (left turns lo : Nat) (input : List Byte) :
    2 * (ackLoop left turns lo input).1 ≤ 2 * turns + input.length + 2 := by
  induction left generalizing turns lo input with
  | zero =>
    rw [ackLoop]
    omega
  | succ left ih =>
    rw [ackLoop]
    cases scanned : rdPair input with
    | short =>
      simp only
      omega
    | bad fault =>
      simp only
      omega
    | got value between =>
      obtain ⟨gap, len⟩ := value
      obtain ⟨gap', afterGap, gapRead, later⟩ := bind_scanned scanned
      obtain ⟨len', afterLen, lenRead, later⟩ := bind_scanned later
      cases later
      have first := consumes_rd_varint _ _ _ gapRead
      have second := consumes_rd_varint _ _ _ lenRead
      simp only
      split
      · simp only
        omega
      split
      · simp only
        omega
      have rest := ih (turns + 1) (lo - gap - 2 - len) between
      omega

theorem onward_ack (f) (ecn : Bool) : Onward (ackBody f ecn) := by
  refine onward_bind onward_varint fun largest => onward_bind onward_varint fun ackDelay => ?_
  refine onward_bind onward_varint fun rangeCount => onward_bind onward_varint fun firstRange => ?_
  refine onward_ite (onward_fail _) (onward_bind (onward_ranges _ _) fun ranges => onward_bind ?_ fun counts => onward_pure _)
  cases ecn with
  | false => exact onward_pure _
  | true =>
    exact onward_bind onward_varint fun ect0 => onward_bind onward_varint fun ect1 =>
      onward_bind onward_varint fun ce => onward_pure _

theorem onward_body (type) (f : QuicFrame) (kind : FrameType) : Onward (bodyOf type f kind) := by
  have value : Onward (valueBody f) := onward_bind onward_varint fun _ => onward_pure _
  have idValue : Onward (idValueBody f) := onward_bind onward_varint fun _ => onward_bind onward_varint fun _ => onward_pure _
  have streams : Onward (streamsBody f) := onward_bind onward_varint fun _ => onward_ite (onward_fail _) (onward_pure _)
  have path : Onward (pathBody f) := onward_bind (onward_count 8) fun _ => onward_pure _
  have chosen (bit : Bool) {other : Scanner Byte Nat Nat} (onward : Onward other) : Onward (cond bit quicRdVarint other) := by
    cases bit with
    | false => exact onward
    | true => exact onward_varint
  have close (transport : Bool) : Onward (closeBody f transport) :=
    onward_bind onward_varint fun _ => onward_bind (chosen transport (onward_pure _)) fun _ =>
      onward_bind onward_varint fun len => onward_bind (onward_count len) fun _ => onward_pure _
  cases kind with
  | padding | ping | handshakeDone => exact onward_pure f
  | ack => exact onward_ack f false
  | ackEcn => exact onward_ack f true
  | resetStream =>
    exact onward_bind onward_varint fun _ => onward_bind onward_varint fun _ => onward_bind onward_varint fun _ =>
      onward_pure _
  | stopSending | maxStreamData | streamDataBlocked => exact idValue
  | crypto =>
    exact onward_bind onward_varint fun _ => onward_bind onward_varint fun len => onward_bind (onward_count len) fun _ =>
      onward_ite (onward_fail _) (onward_pure _)
  | newToken =>
    exact onward_bind onward_varint fun len => onward_bind (onward_count len) fun _ =>
      onward_ite (onward_fail _) (onward_pure _)
  | maxData | dataBlocked => exact value
  | maxStreamsBidi | maxStreamsUni | streamsBlockedBidi | streamsBlockedUni => exact streams
  | newConnectionId =>
    exact onward_bind onward_varint fun _ => onward_bind onward_varint fun _ =>
      onward_bind (onward_of_settled (settled_rd_uint 1)) fun len => onward_ite (onward_fail _)
        (onward_bind (onward_count len) fun _ => onward_bind (onward_count _) fun _ => onward_pure _)
  | retireConnectionId => exact onward_bind onward_varint fun _ => onward_pure _
  | pathChallenge | pathResponse => exact path
  | connectionClose => exact close true
  | connectionCloseApp => exact close false
  | stream =>
    exact onward_bind onward_varint fun _ => onward_bind (chosen _ (onward_pure _)) fun _ =>
      onward_bind (chosen _ onward_remaining) fun len => onward_bind (onward_count len) fun _ =>
        onward_ite (onward_fail _) (onward_pure _)

theorem frame_read_onward {input rest : List Byte} {f : QuicFrame} (read : quicFrameRead input = .ok (f, rest)) :
    ∃ type between, frameBody type between = .got f rest ∧ rest <:+ input ∧ rest.length < input.length := by
  unfold quicFrameRead at read
  cases scanned : frameScan input with
  | short | bad => rw [scanned] at read; cases read
  | got f' rest' =>
    rw [scanned] at read
    cases read
    unfold frameScan at scanned
    rw [bind_got (show remaining input = .got _ _ from rfl)] at scanned
    obtain ⟨type, between, typeRead, scanned⟩ := bind_scanned scanned
    rw [bind_got (show remaining between = .got _ _ from rfl)] at scanned
    obtain ⟨-, scanned⟩ := guard_scanned scanned
    have shorter := consumes_rd_varint _ _ _ typeRead
    have onward : rest <:+ between := by
      unfold frameBody at scanned
      cases typed : frameTypeOf type with
      | none => rw [typed] at scanned; cases scanned
      | some kind =>
        rw [typed] at scanned
        exact onward_body _ _ kind _ _ _ scanned
    have less := onward.length_le
    exact ⟨type, between, scanned, onward.trans (onward_varint _ _ _ typeRead), by omega⟩

theorem frame_put_fits {w : Writer} {f : QuicFrame} {bytes : List Byte} (ok : w.ok = true)
    (form : formOf (framePuts f) = some bytes) (fits : bytes.length ≤ w.cap - w.out.length) :
    quicFramePut w f = ({ w with out := w.out ++ bytes }, true) := by
  unfold quicFramePut
  simp only [puts_fit ok form fits, ok]
  rfl

theorem frame_put_failed {w : Writer} {f : QuicFrame} (failed : (quicFramePut w f).2 = false) :
    (quicFramePut w f).1 = { w with ok := true } := by
  obtain ⟨extends_, cap⟩ := puts_extend w (framePuts f)
  unfold quicFramePut at failed ⊢
  simp only at failed ⊢
  cases ok : (runPuts w (framePuts f)).ok with
  | true =>
    rw [ok] at failed
    exact absurd failed (by simp)
  | false =>
    simp only [Bool.not_false, if_true]
    rw [← prefix_iff_eq_take.mp extends_, cap]

/-- What is read of a frame other than ACK can be written where there is room, and is read from that again, from just
those bytes; a put that fails leaves the writer where it was; a read takes at least a byte, and none that is not there;
and the ranges of an ACK are looked at as long as there are bytes for them, whatever count it announces. -/
theorem frames_round_trip :
    (∀ input rest f, quicFrameRead input = .ok (f, rest) → f.type ≠ 0x02 → f.type ≠ 0x03 → ∃ bytes,
      (∀ w : Writer, w.ok = true → bytes.length ≤ w.cap - w.out.length →
        quicFramePut w f = ({ w with out := w.out ++ bytes }, true)) ∧
      ∀ more, quicFrameRead (bytes ++ more) = .ok (f, more)) ∧
    (∀ w f, (quicFramePut w f).2 = false → (quicFramePut w f).1 = { w with ok := true }) ∧
    (∀ input rest f, quicFrameRead input = .ok (f, rest) → rest <:+ input ∧ rest.length < input.length) ∧
    ∀ rangeCount lo input, (ackLoop rangeCount 0 lo input).1 ≤ input.length / 2 + 1 := by
  refine ⟨?_, fun w f failed => frame_put_failed failed, ?_, ?_⟩
  · intro input rest f read notAck notAckEcn
    obtain ⟨type, between, scanned, -⟩ := frame_read_onward read
    obtain ⟨bytes, form, reads⟩ := body_recoded scanned notAck notAckEcn
    exact ⟨bytes, fun w ok fits => frame_put_fits ok form fits, reads⟩
  · intro input rest f read
    obtain ⟨-, -, -, onward, shorter⟩ := frame_read_onward read
    exact ⟨onward, shorter⟩
  intro rangeCount lo input
  have turns := ack_loop_turns rangeCount 0 lo input
  omega

/-- The last STREAM frame of a packet, without a length, written with one. -/
theorem frames_round_trip_stream : ∃ bytes, (∀ w : Writer, w.ok = true → bytes.length ≤ w.cap - w.out.length →
      quicFramePut w (streamFrame 4 0 [0x68, 0x69] true) = ({ w with out := w.out ++ bytes }, true)) ∧
    ∀ more, quicFrameRead (bytes ++ more) = .ok (streamFrame 4 0 [0x68, 0x69] true, more) :=
  frames_round_trip.1 [0x09, 0x04, 0x68, 0x69] [] _ (by rfl) (by decide) (by decide)

example : (quicFramePut ⟨[], 5, true⟩ (streamFrame 4 0 [0x68, 0x69] true)).1.out = [0x0b, 0x04, 0x02, 0x68, 0x69] := by
  decide

/-- The loop over a payload, to its end: frame after frame. -/
inductive Payload : List Byte → List QuicFrame → Prop
  | done : Payload [] []
  | more {input rest f frames} (read : quicFrameRead input = .ok (f, rest)) (later : Payload rest frames) :
      Payload input (f :: frames)

/-- The frames of a payload, written to any packet with room for them, are what its reader gets. -/
theorem payload_recoded {input : List Byte} {frames : List QuicFrame} (payload : Payload input frames)
    (plain : ∀ f ∈ frames, f.type ≠ 0x02 ∧ f.type ≠ 0x03) : ∃ text, Payload text frames ∧ ∀ w : Writer, w.ok = true →
      text.length ≤ w.cap - w.out.length → frames.foldl (fun w f => (quicFramePut w f).1) w = { w with out := w.out ++ text } := by
  induction payload with
  | done => exact ⟨[], .done, by simp⟩
  | more read _ ih =>
    rw [forall_mem_cons] at plain
    obtain ⟨type, between, scanned, -⟩ := frame_read_onward read
    obtain ⟨bytes, form, reads⟩ := body_recoded scanned plain.1.1 plain.1.2
    obtain ⟨text, again, put⟩ := ih plain.2
    refine ⟨bytes ++ text, .more (reads text) again, fun w ok fits => ?_⟩
    rw [length_append] at fits
    rw [foldl_cons, frame_put_fits ok form (by omega), ← append_assoc]
    exact put ⟨w.out ++ bytes, w.cap, w.ok⟩ ok (by simp only [length_append]; omega)

theorem payload_recoded_stream : ∃ text, Payload text [streamFrame 4 0 [0x68] true] :=
  (payload_recoded (.more (show quicFrameRead [9, 4, 0x68] = .ok (_, []) by rfl) .done) (by decide)).imp fun _ found => found.1

end ProvenC.Quic.FrameCodec
