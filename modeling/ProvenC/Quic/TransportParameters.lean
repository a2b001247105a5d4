import ProvenC.Quic.FrameCodec

/-!
# Transport parameters (RFC 9000, section 18, and RFC 9368, section 3)

A list of parameters, each an id, a length and a value, in any order. Those that are known are read by their ids; the
integers have defaults, which are not sent.
-/

namespace ProvenC.Quic.TransportParameters

open Bytes Lib.BigEndian Lib.Scanning
open Quic.Varint
open Quic.FrameCodec (quicMaxCid remaining form_varint form_last_varint form_raw form_last_raw)

inductive TpId where
  | originalDcid | maxIdleTimeout | resetToken | maxUdpPayload | maxData | maxStreamDataBidiLocal
  | maxStreamDataBidiRemote | maxStreamDataUni | maxStreamsBidi | maxStreamsUni | ackDelayExponent | maxAckDelay
  | disableMigration | preferredAddress | cidLimit | initialScid | retryScid | versionInfo
deriving DecidableEq, Repr

def TpId.code : TpId → Nat
  | .originalDcid => 0x00
  | .maxIdleTimeout => 0x01
  | .resetToken => 0x02
  | .maxUdpPayload => 0x03
  | .maxData => 0x04
  | .maxStreamDataBidiLocal => 0x05
  | .maxStreamDataBidiRemote => 0x06
  | .maxStreamDataUni => 0x07
  | .maxStreamsBidi => 0x08
  | .maxStreamsUni => 0x09
  | .ackDelayExponent => 0x0a
  | .maxAckDelay => 0x0b
  | .disableMigration => 0x0c
  | .preferredAddress => 0x0d
  | .cidLimit => 0x0e
  | .initialScid => 0x0f
  | .retryScid => 0x10
  | .versionInfo => 0x11

def tpIds : List TpId :=
  [.originalDcid, .maxIdleTimeout, .resetToken, .maxUdpPayload, .maxData, .maxStreamDataBidiLocal,
    .maxStreamDataBidiRemote, .maxStreamDataUni, .maxStreamsBidi, .maxStreamsUni, .ackDelayExponent, .maxAckDelay,
    .disableMigration, .preferredAddress, .cidLimit, .initialScid, .retryScid, .versionInfo]

def tpIdOf (id : Nat) : Option TpId := tpIds[id]?

def quicResetToken : Nat := 16
def quicTpVersions : Nat := 8
def streamsMax : Nat := 1 <<< 60
def transportParameterError : Nat := 0x08

structure ResetToken where
  bytes : List Byte
  whole : bytes.length = quicResetToken
deriving DecidableEq

structure PreferredAddress where
  ipv4 : List Byte
  ipv4Port : Nat
  ipv6 : List Byte
  ipv6Port : Nat
  cid : List Byte
  resetToken : ResetToken
deriving DecidableEq

/-- `proven_quic_tp_t`: what may be absent is an option, a connection ID its bytes, and version information the chosen
version with those available. -/
structure QuicTp where
  maxIdleTimeout : Nat
  maxUdpPayloadSize : Nat
  initialMaxData : Nat
  initialMaxStreamDataBidiLocal : Nat
  initialMaxStreamDataBidiRemote : Nat
  initialMaxStreamDataUni : Nat
  initialMaxStreamsBidi : Nat
  initialMaxStreamsUni : Nat
  ackDelayExponent : Nat
  maxAckDelay : Nat
  activeConnectionIdLimit : Nat
  disableActiveMigration : Bool
  originalDcid : Option (List Byte)
  initialScid : Option (List Byte)
  retryScid : Option (List Byte)
  resetToken : Option ResetToken
  preferredAddress : Option PreferredAddress
  versionInfo : Option (Nat × List Nat)
deriving DecidableEq

def quicTpDefaults : QuicTp :=
  { maxIdleTimeout := 0, maxUdpPayloadSize := 65527, initialMaxData := 0, initialMaxStreamDataBidiLocal := 0
    initialMaxStreamDataBidiRemote := 0, initialMaxStreamDataUni := 0, initialMaxStreamsBidi := 0
    initialMaxStreamsUni := 0, ackDelayExponent := 3, maxAckDelay := 25, activeConnectionIdLimit := 2
    disableActiveMigration := false, originalDcid := none, initialScid := none, retryScid := none, resetToken := none
    preferredAddress := none, versionInfo := none }

def tpIntIds : List TpId :=
  [.maxIdleTimeout, .maxUdpPayload, .maxData, .maxStreamDataBidiLocal, .maxStreamDataBidiRemote, .maxStreamDataUni,
    .maxStreamsBidi, .maxStreamsUni, .ackDelayExponent, .maxAckDelay, .cidLimit]

/-- `tp_field`, read. -/
def tpField (tp : QuicTp) : TpId → Option Nat
  | .maxIdleTimeout => some tp.maxIdleTimeout
  | .maxUdpPayload => some tp.maxUdpPayloadSize
  | .maxData => some tp.initialMaxData
  | .maxStreamDataBidiLocal => some tp.initialMaxStreamDataBidiLocal
  | .maxStreamDataBidiRemote => some tp.initialMaxStreamDataBidiRemote
  | .maxStreamDataUni => some tp.initialMaxStreamDataUni
  | .maxStreamsBidi => some tp.initialMaxStreamsBidi
  | .maxStreamsUni => some tp.initialMaxStreamsUni
  | .ackDelayExponent => some tp.ackDelayExponent
  | .maxAckDelay => some tp.maxAckDelay
  | .cidLimit => some tp.activeConnectionIdLimit
  | _ => none

/-- `tp_field`, written. -/
def tpSetField (tp : QuicTp) (value : Nat) : TpId → Option QuicTp
  | .maxIdleTimeout => some { tp with maxIdleTimeout := value }
  | .maxUdpPayload => some { tp with maxUdpPayloadSize := value }
  | .maxData => some { tp with initialMaxData := value }
  | .maxStreamDataBidiLocal => some { tp with initialMaxStreamDataBidiLocal := value }
  | .maxStreamDataBidiRemote => some { tp with initialMaxStreamDataBidiRemote := value }
  | .maxStreamDataUni => some { tp with initialMaxStreamDataUni := value }
  | .maxStreamsBidi => some { tp with initialMaxStreamsBidi := value }
  | .maxStreamsUni => some { tp with initialMaxStreamsUni := value }
  | .ackDelayExponent => some { tp with ackDelayExponent := value }
  | .maxAckDelay => some { tp with maxAckDelay := value }
  | .cidLimit => some { tp with activeConnectionIdLimit := value }
  | _ => none

def tpDefault (id : TpId) : Nat :=
  if id = .maxUdpPayload then 65527
  else if id = .ackDelayExponent then 3
  else if id = .maxAckDelay then 25
  else if id = .cidLimit then 2
  else 0

def tpIntOk (id : TpId) (v : Nat) : Bool :=
  match id with
  | .maxUdpPayload => 1200 ≤ v && v ≤ 65527
  | .ackDelayExponent => v ≤ 20
  | .maxAckDelay => v < 16384
  | .cidLimit => 2 ≤ v
  | .maxStreamsBidi | .maxStreamsUni => v ≤ streamsMax
  | _ => v ≤ quicVarintMax

def wrParam (id : TpId) (bytes : List Byte) : List Put := [.varint id.code, .varint bytes.length, .raw bytes]

def wrCid (id : TpId) (cid : List Byte) : List Put := if quicMaxCid < cid.length then [.refuse] else wrParam id cid

/-- One turn of the loop over the integers in `proven_quic_tp_encode`. -/
def tpEncodeInt (tp : QuicTp) (w : Writer) (id : TpId) : Option Writer := do
  let v ← tpField tp id
  if !tpIntOk id v then none
  else
    let w := match tp.resetToken with
      | some token => if id = .maxUdpPayload then runPuts w (wrParam .resetToken token.bytes) else w
      | none => w
    let w := if id = .cidLimit ∧ tp.disableActiveMigration = true then runPuts w (wrParam .disableMigration []) else w
    if v = tpDefault id then some w else some (runPuts w (wrParam id (quicVarintPut v)))

def versionBytes (chosen : Nat) (available : List Nat) : List Byte :=
  bigEndianBytes 4 chosen ++ available.flatMap (bigEndianBytes 4)

def wrOptional {Value : Type} (w : Writer) (value : Option Value) (puts : Value → List Put) : Writer :=
  match value with
  | none => w
  | some value => runPuts w (puts value)

/-- `proven_quic_tp_encode` into room for `cap` bytes: none for 0. -/
def quicTpEncode (tp : QuicTp) (server : Bool) (cap : Nat) : Option (List Byte) :=
  if !server && (tp.originalDcid.isSome || tp.retryScid.isSome || tp.resetToken.isSome) then none
  else if tp.preferredAddress.isSome then none
  else do
    let w := wrOptional ⟨[], cap, true⟩ tp.originalDcid (wrCid .originalDcid)
    let w ← tpIntIds.foldlM (tpEncodeInt tp) w
    let w := wrOptional w tp.initialScid (wrCid .initialScid)
    let w := wrOptional w tp.retryScid (wrCid .retryScid)
    if tp.versionInfo.any fun versions => quicTpVersions < versions.2.length then none
    else
      let w := wrOptional w tp.versionInfo fun versions => wrParam .versionInfo (versionBytes versions.1 versions.2)
      if w.ok ∧ w.out ≠ [] then some w.out else none

def rdCid (len : Nat) : Scanner Byte Nat (List Byte) :=
  if quicMaxCid < len then fail transportParameterError else count len

def rdToken : Scanner Byte Nat ResetToken := fun input =>
  if enough : quicResetToken ≤ input.length then
    .got ⟨input.take quicResetToken, List.length_take_of_le enough⟩ (input.drop quicResetToken)
  else .short

def rdAvailable : Nat → Scanner Byte Nat (List Nat)
  | 0 => pure []
  | more + 1 => do
      let version ← quicRdUint 4
      if version = 0 then fail transportParameterError
      else
        let rest ← rdAvailable more
        pure (version :: rest)

def rdVersionInfo (fromServer : Bool) (len : Nat) : Scanner Byte Nat (Nat × List Nat) :=
  if len < 4 ∨ len % 4 ≠ 0 ∨ quicTpVersions < len / 4 - 1 then fail transportParameterError
  else do
    let chosen ← quicRdUint 4
    if chosen = 0 then fail transportParameterError
    else
      let available ← rdAvailable (len / 4 - 1)
      if !fromServer && !available.contains chosen then fail transportParameterError else pure (chosen, available)

def rdPreferredAddress : Scanner Byte Nat PreferredAddress := do
  let ipv4 ← count 4
  let ipv4Port ← quicRdUint 2
  let ipv6 ← count 16
  let ipv6Port ← quicRdUint 2
  let cidLen ← quicRdUint 1
  if cidLen = 0 then fail transportParameterError
  else
    let cid ← rdCid cidLen
    let resetToken ← rdToken
    let left ← remaining
    if left ≠ 0 then fail transportParameterError else pure ⟨ipv4, ipv4Port, ipv6, ipv6Port, cid, resetToken⟩

def rdInt (tp : QuicTp) (id : TpId) : Scanner Byte Nat QuicTp := do
  let value ← quicRdVarint
  let left ← remaining
  match tpSetField tp value id with
  | none => fail transportParameterError
  | some tp => if left ≠ 0 || !tpIntOk id value then fail transportParameterError else pure tp

/-- The switch of `proven_quic_tp_decode`, over a value of `len` bytes. -/
def tpBody (fromServer : Bool) (tp : QuicTp) (len : Nat) : TpId → Scanner Byte Nat QuicTp
  | .originalDcid =>
    if !fromServer then fail transportParameterError
    else do
      let cid ← rdCid len
      pure { tp with originalDcid := some cid }
  | .retryScid =>
    if !fromServer then fail transportParameterError
    else do
      let cid ← rdCid len
      pure { tp with retryScid := some cid }
  | .initialScid => do
      let cid ← rdCid len
      pure { tp with initialScid := some cid }
  | .resetToken =>
    if !fromServer || len != 16 then fail transportParameterError
    else do
      let token ← rdToken
      pure { tp with resetToken := some token }
  | .disableMigration => if len ≠ 0 then fail transportParameterError else pure { tp with disableActiveMigration := true }
  | .versionInfo => do
      let versions ← rdVersionInfo fromServer len
      pure { tp with versionInfo := some versions }
  | .preferredAddress =>
    if !fromServer then fail transportParameterError
    else do
      let address ← rdPreferredAddress
      pure { tp with preferredAddress := some address }
  | id => rdInt tp id

def rdParam : Scanner Byte Nat (Nat × List Byte) := do
  let id ← quicRdVarint
  let len ← quicRdVarint
  let value ← count len
  pure (id, value)

structure TpState where
  tp : QuicTp
  seen : Nat

def tpTake (fromServer : Bool) (state : TpState) (id : Nat) (value : List Byte) : Option TpState :=
  match tpIdOf id with
  | none => some state
  | some known =>
    if state.seen &&& 1 <<< id ≠ 0 then none
    else
      match tpBody fromServer state.tp value.length known value with
      | .got tp _ => some ⟨tp, state.seen ||| 1 <<< id⟩
      | _ => none

def tpStep (fromServer : Bool) (state : TpState) : Scanner Byte Nat TpState := do
  let param ← rdParam
  match tpTake fromServer state param.1 param.2 with
  | none => fail transportParameterError
  | some next => pure next

def quicTpDecode (input : List Byte) (fromServer : Bool) : Except Nat QuicTp :=
  match driveAll (tpStep fromServer) ⟨quicTpDefaults, 0⟩ input with
  | .ok (state, []) =>
    if state.tp.initialScid.isNone || (fromServer && state.tp.originalDcid.isNone) then .error transportParameterError
    else .ok state.tp
  | _ => .error transportParameterError

def valueOf {Value : Type} (scanner : Scanner Byte Nat Value) (bytes : List Byte) : Option Value :=
  match scanner bytes with
  | .got value _ => some value
  | _ => none

def tpInt (found : TpId → Option (List Byte)) (id : TpId) : Nat :=
  match found id with
  | none => tpDefault id
  | some value => (valueOf quicRdVarint value).getD 0

def tpOf (fromServer : Bool) (found : TpId → Option (List Byte)) : QuicTp :=
  { maxIdleTimeout := tpInt found .maxIdleTimeout
    maxUdpPayloadSize := tpInt found .maxUdpPayload
    initialMaxData := tpInt found .maxData
    initialMaxStreamDataBidiLocal := tpInt found .maxStreamDataBidiLocal
    initialMaxStreamDataBidiRemote := tpInt found .maxStreamDataBidiRemote
    initialMaxStreamDataUni := tpInt found .maxStreamDataUni
    initialMaxStreamsBidi := tpInt found .maxStreamsBidi
    initialMaxStreamsUni := tpInt found .maxStreamsUni
    ackDelayExponent := tpInt found .ackDelayExponent
    maxAckDelay := tpInt found .maxAckDelay
    activeConnectionIdLimit := tpInt found .cidLimit
    disableActiveMigration := (found .disableMigration).isSome
    originalDcid := found .originalDcid
    initialScid := found .initialScid
    retryScid := found .retryScid
    resetToken := (found .resetToken).bind (valueOf rdToken)
    preferredAddress := (found .preferredAddress).bind (valueOf rdPreferredAddress)
    versionInfo := (found .versionInfo).bind fun value => valueOf (rdVersionInfo fromServer value.length) value }

def IntOk (id : TpId) (value : List Byte) : Prop :=
  ∃ v, (quicRdVarint : Scanner Byte Nat Nat) value = .got v [] ∧ tpIntOk id v = true

def ParamOk (fromServer : Bool) (id : TpId) (value : List Byte) : Prop :=
  match id with
  | .originalDcid | .retryScid => fromServer = true ∧ value.length ≤ quicMaxCid
  | .initialScid => value.length ≤ quicMaxCid
  | .resetToken => fromServer = true ∧ value.length = quicResetToken
  | .disableMigration => value = []
  | .preferredAddress => fromServer = true ∧ ∃ address, valueOf rdPreferredAddress value = some address
  | .versionInfo => ∃ versions, valueOf (rdVersionInfo fromServer value.length) value = some versions
  | id => IntOk id value

theorem value_of_some {Value : Type} {scanner : Scanner Byte Nat Value} {bytes : List Byte} {value : Value} :
    valueOf scanner bytes = some value ↔ ∃ rest, scanner bytes = .got value rest := by
  unfold valueOf
  cases scanner bytes with
  | short | bad | got => simp

theorem cid_whole {value : List Byte} (short : value.length ≤ quicMaxCid) : rdCid value.length value = .got value [] := by
  unfold rdCid
  rw [if_neg (Nat.not_lt.mpr short)]
  unfold count
  rw [if_pos (le_refl _), List.take_length, List.drop_length]

variable {input : List Byte}

theorem cid_long {len : Nat} (long : quicMaxCid < len) : rdCid len input = .bad transportParameterError := by
  unfold rdCid
  rw [if_pos long]
  rfl

theorem token_whole {value : List Byte} (length : value.length = quicResetToken) :
    ∃ token, valueOf rdToken value = some token := by
  unfold valueOf rdToken
  rw [dif_pos (le_of_eq length.symm)]
  exact ⟨_, rfl⟩

section Bodies

variable {fromServer : Bool} {value : List Byte} {tp' : QuicTp}

theorem cid_body (then_ : List Byte → QuicTp) :
    (∃ rest, (do let cid ← rdCid value.length; pure (then_ cid) : Scanner Byte Nat QuicTp) value = .got tp' rest) ↔
      value.length ≤ quicMaxCid ∧ tp' = then_ value := by
  rw [bind_apply]
  rcases Nat.lt_or_ge quicMaxCid value.length with long | short
  · rw [cid_long long]
    constructor
    · rintro ⟨rest, read⟩
      cases read
    rintro ⟨short, -⟩
    omega
  rw [cid_whole short]
  constructor
  · rintro ⟨rest, read⟩
    cases read
    exact ⟨short, rfl⟩
  rintro ⟨-, rfl⟩
  exact ⟨[], rfl⟩

theorem server_body {scanner : Scanner Byte Nat QuicTp} :
    (∃ rest, (if !fromServer then fail transportParameterError else scanner) value = .got tp' rest) ↔
      fromServer = true ∧ ∃ rest, scanner value = .got tp' rest := by
  cases fromServer with
  | true => simp
  | false =>
    constructor
    · rintro ⟨rest, read⟩
      cases read
    rintro ⟨server, -⟩
    cases server

theorem read_body {Value : Type} {scanner : Scanner Byte Nat Value} (then_ : Value → QuicTp) :
    (∃ rest, (do let read ← scanner; pure (then_ read) : Scanner Byte Nat QuicTp) value = .got tp' rest) ↔
      ∃ read, valueOf scanner value = some read ∧ tp' = then_ read := by
  rw [bind_apply]
  unfold valueOf
  cases scanned : scanner value with
  | short | bad =>
    constructor
    · rintro ⟨rest, read⟩
      cases read
    rintro ⟨read, none_, -⟩
    cases none_
  | got read rest =>
    constructor
    · rintro ⟨rest', ended⟩
      cases ended
      exact ⟨read, rfl, rfl⟩
    rintro ⟨read', same, rfl⟩
    cases same
    exact ⟨rest, rfl⟩

theorem int_body {id : TpId} {tp : QuicTp} {set : Nat → QuicTp} (field : ∀ v, tpSetField tp v id = some (set v)) :
    (∃ rest, rdInt tp id value = .got tp' rest) ↔
      ∃ v, (quicRdVarint : Scanner Byte Nat Nat) value = .got v [] ∧ tpIntOk id v = true ∧ tp' = set v := by
  unfold rdInt
  rw [bind_apply]
  cases scanned : (quicRdVarint : Scanner Byte Nat Nat) value with
  | short =>
    constructor
    · rintro ⟨rest, read⟩
      cases read
    rintro ⟨v, none_, -⟩
    cases none_
  | bad fault => exact absurd scanned (rd_varint_not_bad value fault)
  | got v rest =>
    simp only [Scan.andThen]
    rw [bind_got (show remaining rest = .got rest.length rest from rfl), field]
    simp only
    by_cases whole : rest = []
    · subst whole
      cases range : tpIntOk id v with
      | true =>
        constructor
        · rintro ⟨rest, read⟩
          cases read
          exact ⟨v, rfl, range, rfl⟩
        rintro ⟨v', same, -, rfl⟩
        cases same
        exact ⟨[], rfl⟩
      | false =>
        constructor
        · rintro ⟨rest, read⟩
          cases read
        rintro ⟨v', same, range', -⟩
        cases same
        rw [range] at range'
        cases range'
    rw [if_pos (by simp [whole])]
    constructor
    · rintro ⟨rest', read⟩
      cases read
    rintro ⟨v', same, -, -⟩
    cases same
    exact absurd rfl whole

end Bodies

theorem body_spec (fromServer) (found : TpId → Option (List Byte)) (id : TpId) (value : List Byte) (tp' : QuicTp) :
    (∃ rest, tpBody fromServer (tpOf fromServer found) value.length id value = .got tp' rest) ↔
      ParamOk fromServer id value ∧ tp' = tpOf fromServer (Function.update found id (some value)) := by
  have int {id : TpId} {set : Nat → QuicTp} (ok : ParamOk fromServer id value = IntOk id value)
      (field : ∀ v, tpSetField (tpOf fromServer found) v id = some (set v))
      (same : ∀ v rest, (quicRdVarint : Scanner Byte Nat Nat) value = .got v rest →
        set v = tpOf fromServer (Function.update found id (some value))) :
      (∃ rest, rdInt (tpOf fromServer found) id value = .got tp' rest) ↔
        ParamOk fromServer id value ∧ tp' = tpOf fromServer (Function.update found id (some value)) := by
    rw [ok, int_body field]
    constructor
    · rintro ⟨v, read, range, rfl⟩
      exact ⟨⟨v, read, range⟩, same v [] read⟩
    rintro ⟨⟨v, read, range⟩, rfl⟩
    exact ⟨v, read, range, (same v [] read).symm⟩
  cases id with
  | originalDcid | retryScid =>
    rw [tpBody, server_body, cid_body, ← and_assoc]
    rfl
  | initialScid =>
    rw [tpBody, cid_body]
    rfl
  | resetToken =>
    have split_ : (∃ rest, tpBody fromServer (tpOf fromServer found) value.length .resetToken value = .got tp' rest) ↔
        (fromServer = true ∧ value.length = quicResetToken) ∧ ∃ token, valueOf rdToken value = some token ∧
          tp' = { tpOf fromServer found with resetToken := some token } := by
      rw [← read_body, tpBody]
      by_cases right : fromServer = true ∧ value.length = quicResetToken
      · obtain ⟨server, length⟩ := right
        rw [server, length, if_neg (by decide)]
        simp
      have refused : (!fromServer || value.length != 16) = true := by
        cases fromServer with
        | false => rfl
        | true => simpa [quicResetToken] using right
      rw [if_pos refused]
      constructor
      · rintro ⟨rest, read⟩
        cases read
      rintro ⟨both, -⟩
      exact absurd both right
    rw [split_]
    constructor
    · rintro ⟨right, token, read, rfl⟩
      refine ⟨right, ?_⟩
      simp [tpOf, tpInt, read]
    rintro ⟨right, rfl⟩
    obtain ⟨token, read⟩ := token_whole right.2
    refine ⟨right, token, read, ?_⟩
    simp [tpOf, tpInt, read]
  | disableMigration =>
    rw [tpBody]
    by_cases nothing : value = []
    · subst nothing
      constructor
      · rintro ⟨rest, read⟩
        cases read
        exact ⟨rfl, by simp [tpOf, tpInt]⟩
      rintro ⟨-, rfl⟩
      exact ⟨[], by simp [tpOf, tpInt, pure_apply]⟩
    rw [if_pos (fun zero => nothing (List.length_eq_zero_iff.mp zero))]
    constructor
    · rintro ⟨rest, read⟩
      cases read
    rintro ⟨none_, -⟩
    exact absurd none_ nothing
  | preferredAddress =>
    rw [tpBody, server_body, read_body]
    constructor
    · rintro ⟨server, address, read, rfl⟩
      refine ⟨⟨server, address, read⟩, ?_⟩
      simp [tpOf, tpInt, read]
    rintro ⟨⟨server, address, read⟩, rfl⟩
    refine ⟨server, address, read, ?_⟩
    simp [tpOf, tpInt, read]
  | versionInfo =>
    rw [tpBody, read_body]
    constructor
    · rintro ⟨versions, read, rfl⟩
      refine ⟨⟨versions, read⟩, ?_⟩
      simp [tpOf, tpInt, read]
    rintro ⟨⟨versions, read⟩, rfl⟩
    refine ⟨versions, read, ?_⟩
    simp [tpOf, tpInt, read]
  | maxIdleTimeout =>
    exact @int .maxIdleTimeout _ rfl (fun _ => rfl) fun v rest read => by simp [tpOf, tpInt, valueOf, read]
  | maxUdpPayload =>
    exact @int .maxUdpPayload _ rfl (fun _ => rfl) fun v rest read => by simp [tpOf, tpInt, valueOf, read]
  | maxData =>
    exact @int .maxData _ rfl (fun _ => rfl) fun v rest read => by simp [tpOf, tpInt, valueOf, read]
  | maxStreamDataBidiLocal =>
    exact @int .maxStreamDataBidiLocal _ rfl (fun _ => rfl) fun v rest read => by simp [tpOf, tpInt, valueOf, read]
  | maxStreamDataBidiRemote =>
    exact @int .maxStreamDataBidiRemote _ rfl (fun _ => rfl) fun v rest read => by simp [tpOf, tpInt, valueOf, read]
  | maxStreamDataUni =>
    exact @int .maxStreamDataUni _ rfl (fun _ => rfl) fun v rest read => by simp [tpOf, tpInt, valueOf, read]
  | maxStreamsBidi =>
    exact @int .maxStreamsBidi _ rfl (fun _ => rfl) fun v rest read => by simp [tpOf, tpInt, valueOf, read]
  | maxStreamsUni =>
    exact @int .maxStreamsUni _ rfl (fun _ => rfl) fun v rest read => by simp [tpOf, tpInt, valueOf, read]
  | ackDelayExponent =>
    exact @int .ackDelayExponent _ rfl (fun _ => rfl) fun v rest read => by simp [tpOf, tpInt, valueOf, read]
  | maxAckDelay =>
    exact @int .maxAckDelay _ rfl (fun _ => rfl) fun v rest read => by simp [tpOf, tpInt, valueOf, read]
  | cidLimit =>
    exact @int .cidLimit _ rfl (fun _ => rfl) fun v rest read => by simp [tpOf, tpInt, valueOf, read]

inductive Splits : List Byte → List (Nat × List Byte) → Prop where
  | nil : Splits [] []
  | cons {input rest : List Byte} {param : Nat × List Byte} {params : List (Nat × List Byte)}
      (first : rdParam input = .got param rest) (later : Splits rest params) : Splits input (param :: params)

def knownOf (param : Nat × List Byte) : Option (TpId × List Byte) := (tpIdOf param.1).map fun id => (id, param.2)

def known (params : List (Nat × List Byte)) : List (TpId × List Byte) := params.filterMap knownOf

def addAll (found : TpId → Option (List Byte)) (params : List (TpId × List Byte)) : TpId → Option (List Byte) :=
  params.foldl (fun found param => Function.update found param.1 (some param.2)) found

structure Admissible (fromServer : Bool) (found : TpId → Option (List Byte)) (params : List (TpId × List Byte)) : Prop where
  once : (params.map Prod.fst).Nodup
  fresh : ∀ param ∈ params, found param.1 = none
  right : ∀ param ∈ params, ParamOk fromServer param.1 param.2

theorem id_of_code (id : TpId) : tpIdOf id.code = some id := by
  cases id <;> rfl

theorem code_of_id {id : Nat} {param : TpId} (known_ : tpIdOf id = some param) : param.code = id := by
  have less : id < 18 := (List.getElem?_eq_some_iff.mp known_).1
  have all : ∀ id < 18, (tpIdOf id).map TpId.code = some id := by decide
  have here := all id less
  rw [known_] at here
  exact Option.some.inj here

theorem code_injective {id id' : TpId} (same : id.code = id'.code) : id = id' := by
  have back := id_of_code id
  rw [same, id_of_code] at back
  exact (Option.some.inj back).symm

def Seen (found : TpId → Option (List Byte)) (seen : Nat) : Prop := ∀ id : TpId, seen.testBit id.code = (found id).isSome

variable {found : TpId → Option (List Byte)}

theorem seen_bit {seen : Nat} (bits : Seen found seen) (id : TpId) : seen &&& 1 <<< id.code ≠ 0 ↔ found id ≠ none := by
  have bit := bits id
  rw [Nat.one_shiftLeft, Nat.and_two_pow, bit]
  cases found id with
  | none | some => simp

theorem seen_update {found : TpId → Option (List Byte)} {seen : Nat} (bits : Seen found seen) (id : TpId)
    (value : List Byte) : Seen (Function.update found id (some value)) (seen ||| 1 <<< id.code) := by
  intro id'
  rw [Nat.testBit_or, bits id', Nat.one_shiftLeft, Nat.testBit_two_pow]
  by_cases same : id' = id
  · subst same
    simp
  · rw [Function.update_of_ne same, decide_eq_false (fun codes => same (code_injective codes.symm)), Bool.or_false]

theorem take_known {fromServer : Bool} {found : TpId → Option (List Byte)} {seen : Nat} (bits : Seen found seen)
    (id : TpId) (value : List Byte) (next : TpState) :
    tpTake fromServer ⟨tpOf fromServer found, seen⟩ id.code value = some next ↔
      found id = none ∧ ParamOk fromServer id value ∧
        next = ⟨tpOf fromServer (Function.update found id (some value)), seen ||| 1 <<< id.code⟩ := by
  have body := body_spec fromServer found id value
  unfold tpTake
  rw [id_of_code]
  simp only
  by_cases fresh : found id = none
  · rw [if_neg (fun bit => (seen_bit bits id).mp bit fresh)]
    cases scanned : tpBody fromServer (tpOf fromServer found) value.length id value with
    | got tp rest =>
      obtain ⟨right, whole⟩ := (body tp).mp ⟨rest, scanned⟩
      subst whole
      simp [fresh, right, eq_comm]
    | short | bad =>
      simp only [reduceCtorEq, false_iff]
      rintro ⟨-, right, -⟩
      obtain ⟨rest, read⟩ := (body _).mpr ⟨right, rfl⟩
      rw [scanned] at read
      cases read
  rw [if_pos ((seen_bit bits id).mpr fresh)]
  simp [fresh]

variable {state : TpState}

theorem take_unknown {fromServer : Bool} {id : Nat} (value : List Byte) (unknown : tpIdOf id = none) :
    tpTake fromServer state id value = some state := by
  unfold tpTake
  rw [unknown]

def takeAll (fromServer : Bool) (state : TpState) (params : List (Nat × List Byte)) : Option TpState :=
  params.foldlM (fun state param => tpTake fromServer state param.1 param.2) state

variable {params : List (TpId × List Byte)}

theorem add_all_other {id : TpId} (absent : id ∉ params.map Prod.fst) : addAll found params id = found id := by
  induction params generalizing found with
  | nil => rfl
  | cons param rest ih =>
    rw [List.map_cons, List.mem_cons, not_or] at absent
    unfold addAll at ih ⊢
    rw [List.foldl_cons, ih absent.2, Function.update_of_ne absent.1]

theorem add_all_member {id : TpId}
    {value : List Byte} (once : (params.map Prod.fst).Nodup) (member : (id, value) ∈ params) :
    addAll found params id = some value := by
  induction params generalizing found with
  | nil => cases member
  | cons param rest ih =>
    rw [List.map_cons, List.nodup_cons] at once
    have step : addAll found (param :: rest) = addAll (Function.update found param.1 (some param.2)) rest := rfl
    cases member with
    | head => rw [step, add_all_other once.1, Function.update_self]
    | tail _ later => rw [step, ih once.2 later]

theorem take_all_spec {fromServer : Bool} {seen : Nat} (bits : Seen found seen)
    (params : List (Nat × List Byte)) (tp : QuicTp) :
    (∃ seen', takeAll fromServer ⟨tpOf fromServer found, seen⟩ params = some ⟨tp, seen'⟩) ↔
      Admissible fromServer found (known params) ∧ tp = tpOf fromServer (addAll found (known params)) := by
  induction params generalizing found seen with
  | nil =>
    constructor
    · rintro ⟨seen', ended⟩
      cases ended
      exact ⟨⟨List.nodup_nil, nofun, nofun⟩, rfl⟩
    rintro ⟨-, rfl⟩
    exact ⟨seen, rfl⟩
  | cons param rest ih =>
    obtain ⟨id, value⟩ := param
    unfold takeAll at ih ⊢
    rw [List.foldlM_cons]
    cases known_ : tpIdOf id with
    | none =>
      have skipped : known ((id, value) :: rest) = known rest := by
        unfold known
        rw [List.filterMap_cons_none]
        simp only [knownOf, known_, Option.map_none]
      rw [take_unknown value known_, skipped]
      exact ih bits
    | some param =>
      obtain rfl := code_of_id known_
      have kept : known ((param.code, value) :: rest) = (param, value) :: known rest := by
        unfold known
        rw [List.filterMap_cons_some]
        simp only [knownOf, known_, Option.map_some]
      rw [kept]
      have turn := @take_known fromServer _ _ bits param value
      constructor
      · rintro ⟨seen', ended⟩
        cases taken : tpTake fromServer ⟨tpOf fromServer found, seen⟩ param.code value with
        | none => rw [taken] at ended; cases ended
        | some next =>
          obtain ⟨fresh, right, rfl⟩ := (turn next).mp taken
          rw [taken] at ended
          obtain ⟨later, rfl⟩ := (ih (seen_update bits param value)).mp ⟨seen', ended⟩
          refine ⟨⟨?_, ?_, ?_⟩, rfl⟩
          · rw [List.map_cons, List.nodup_cons]
            refine ⟨fun again => ?_, later.once⟩
            obtain ⟨other, member, same⟩ := List.mem_map.mp again
            have new := later.fresh other member
            rw [same, Function.update_self] at new
            cases new
          · intro other member
            cases member with
            | head => exact fresh
            | tail _ member =>
              have new := later.fresh other member
              by_cases same : other.1 = param
              · rw [same]
                exact fresh
              · rwa [Function.update_of_ne same] at new
          intro other member
          cases member with
          | head => exact right
          | tail _ member => exact later.right other member
      rintro ⟨admissible, rfl⟩
      have once := admissible.once
      rw [List.map_cons, List.nodup_cons] at once
      have taken := (turn _).mpr ⟨admissible.fresh _ List.mem_cons_self, admissible.right _ List.mem_cons_self, rfl⟩
      rw [taken]
      refine (ih (seen_update bits param value)).mpr ⟨⟨once.2, ?_, ?_⟩, rfl⟩
      all_goals intro other member
      · have different : other.1 ≠ param := by
          rintro rfl
          exact once.1 (List.mem_map.mpr ⟨other, member, rfl⟩)
        rw [Function.update_of_ne different]
        exact admissible.fresh other (List.mem_cons_of_mem _ member)
      · exact admissible.right other (List.mem_cons_of_mem _ member)

theorem param_consumes : Consumes rdParam :=
  consumes_bind_first consumes_rd_varint fun _ =>
    steady_bind settled_rd_varint.steady fun len => steady_bind (steady_count len) fun _ => steady_pure _

theorem step_consumes (fromServer) (state : TpState) : Consumes (tpStep fromServer state) := by
  refine consumes_bind_first param_consumes fun param => ?_
  cases tpTake fromServer state param.1 param.2 with
  | none => exact steady_fail _
  | some next => exact steady_pure next

theorem step_param {fromServer : Bool} {between : List Byte} {param : Nat × List Byte}
    (first : rdParam input = .got param between) :
    tpStep fromServer state input = match tpTake fromServer state param.1 param.2 with
      | none => .bad transportParameterError
      | some next => .got next between := by
  unfold tpStep
  rw [bind_got first]
  cases tpTake fromServer state param.1 param.2 <;> rfl

theorem drive_takes {fromServer : Bool} (last : TpState) : driveAll (tpStep fromServer) state input = .ok (last, []) ↔
      ∃ params, Splits input params ∧ takeAll fromServer state params = some last := by
  induction state, input using drive_all_induction (step_consumes fromServer) with
  | none_ state =>
    rw [drive_all_nil]
    constructor
    · intro ended
      cases ended
      exact ⟨[], .nil, rfl⟩
    rintro ⟨params, splits, took⟩
    cases splits with
    | nil =>
      cases took
      rfl
    | cons first later =>
      have shorter := param_consumes _ _ _ first
      exact absurd shorter (Nat.not_lt_zero _)
  | bad state input fault some_ stepped =>
    rw [drive_all_bad some_ stepped]
    refine ⟨nofun, ?_⟩
    rintro ⟨params, splits, took⟩
    cases splits with
    | nil => exact absurd rfl some_
    | @cons _ rest param params first later =>
      rw [step_param first] at stepped
      rw [takeAll, List.foldlM_cons] at took
      cases taken : tpTake fromServer state param.1 param.2 with
      | none => rw [taken] at took; cases took
      | some next => rw [taken] at stepped; cases stepped
  | short state input some_ stepped =>
    rw [drive_all_short stepped]
    constructor
    · intro ended
      cases ended
      exact absurd rfl some_
    rintro ⟨params, splits, took⟩
    cases splits with
    | nil => exact absurd rfl some_
    | @cons _ rest param params first later =>
      rw [step_param first] at stepped
      cases taken : tpTake fromServer state param.1 param.2 with
      | none => rw [taken] at stepped; cases stepped
      | some next => rw [taken] at stepped; cases stepped
  | got state input next rest stepped ih =>
    rw [drive_all_got (step_consumes fromServer) stepped, ih]
    obtain ⟨param, between, first, -⟩ := bind_scanned stepped
    rw [step_param first] at stepped
    cases taken : tpTake fromServer state param.1 param.2 with
    | none => rw [taken] at stepped; cases stepped
    | some next' =>
      rw [taken] at stepped
      cases stepped
      constructor
      all_goals rintro ⟨params, splits, took⟩
      · refine ⟨param :: params, .cons first splits, ?_⟩
        rw [takeAll, List.foldlM_cons, taken]
        exact took
      · cases splits with
        | nil =>
          have shorter := param_consumes _ _ _ first
          exact absurd shorter (Nat.not_lt_zero _)
        | cons first' later =>
          rw [first] at first'
          cases first'
          rw [takeAll, List.foldlM_cons, taken] at took
          exact ⟨_, later, took⟩

def Required (fromServer : Bool) (tp : QuicTp) : Prop :=
  tp.initialScid ≠ none ∧ (fromServer = true → tp.originalDcid ≠ none)

theorem of_nothing (fromServer) : tpOf fromServer (fun _ => none) = quicTpDefaults := rfl

theorem decode_spec (input) (fromServer : Bool) (tp : QuicTp) : quicTpDecode input fromServer = .ok tp ↔
      ∃ params, Splits input params ∧ Admissible fromServer (fun _ => none) (known params) ∧
        tp = tpOf fromServer (addAll (fun _ => none) (known params)) ∧ Required fromServer tp := by
  have start : Seen (fun _ => none) 0 := fun id => Nat.zero_testBit _
  have required (tp : QuicTp) : (tp.initialScid.isNone || (fromServer && tp.originalDcid.isNone)) = false ↔
      Required fromServer tp := by
    unfold Required
    cases tp.initialScid <;> cases tp.originalDcid <;> cases fromServer <;> simp
  unfold quicTpDecode
  constructor
  · intro decoded
    split at decoded
    next state drove =>
      split at decoded
      · cases decoded
      rename_i there
      cases decoded
      obtain ⟨params, splits, took⟩ := (drive_takes state).mp drove
      rw [← of_nothing fromServer] at took
      obtain ⟨admissible, whole⟩ := (take_all_spec start params state.tp).mp ⟨state.seen, took⟩
      exact ⟨params, splits, admissible, whole, (required _).mp (Bool.eq_false_iff.mpr there)⟩
    · cases decoded
  rintro ⟨params, splits, admissible, whole, there⟩
  obtain ⟨seen, took⟩ := (take_all_spec start params tp).mpr ⟨admissible, whole⟩
  rw [of_nothing] at took
  rw [(drive_takes _).mpr ⟨params, splits, took⟩]
  simp only
  rw [(required tp).mpr there]
  rfl

theorem decode_error {fromServer : Bool} {code : Nat}
    (refused : quicTpDecode input fromServer = .error code) : code = transportParameterError := by
  unfold quicTpDecode at refused
  split at refused
  · split at refused
    · cases refused
      rfl
    · cases refused
  · cases refused
    rfl

variable {params' : List (TpId × List Byte)}

theorem admissible_perm {fromServer : Bool}
    (perm : params.Perm params') (admissible : Admissible fromServer found params) : Admissible fromServer found params' where
  once := (perm.map Prod.fst).nodup_iff.mp admissible.once
  fresh := fun param member => admissible.fresh param (perm.mem_iff.mpr member)
  right := fun param member => admissible.right param (perm.mem_iff.mpr member)

theorem add_all_perm
    (perm : params.Perm params') (once : (params.map Prod.fst).Nodup) : addAll found params = addAll found params' := by
  have keys := perm.map Prod.fst
  funext id
  by_cases there : id ∈ params.map Prod.fst
  · obtain ⟨⟨id, value⟩, member, rfl⟩ := List.mem_map.mp there
    rw [add_all_member once member, add_all_member (keys.nodup_iff.mp once) (perm.mem_iff.mp member)]
  · rw [add_all_other there, add_all_other fun there' => there (keys.mem_iff.mpr there')]

theorem splits_unique {params params' : List (Nat × List Byte)} (splits : Splits input params)
    (splits' : Splits input params') : params = params' := by
  induction splits generalizing params' with
  | nil =>
    cases splits' with
    | nil => rfl
    | cons first later => exact absurd (param_consumes _ _ _ first) (Nat.not_lt_zero _)
  | cons first later ih =>
    cases splits' with
    | nil => exact absurd (param_consumes _ _ _ first) (Nat.not_lt_zero _)
    | cons first' later' =>
      rw [first] at first'
      cases first'
      rw [ih later']

theorem decode_order {input' : List Byte} {params params' : List (Nat × List Byte)} (splits : Splits input params)
    (splits' : Splits input' params') (perm : (known params).Perm (known params')) (fromServer : Bool) :
    quicTpDecode input fromServer = quicTpDecode input' fromServer := by
  have one {input input' : List Byte} {params params' : List (Nat × List Byte)} (splits : Splits input params)
      (splits' : Splits input' params') (perm : (known params).Perm (known params')) (tp : QuicTp)
      (decoded : quicTpDecode input fromServer = .ok tp) : quicTpDecode input' fromServer = .ok tp := by
    obtain ⟨params'', splits'', admissible, whole, there⟩ := (decode_spec input fromServer tp).mp decoded
    obtain rfl := splits_unique splits splits''
    refine (decode_spec input' fromServer tp).mpr ⟨params', splits', admissible_perm perm admissible, ?_, there⟩
    rw [whole, add_all_perm perm admissible.once]
  cases decoded : quicTpDecode input fromServer with
  | ok tp => exact (one splits splits' perm tp decoded).symm
  | error code =>
    cases decoded' : quicTpDecode input' fromServer with
    | ok tp =>
      rw [one splits' splits perm.symm tp decoded'] at decoded
      cases decoded
    | error code' => rw [decode_error decoded, decode_error decoded']

structure VersionsOk (fromServer : Bool) (versions : Nat × List Nat) : Prop where
  chosen : versions.1 ≠ 0 ∧ versions.1 < 256 ^ 4
  available : ∀ version ∈ versions.2, version ≠ 0 ∧ version < 256 ^ 4
  few : versions.2.length ≤ quicTpVersions
  listed : fromServer = false → versions.1 ∈ versions.2

structure Decodable (fromServer : Bool) (tp : QuicTp) : Prop where
  ints : ∀ id v, tpField tp id = some v → tpIntOk id v = true ∧ v ≤ quicVarintMax
  cids : ∀ cid, tp.originalDcid = some cid ∨ tp.initialScid = some cid ∨ tp.retryScid = some cid → cid.length ≤ quicMaxCid
  server : fromServer = false → tp.originalDcid = none ∧ tp.retryScid = none ∧ tp.resetToken = none
  versions : ∀ versions, tp.versionInfo = some versions → VersionsOk fromServer versions
  required : Required fromServer tp

theorem available_got (n : Nat) {rest : List Byte} {versions : List Nat}
    (read : rdAvailable n input = .got versions rest) :
    versions.length = n ∧ ∀ version ∈ versions, version ≠ 0 ∧ version < 256 ^ 4 := by
  induction n generalizing input versions with
  | zero =>
    cases read
    exact ⟨rfl, nofun⟩
  | succ n ih =>
    rw [rdAvailable] at read
    obtain ⟨version, between, first, read⟩ := bind_scanned read
    obtain ⟨some_, read⟩ := guard_scanned read
    obtain ⟨later, after, second, read⟩ := bind_scanned read
    cases read
    obtain ⟨length, all⟩ := ih second
    refine ⟨by rw [List.length_cons, length], ?_⟩
    intro version' member
    cases member with
    | head => exact ⟨some_, rd_uint_got first⟩
    | tail _ member => exact all version' member

theorem version_info_got {fromServer : Bool} {len : Nat} {rest : List Byte} {versions : Nat × List Nat}
    (read : rdVersionInfo fromServer len input = .got versions rest) : VersionsOk fromServer versions := by
  obtain ⟨size, read⟩ := guard_scanned read
  obtain ⟨chosen, between, first, read⟩ := bind_scanned read
  obtain ⟨some_, read⟩ := guard_scanned read
  obtain ⟨available, after, second, read⟩ := bind_scanned read
  obtain ⟨listed, read⟩ := guard_scanned read
  cases read
  obtain ⟨length, all⟩ := available_got _ second
  simp only [not_or, not_lt] at size
  refine ⟨⟨some_, rd_uint_got first⟩, all, length.trans_le size.2.2, fun client => ?_⟩
  subst client
  simpa using listed

theorem int_of_found {id : TpId} (int : id ∈ tpIntIds) (right : ∀ value, found id = some value → IntOk id value) :
    tpIntOk id (tpInt found id) = true ∧ tpInt found id ≤ quicVarintMax := by
  unfold tpInt
  cases there : found id with
  | none =>
    have defaults : ∀ id ∈ tpIntIds, tpIntOk id (tpDefault id) = true ∧ tpDefault id ≤ quicVarintMax := by decide
    exact defaults id int
  | some value =>
    obtain ⟨v, read, range⟩ := right value there
    have said : valueOf quicRdVarint value = some v := value_of_some.mpr ⟨[], read⟩
    simp only [said, Option.getD_some]
    exact ⟨range, (rd_varint_got read).1⟩

theorem decodable_of {fromServer : Bool} (right : ∀ id value, found id = some value → ParamOk fromServer id value)
    (required : Required fromServer (tpOf fromServer found)) : Decodable fromServer (tpOf fromServer found) where
  ints := by
    intro id v field
    have int {id : TpId} (int : id ∈ tpIntIds) (same : ∀ value, ParamOk fromServer id value = IntOk id value) :
        tpIntOk id (tpInt found id) = true ∧ tpInt found id ≤ quicVarintMax :=
      int_of_found int fun value there => (same value).mp (right id value there)
    cases id with
    | originalDcid => cases field
    | retryScid => cases field
    | initialScid => cases field
    | resetToken => cases field
    | disableMigration => cases field
    | preferredAddress => cases field
    | versionInfo => cases field
    | _ =>
      cases field
      exact int (by decide) (fun _ => rfl)
  cids := by
    intro cid there
    rcases there with original | initial | retry
    · exact (right .originalDcid cid original).2
    · exact right .initialScid cid initial
    · exact (right .retryScid cid retry).2
  server := by
    intro client
    subst client
    refine ⟨?_, ?_, ?_⟩
    · refine Option.eq_none_iff_forall_not_mem.mpr fun cid there => ?_
      exact absurd (right .originalDcid cid there).1 Bool.false_ne_true
    · refine Option.eq_none_iff_forall_not_mem.mpr fun cid there => ?_
      exact absurd (right .retryScid cid there).1 Bool.false_ne_true
    refine Option.eq_none_iff_forall_not_mem.mpr fun token there => ?_
    obtain ⟨value, there, -⟩ := Option.bind_eq_some_iff.mp there
    exact absurd (right .resetToken value there).1 Bool.false_ne_true
  versions := by
    intro versions there
    obtain ⟨value, there, read⟩ := Option.bind_eq_some_iff.mp there
    obtain ⟨rest, read⟩ := value_of_some.mp read
    exact version_info_got read
  required := required

theorem decoded_decodable {fromServer : Bool} {tp : QuicTp}
    (decoded : quicTpDecode input fromServer = .ok tp) : Decodable fromServer tp := by
  obtain ⟨params, splits, admissible, rfl, there⟩ := (decode_spec input fromServer tp).mp decoded
  refine decodable_of (fun id value found => ?_) there
  by_cases keyed : id ∈ (known params).map Prod.fst
  · obtain ⟨⟨id, value'⟩, member, rfl⟩ := List.mem_map.mp keyed
    rw [add_all_member admissible.once member] at found
    cases found
    exact admissible.right _ member
  rw [add_all_other keyed] at found
  cases found

def entryOf (tp : QuicTp) (id : TpId) : Option (List Byte) :=
  match id with
  | .originalDcid => tp.originalDcid
  | .initialScid => tp.initialScid
  | .retryScid => tp.retryScid
  | .resetToken => tp.resetToken.map ResetToken.bytes
  | .disableMigration => if tp.disableActiveMigration then some [] else none
  | .preferredAddress => none
  | .versionInfo => tp.versionInfo.map fun versions => versionBytes versions.1 versions.2
  | id => (tpField tp id).bind fun v => if v = tpDefault id then none else some (quicVarintPut v)

def entries (tp : QuicTp) (ids : List TpId) : List (TpId × List Byte) :=
  ids.flatMap fun id => ((entryOf tp id).map fun value => (id, value)).toList

def paramBytes (param : TpId × List Byte) : List Byte :=
  quicVarintPut param.1.code ++ (quicVarintPut param.2.length ++ param.2)

def putsOf (params : List (TpId × List Byte)) : List Put := params.flatMap fun param => wrParam param.1 param.2

theorem code_small (id : TpId) : id.code ≤ quicVarintMax := by
  cases id <;> decide

theorem puts_form (short : ∀ param ∈ params, param.2.length ≤ quicVarintMax) :
    formOf (putsOf params) = some (params.flatMap paramBytes) := by
  induction params with
  | nil => rfl
  | cons param rest ih =>
    rw [List.flatMap_cons]
    refine form_append ?_ (ih fun param member => short param (List.mem_cons_of_mem _ member))
    exact form_varint (code_small _) (form_varint (short param List.mem_cons_self) (form_last_raw _))

theorem run_puts_append (w : Writer) (first second : List Put) :
    runPuts w (first ++ second) = runPuts (runPuts w first) second := List.foldl_append

theorem entry_member {tp : QuicTp} {ids : List TpId} {id : TpId} {value : List Byte} :
    (id, value) ∈ entries tp ids ↔ id ∈ ids ∧ entryOf tp id = some value := by
  simp only [entries, List.mem_flatMap, Option.mem_toList, Option.map_eq_some_iff, Prod.mk.injEq]
  constructor
  · rintro ⟨id', member, value', there, rfl, rfl⟩
    exact ⟨member, there⟩
  rintro ⟨member, there⟩
  exact ⟨id, member, value, there, rfl, rfl⟩

theorem entries_keys (tp) (ids : List TpId) : ((entries tp ids).map Prod.fst).Sublist ids := by
  induction ids with
  | nil => exact List.nil_sublist _
  | cons id rest ih =>
    unfold entries at ih ⊢
    rw [List.flatMap_cons, List.map_append]
    cases entryOf tp id with
    | none => exact ih.cons id
    | some value => exact ih.cons_cons id

theorem all_ids (id : TpId) : id ∈ tpIds := by
  cases id <;> decide

theorem entries_once (tp) : ((entries tp tpIds).map Prod.fst).Nodup :=
  (entries_keys tp tpIds).nodup (by decide)

theorem entries_found (tp) : addAll (fun _ => none) (entries tp tpIds) = entryOf tp := by
  funext id
  cases there : entryOf tp id with
  | some value => exact add_all_member (entries_once tp) (entry_member.mpr ⟨all_ids id, there⟩)
  | none =>
    rw [add_all_other]
    intro keyed
    obtain ⟨⟨id', value⟩, member, rfl⟩ := List.mem_map.mp keyed
    rw [(entry_member.mp member).2] at there
    cases there

def intEntries (tp : QuicTp) (id : TpId) : List (TpId × List Byte) :=
  (if id = .maxUdpPayload then entries tp [.resetToken] else []) ++
    (if id = .cidLimit then entries tp [.disableMigration] else []) ++ entries tp [id]

theorem entry_int {tp : QuicTp} {id : TpId} (int : id ∈ tpIntIds) :
    entryOf tp id = (tpField tp id).bind fun v => if v = tpDefault id then none else some (quicVarintPut v) := by
  fin_cases int <;> rfl

theorem field_int {tp : QuicTp} {id : TpId} (int : id ∈ tpIntIds) : ∃ v, tpField tp id = some v := by
  fin_cases int <;> exact ⟨_, rfl⟩

theorem param_ok_int {fromServer : Bool} {id : TpId} {value : List Byte} (int : id ∈ tpIntIds) :
    ParamOk fromServer id value = IntOk id value := by
  fin_cases int <;> rfl

theorem puts_one (id : TpId) (value : List Byte) : putsOf [(id, value)] = wrParam id value := List.append_nil _

theorem encode_int {tp : QuicTp} {id : TpId} (int : id ∈ tpIntIds)
    (range : ∀ v, tpField tp id = some v → tpIntOk id v = true) (w : Writer) : tpEncodeInt tp w id = some (runPuts w (putsOf (intEntries tp id))) := by
  obtain ⟨v, field⟩ := @field_int tp _ int
  have entry : entries tp [id] = if v = tpDefault id then [] else [(id, quicVarintPut v)] := by
    unfold entries
    rw [List.flatMap_singleton, entry_int int, field, Option.bind_some]
    split <;> rfl
  have token (w : Writer) : (match tp.resetToken with
      | some token => if id = .maxUdpPayload then runPuts w (wrParam .resetToken token.bytes) else w
      | none => w) = runPuts w (putsOf (if id = .maxUdpPayload then entries tp [.resetToken] else [])) := by
    unfold entries
    rw [List.flatMap_singleton]
    unfold entryOf
    by_cases here : id = .maxUdpPayload
    · rw [if_pos here]
      cases tp.resetToken with
      | none => rfl
      | some token =>
        simp only [if_pos here]
        exact (congrArg _ (puts_one _ _)).symm
    rw [if_neg here]
    cases tp.resetToken with
    | none => rfl
    | some token =>
      simp only [if_neg here]
      rfl
  have migration (w : Writer) : (if id = .cidLimit ∧ tp.disableActiveMigration = true then
      runPuts w (wrParam .disableMigration []) else w) =
        runPuts w (putsOf (if id = .cidLimit then entries tp [.disableMigration] else [])) := by
    unfold entries
    rw [List.flatMap_singleton]
    unfold entryOf
    simp only
    by_cases limit : id = .cidLimit
    · cases tp.disableActiveMigration with
      | true => rw [if_pos ⟨limit, rfl⟩, if_pos limit]; rfl
      | false => rw [if_neg (by simp), if_pos limit]; rfl
    rw [if_neg (fun both => limit both.1), if_neg limit]
    rfl
  unfold tpEncodeInt intEntries putsOf
  rw [field]
  simp only [Option.bind_eq_bind, Option.bind_some]
  rw [range v field, token, migration, List.flatMap_append, List.flatMap_append, run_puts_append, run_puts_append, entry]
  rw [if_neg (by decide)]
  split
  · rfl
  rw [← puts_one]
  rfl

theorem encode_ints {tp : QuicTp} {ids : List TpId} (int : ∀ id ∈ ids, id ∈ tpIntIds)
    (range : ∀ id v, tpField tp id = some v → tpIntOk id v = true) (w : Writer) :
    ids.foldlM (tpEncodeInt tp) w = some (runPuts w (putsOf (ids.flatMap (intEntries tp)))) := by
  induction ids generalizing w with
  | nil => rfl
  | cons id rest ih =>
    rw [List.foldlM_cons, encode_int (int id List.mem_cons_self) (range id), Option.bind_eq_bind, Option.bind_some,
      ih (fun id member => int id (List.mem_cons_of_mem _ member)), List.flatMap_cons]
    unfold putsOf
    rw [List.flatMap_append, run_puts_append]

theorem entries_order (tp) :
    entries tp [.originalDcid] ++ tpIntIds.flatMap (intEntries tp) ++ entries tp [.initialScid] ++
      entries tp [.retryScid] ++ entries tp [.versionInfo] = entries tp tpIds := by
  have address : entryOf tp .preferredAddress = none := rfl
  simp [entries, tpIntIds, tpIds, intEntries, address]

theorem write_cid {tp : QuicTp} {id : TpId} {value : Option (List Byte)} (entry : entryOf tp id = value)
    (short : ∀ cid, value = some cid → cid.length ≤ quicMaxCid) (w : Writer) :
    wrOptional w value (wrCid id) = runPuts w (putsOf (entries tp [id])) := by
  unfold entries wrOptional
  rw [List.flatMap_singleton, entry]
  cases value with
  | none => rfl
  | some cid =>
    simp only [wrCid]
    rw [if_neg (Nat.not_lt.mpr (short cid rfl))]
    exact congrArg _ (puts_one _ _).symm

theorem write_versions (tp : QuicTp) (w : Writer) :
    (wrOptional w tp.versionInfo fun versions => wrParam .versionInfo (versionBytes versions.1 versions.2)) =
      runPuts w (putsOf (entries tp [.versionInfo])) := by
  unfold entries wrOptional
  rw [List.flatMap_singleton]
  unfold entryOf
  cases tp.versionInfo with
  | none => rfl
  | some versions => exact congrArg (runPuts w) (puts_one _ _).symm

theorem version_bytes_length (chosen : Nat) (available : List Nat) :
    (versionBytes chosen available).length = 4 * (available.length + 1) := by
  unfold versionBytes
  rw [List.length_append, big_endian_bytes_length]
  induction available with
  | nil => rfl
  | cons version rest ih =>
    rw [List.flatMap_cons, List.length_append, big_endian_bytes_length, List.length_cons]
    omega

theorem available_put {available : List Nat} (small : ∀ version ∈ available, version ≠ 0 ∧ version < 256 ^ 4)
    (more : List Byte) :
    rdAvailable available.length (available.flatMap (bigEndianBytes 4) ++ more) = .got available more := by
  induction available with
  | nil => rfl
  | cons version rest ih =>
    obtain ⟨some_, less⟩ := small version List.mem_cons_self
    rw [List.length_cons, rdAvailable, List.flatMap_cons, List.append_assoc, rd_uint_then less, if_neg some_,
      bind_got (ih fun version member => small version (List.mem_cons_of_mem _ member))]
    rfl

theorem versions_read {fromServer : Bool} {versions : Nat × List Nat} (ok : VersionsOk fromServer versions) :
    valueOf (rdVersionInfo fromServer (versionBytes versions.1 versions.2).length) (versionBytes versions.1 versions.2) =
      some versions := by
  obtain ⟨chosen, available⟩ := versions
  have few : available.length ≤ quicTpVersions := ok.few
  have size : 4 * (available.length + 1) / 4 - 1 = available.length := by omega
  have listed : (!fromServer && !available.contains chosen) = false := by
    cases side : fromServer with
    | true => rfl
    | false => simpa using ok.listed side
  refine value_of_some.mpr ⟨[], ?_⟩
  unfold rdVersionInfo
  dsimp only
  rw [version_bytes_length, if_neg (by rw [not_or, not_or]; omega), size]
  have whole := available_put ok.available []
  rw [List.append_nil] at whole
  unfold versionBytes
  rw [rd_uint_then ok.chosen.2, if_neg ok.chosen.1, bind_got whole]
  simp only [listed]
  rfl

section Sets

variable {fromServer : Bool} {tp : QuicTp} (decodable : Decodable fromServer tp)

include decodable

theorem entry_right {id : TpId} {value : List Byte} (entry : entryOf tp id = some value) : ParamOk fromServer id value := by
  have int {id : TpId} (int : id ∈ tpIntIds) (entry : entryOf tp id = some value) : IntOk id value := by
    obtain ⟨v, field⟩ := @field_int tp _ int
    rw [entry_int int, field, Option.bind_some] at entry
    split at entry
    · cases entry
    · cases entry
      have read := @rd_varint_put Nat _ (decodable.ints id v field).2 []
      rw [List.append_nil] at read
      exact ⟨v, read, (decodable.ints id v field).1⟩
  have server (some_ : ¬(tp.originalDcid = none ∧ tp.retryScid = none ∧ tp.resetToken = none)) : fromServer = true := by
    cases side : fromServer with
    | true => rfl
    | false => exact absurd (decodable.server side) some_
  cases id with
  | originalDcid =>
    change tp.originalDcid = some value at entry
    refine ⟨server fun none_ => ?_, decodable.cids value (.inl entry)⟩
    rw [none_.1] at entry
    cases entry
  | retryScid =>
    change tp.retryScid = some value at entry
    refine ⟨server fun none_ => ?_, decodable.cids value (.inr (.inr entry))⟩
    rw [none_.2.1] at entry
    cases entry
  | initialScid => exact decodable.cids value (.inr (.inl entry))
  | resetToken =>
    obtain ⟨token, there, rfl⟩ := Option.map_eq_some_iff.mp entry
    refine ⟨server fun none_ => ?_, token.whole⟩
    rw [none_.2.2] at there
    cases there
  | disableMigration =>
    unfold entryOf at entry
    simp only at entry
    split at entry
    · cases entry
      rfl
    · cases entry
  | preferredAddress => cases entry
  | versionInfo =>
    obtain ⟨versions, there, rfl⟩ := Option.map_eq_some_iff.mp entry
    exact ⟨versions, versions_read (decodable.versions versions there)⟩
  | _ => exact int (by decide) entry

theorem entry_short {id : TpId} {value : List Byte} (entry : entryOf tp id = some value) : value.length ≤ quicVarintMax := by
  have right := entry_right decodable entry
  have cid : quicMaxCid ≤ quicVarintMax := by decide
  have int {id : TpId} (int : id ∈ tpIntIds) (entry : entryOf tp id = some value) : value.length ≤ quicVarintMax := by
    obtain ⟨v, field⟩ := @field_int tp _ int
    rw [entry_int int, field, Option.bind_some] at entry
    split at entry
    · cases entry
    · cases entry
      have eight : quicVarintLen v ≤ 8 := by
        unfold quicVarintLen
        split_ifs <;> decide
      have top : 8 ≤ quicVarintMax := by decide
      rw [varint_put_length]
      omega
  cases id with
  | originalDcid | retryScid => exact right.2.trans cid
  | initialScid => exact Nat.le_trans right cid
  | resetToken => exact right.2.trans_le (by decide)
  | disableMigration =>
    cases right
    exact Nat.zero_le _
  | preferredAddress => cases entry
  | versionInfo =>
    obtain ⟨versions, there, rfl⟩ := Option.map_eq_some_iff.mp entry
    have few := (decodable.versions versions there).few
    have top : 4 * (quicTpVersions + 1) ≤ quicVarintMax := by decide
    rw [version_bytes_length]
    omega
  | _ => exact int (by decide) entry

theorem of_entries (plain : tp.preferredAddress = none) : tpOf fromServer (entryOf tp) = tp := by
  have int {id : TpId} {v : Nat} (int : id ∈ tpIntIds) (field : tpField tp id = some v) : tpInt (entryOf tp) id = v := by
    unfold tpInt
    rw [entry_int int, field, Option.bind_some]
    split
    next absent =>
      split at absent
      next same =>
        exact same.symm
      · cases absent
    rename_i value there
    split at there
    · cases there
    · cases there
      have read := @rd_varint_put Nat _ (decodable.ints id v field).2 []
      rw [List.append_nil] at read
      rw [value_of_some.mpr ⟨[], read⟩, Option.getD_some]
  have token : (entryOf tp .resetToken).bind (valueOf rdToken) = tp.resetToken := by
    unfold entryOf
    cases tp.resetToken with
    | none => rfl
    | some token =>
      obtain ⟨bytes, whole⟩ := token
      unfold valueOf rdToken
      simp only [Option.map_some, Option.bind_some]
      rw [dif_pos (le_of_eq whole.symm)]
      simp only [← whole, List.take_length]
  have versions : (entryOf tp .versionInfo).bind (fun value => valueOf (rdVersionInfo fromServer value.length) value) =
      tp.versionInfo := by
    cases there : tp.versionInfo with
    | none => simp only [entryOf, there, Option.map_none, Option.bind_none]
    | some versions =>
      simp only [entryOf, there, Option.map_some, Option.bind_some]
      exact versions_read (decodable.versions versions there)
  have migration : (entryOf tp .disableMigration).isSome = tp.disableActiveMigration := by
    unfold entryOf
    cases tp.disableActiveMigration <;> rfl
  unfold tpOf
  rw [token, versions, migration, @int .maxIdleTimeout _ (by decide) rfl, @int .maxUdpPayload _ (by decide) rfl,
    @int .maxData _ (by decide) rfl, @int .maxStreamDataBidiLocal _ (by decide) rfl,
    @int .maxStreamDataBidiRemote _ (by decide) rfl, @int .maxStreamDataUni _ (by decide) rfl,
    @int .maxStreamsBidi _ (by decide) rfl, @int .maxStreamsUni _ (by decide) rfl,
    @int .ackDelayExponent _ (by decide) rfl, @int .maxAckDelay _ (by decide) rfl, @int .cidLimit _ (by decide) rfl]
  show { tp with preferredAddress := none } = tp
  rw [← plain]

theorem encode_fits (plain : tp.preferredAddress = none) {cap : Nat}
    (room : ((entries tp tpIds).flatMap paramBytes).length ≤ cap) :
    quicTpEncode tp fromServer cap = some ((entries tp tpIds).flatMap paramBytes) := by
  have form : formOf (putsOf (entries tp tpIds)) = some ((entries tp tpIds).flatMap paramBytes) :=
    puts_form fun param member => entry_short decodable (entry_member.mp member).2
  have written := @puts_fit _ ⟨[], cap, true⟩ _ rfl form room
  have there : (entries tp tpIds).flatMap paramBytes ≠ [] := by
    obtain ⟨cid, initial⟩ := Option.ne_none_iff_exists'.mp decodable.required.1
    have member : (TpId.initialScid, cid) ∈ entries tp tpIds := entry_member.mpr ⟨by decide, initial⟩
    intro nothing
    have none_ := List.flatMap_eq_nil_iff.mp nothing _ member
    exact varint_put_some (code_small .initialScid) (List.append_eq_nil_iff.mp none_).1
  have cids {value : Option (List Byte)} (one : ∀ cid, value = some cid →
      tp.originalDcid = some cid ∨ tp.initialScid = some cid ∨ tp.retryScid = some cid) (cid : List Byte)
      (there : value = some cid) : cid.length ≤ quicMaxCid := decodable.cids cid (one cid there)
  have client : (!fromServer && (tp.originalDcid.isSome || tp.retryScid.isSome || tp.resetToken.isSome)) = false := by
    cases side : fromServer with
    | true => rfl
    | false =>
      obtain ⟨original, retry, token⟩ := decodable.server side
      rw [original, retry, token]
      rfl
  have few : (tp.versionInfo.any fun versions => decide (quicTpVersions < versions.2.length)) = false := by
    cases versions : tp.versionInfo with
    | none => rfl
    | some versions' => exact decide_eq_false (Nat.not_lt.mpr (decodable.versions versions' versions).few)
  unfold quicTpEncode
  rw [client, if_neg Bool.false_ne_true, plain, Option.isSome_none, if_neg Bool.false_ne_true]
  simp only [Option.bind_eq_bind]
  rw [@write_cid tp .originalDcid tp.originalDcid rfl (cids fun _ => .inl),
    encode_ints (fun id member => member) (fun id v field => (decodable.ints id v field).1), Option.bind_some,
    @write_cid tp .initialScid tp.initialScid rfl (cids fun _ there => .inr (.inl there)),
    @write_cid tp .retryScid tp.retryScid rfl (cids fun _ there => .inr (.inr there)), few,
    if_neg Bool.false_ne_true, write_versions]
  have joined : runPuts (runPuts (runPuts (runPuts (runPuts ⟨[], cap, true⟩ (putsOf (entries tp [.originalDcid])))
      (putsOf (tpIntIds.flatMap (intEntries tp)))) (putsOf (entries tp [.initialScid]))) (putsOf (entries tp [.retryScid])))
      (putsOf (entries tp [.versionInfo])) = runPuts ⟨[], cap, true⟩ (putsOf (entries tp tpIds)) := by
    rw [← entries_order]
    unfold putsOf
    simp only [List.flatMap_append, run_puts_append]
  rw [joined, written]
  simp only [List.nil_append]
  rw [if_pos ⟨trivial, there⟩]

end Sets

theorem bytes_split (short : ∀ param ∈ params, param.2.length ≤ quicVarintMax) :
    Splits (params.flatMap paramBytes) (params.map fun param => (param.1.code, param.2)) := by
  induction params with
  | nil => exact .nil
  | cons param rest ih =>
    rw [List.flatMap_cons, List.map_cons]
    refine .cons ?_ (ih fun param member => short param (List.mem_cons_of_mem _ member))
    unfold paramBytes rdParam
    rw [List.append_assoc, List.append_assoc, rd_varint_then (code_small _),
      rd_varint_then (short param List.mem_cons_self), count_then rfl]
    rfl

theorem known_codes (params : List (TpId × List Byte)) :
    known (params.map fun param => (param.1.code, param.2)) = params := by
  induction params with
  | nil => rfl
  | cons param rest ih =>
    unfold known at ih ⊢
    rw [List.map_cons, List.filterMap_cons_some, ih]
    simp only [knownOf, id_of_code, Option.map_some]

theorem decode_encoded {fromServer : Bool} {tp : QuicTp} (decodable : Decodable fromServer tp)
    (plain : tp.preferredAddress = none) : quicTpDecode ((entries tp tpIds).flatMap paramBytes) fromServer = .ok tp := by
  have short (param : TpId × List Byte) (member : param ∈ entries tp tpIds) : param.2.length ≤ quicVarintMax :=
    entry_short decodable (entry_member.mp member).2
  refine (decode_spec _ fromServer tp).mpr ⟨_, bytes_split short, ⟨?_, fun _ _ => rfl, ?_⟩, ?_, decodable.required⟩
  · rw [known_codes]
    exact entries_once tp
  · rw [known_codes]
    exact fun param member => entry_right decodable (entry_member.mp member).2
  · rw [known_codes, entries_found, of_entries decodable plain]

def serverOnly : List TpId := [.originalDcid, .resetToken, .preferredAddress, .retryScid]

theorem refused_unless {fromServer : Bool} (none_ : ∀ tp, quicTpDecode input fromServer ≠ .ok tp) :
    quicTpDecode input fromServer = .error transportParameterError := by
  cases decoded : quicTpDecode input fromServer with
  | ok tp => exact absurd decoded (none_ tp)
  | error code => rw [decode_error decoded]

/-- A set that was decoded is encoded where there is room, and decoded from that again; only the known parameters count,
in whatever order; and what is no list of parameters is refused, as is a list with a known parameter twice, with an
integer that does not fill its parameter or is out of its range, with one from a client that only a server sends, or
with any other value that is not right. -/
theorem transport_parameters :
    (∀ input fromServer tp, quicTpDecode input fromServer = .ok tp → tp.preferredAddress = none → ∃ bytes,
      (∀ cap, bytes.length ≤ cap → quicTpEncode tp fromServer cap = some bytes) ∧
      quicTpDecode bytes fromServer = .ok tp) ∧
    (∀ input input' params params' fromServer, Splits input params → Splits input' params' →
      (known params).Perm (known params') → quicTpDecode input fromServer = quicTpDecode input' fromServer) ∧
    (∀ input fromServer, (∀ params, ¬Splits input params) →
      quicTpDecode input fromServer = .error transportParameterError) ∧ ∀ input params fromServer, Splits input params →
      (¬((known params).map Prod.fst).Nodup → quicTpDecode input fromServer = .error transportParameterError) ∧
      ∀ id value, (id, value) ∈ known params →
        (id ∈ tpIntIds → (¬∃ v, (quicRdVarint : Scanner Byte Nat Nat) value = .got v [] ∧ tpIntOk id v = true) →
          quicTpDecode input fromServer = .error transportParameterError) ∧
        (id ∈ serverOnly → fromServer = false → quicTpDecode input fromServer = .error transportParameterError) ∧
        (¬ParamOk fromServer id value → quicTpDecode input fromServer = .error transportParameterError) := by
  refine ⟨fun input fromServer tp decoded plain => ?_, fun input input' params params' fromServer splits splits' perm => ?_,
    fun input fromServer none_ => ?_, fun input params fromServer splits => ?_⟩
  · have decodable := decoded_decodable decoded
    exact ⟨_, fun cap room => encode_fits decodable plain room, decode_encoded decodable plain⟩
  · exact decode_order splits splits' perm fromServer
  · refine refused_unless fun tp decoded => ?_
    obtain ⟨params, splits, -⟩ := (decode_spec input fromServer tp).mp decoded
    exact none_ params splits
  have accepted {tp : QuicTp} (decoded : quicTpDecode input fromServer = .ok tp) :
      Admissible fromServer (fun _ => none) (known params) := by
    obtain ⟨params', splits', admissible, -⟩ := (decode_spec input fromServer tp).mp decoded
    rwa [splits_unique splits splits']
  refine ⟨fun twice => refused_unless fun tp decoded => twice (accepted decoded).once, fun id value member => ?_⟩
  have wrong (not_ : ¬ParamOk fromServer id value) : quicTpDecode input fromServer = .error transportParameterError :=
    refused_unless fun tp decoded => not_ ((accepted decoded).right _ member)
  refine ⟨fun int bad => wrong fun right => bad ?_, fun only client => wrong fun right => ?_, wrong⟩
  · rwa [param_ok_int int] at right
  subst client
  cases id with
  | originalDcid | retryScid | resetToken | preferredAddress => exact absurd right.1 Bool.false_ne_true
  | _ => exact absurd only (by decide)

/-- A client's ID and an idle timeout written longer than it need be. -/
theorem transport_parameters_client : ∃ bytes, (∀ cap, bytes.length ≤ cap →
      quicTpEncode { quicTpDefaults with maxIdleTimeout := 60, initialScid := some [7] } false cap = some bytes) ∧
    quicTpDecode bytes false = .ok { quicTpDefaults with maxIdleTimeout := 60, initialScid := some [7] } :=
  transport_parameters.1 [0x0f, 0x01, 0x07, 0x01, 0x02, 0x40, 0x3c] false _ (by rfl) (by rfl)

example : quicTpDecode [0x0f, 0x00, 0x0f, 0x00] false = .error transportParameterError := by decide

end ProvenC.Quic.TransportParameters
