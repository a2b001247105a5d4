import ProvenC.Bytes

/-!
# The dynamic table of QPACK's decoder

Entries are inserted at one end and evicted from the other; their names and values stand one after
another in a ring of bytes as large as the table may become.
-/

namespace ProvenC.Qpack.Table

open Bytes

def qpackStatic : List (List Byte × List Byte) :=
  [(ascii ":authority", ascii ""), (ascii ":path", ascii "/"), (ascii "age", ascii "0"),
    (ascii "content-disposition", ascii ""),
    (ascii "content-length", ascii "0"),
    (ascii "cookie", ascii ""),
    (ascii "date", ascii ""),
    (ascii "etag", ascii ""),
    (ascii "if-modified-since", ascii ""),
    (ascii "if-none-match", ascii ""),
    (ascii "last-modified", ascii ""),
    (ascii "link", ascii ""),
    (ascii "location", ascii ""),
    (ascii "referer", ascii ""),
    (ascii "set-cookie", ascii ""),
    (ascii ":method", ascii "CONNECT"),
    (ascii ":method", ascii "DELETE"),
    (ascii ":method", ascii "GET"),
    (ascii ":method", ascii "HEAD"),
    (ascii ":method", ascii "OPTIONS"),
    (ascii ":method", ascii "POST"),
    (ascii ":method", ascii "PUT"),
    (ascii ":scheme", ascii "http"),
    (ascii ":scheme", ascii "https"),
    (ascii ":status", ascii "103"),
    (ascii ":status", ascii "200"),
    (ascii ":status", ascii "304"),
    (ascii ":status", ascii "404"),
    (ascii ":status", ascii "503"),
    (ascii "accept", ascii "*/*"),
    (ascii "accept", ascii "application/dns-message"),
    (ascii "accept-encoding", ascii "gzip, deflate, br"),
    (ascii "accept-ranges", ascii "bytes"),
    (ascii "access-control-allow-headers", ascii "cache-control"),
    (ascii "access-control-allow-headers", ascii "content-type"),
    (ascii "access-control-allow-origin", ascii "*"),
    (ascii "cache-control", ascii "max-age=0"),
    (ascii "cache-control", ascii "max-age=2592000"),
    (ascii "cache-control", ascii "max-age=604800"),
    (ascii "cache-control", ascii "no-cache"),
    (ascii "cache-control", ascii "no-store"),
    (ascii "cache-control", ascii "public, max-age=31536000"),
    (ascii "content-encoding", ascii "br"),
    (ascii "content-encoding", ascii "gzip"),
    (ascii "content-type", ascii "application/dns-message"),
    (ascii "content-type", ascii "application/javascript"),
    (ascii "content-type", ascii "application/json"),
    (ascii "content-type", ascii "application/x-www-form-urlencoded"),
    (ascii "content-type", ascii "image/gif"),
    (ascii "content-type", ascii "image/jpeg"),
    (ascii "content-type", ascii "image/png"),
    (ascii "content-type", ascii "text/css"),
    (ascii "content-type", ascii "text/html; charset=utf-8"),
    (ascii "content-type", ascii "text/plain"),
    (ascii "content-type", ascii "text/plain;charset=utf-8"),
    (ascii "range", ascii "bytes=0-"),
    (ascii "strict-transport-security", ascii "max-age=31536000"),
    (ascii "strict-transport-security", ascii "max-age=31536000; includesubdomains"),
    (ascii "strict-transport-security", ascii "max-age=31536000; includesubdomains; preload"),
    (ascii "vary", ascii "accept-encoding"),
    (ascii "vary", ascii "origin"),
    (ascii "x-content-type-options", ascii "nosniff"),
    (ascii "x-xss-protection", ascii "1; mode=block"),
    (ascii ":status", ascii "100"),
    (ascii ":status", ascii "204"),
    (ascii ":status", ascii "206"),
    (ascii ":status", ascii "302"),
    (ascii ":status", ascii "400"),
    (ascii ":status", ascii "403"),
    (ascii ":status", ascii "421"),
    (ascii ":status", ascii "425"),
    (ascii ":status", ascii "500"),
    (ascii "accept-language", ascii ""),
    (ascii "access-control-allow-credentials", ascii "FALSE"),
    (ascii "access-control-allow-credentials", ascii "TRUE"),
    (ascii "access-control-allow-headers", ascii "*"),
    (ascii "access-control-allow-methods", ascii "get"),
    (ascii "access-control-allow-methods", ascii "get, post, options"),
    (ascii "access-control-allow-methods", ascii "options"),
    (ascii "access-control-expose-headers", ascii "content-length"),
    (ascii "access-control-request-headers", ascii "content-type"),
    (ascii "access-control-request-method", ascii "get"),
    (ascii "access-control-request-method", ascii "post"),
    (ascii "alt-svc", ascii "clear"),
    (ascii "authorization", ascii ""),
    (ascii "content-security-policy", ascii "script-src 'none'; object-src 'none'; base-uri 'none'"),
    (ascii "early-data", ascii "1"),
    (ascii "expect-ct", ascii ""),
    (ascii "forwarded", ascii ""),
    (ascii "if-range", ascii ""),
    (ascii "origin", ascii ""),
    (ascii "purpose", ascii "prefetch"),
    (ascii "server", ascii ""),
    (ascii "timing-allow-origin", ascii "*"),
    (ascii "upgrade-insecure-requests", ascii "1"),
    (ascii "user-agent", ascii ""),
    (ascii "x-forwarded-for", ascii ""),
    (ascii "x-frame-options", ascii "deny"),
    (ascii "x-frame-options", ascii "sameorigin")
  ]

def qpackStaticCount : Nat := 99

/-- `qp_entry_t`: a name and then its value, `place` bytes into the ring. -/
structure QpEntry where
  place : Nat
  nlen : Nat
  vlen : Nat
deriving DecidableEq, Repr

/-- `struct proven_qpack_dec`, but for the instruction not yet whole. -/
structure Decoder where
  maxCap : Nat
  cap : Nat
  size : Nat
  bytes : Nat
  ring : List Byte
  head : Nat
  ent : List QpEntry
  slots : Nat
  first : Nat
  count : Nat
  inserts : Nat
deriving DecidableEq, Repr

def qpackDecCreate (maxCapacity : Nat) : Option Decoder :=
  if maxCapacity < 32 ∨ 1 <<< 20 < maxCapacity then none
  else some
    { maxCap := maxCapacity, cap := 0, size := 0, bytes := 0, ring := [], head := 0, ent := [],
      slots := maxCapacity / 32 + 1, first := 0, count := 0, inserts := 0 }

def qpMakeTable (d : Decoder) : Decoder :=
  if d.ring ≠ [] then d
  else { d with ring := List.replicate d.maxCap 0, ent := List.replicate d.slots ⟨0, 0, 0⟩ }

/-- `qp_entry`: the entry of an absolute index. -/
def qpEntry (d : Decoder) (abs : Nat) : Option QpEntry :=
  let oldest := d.inserts - d.count
  if abs < oldest ∨ d.inserts ≤ abs then none
  else some (d.ent.getD ((d.first + (abs - oldest)) % d.slots) ⟨0, 0, 0⟩)

/-- `qp_ring_copy`: bytes of the ring, wrapping. -/
def qpRingCopy (d : Decoder) (place n : Nat) : List Byte :=
  let first := if d.maxCap - place < n then d.maxCap - place else n
  (d.ring.drop place).take first ++ d.ring.take (n - first)

/-- The loop of `qp_evict_to`: `left` entries may go. -/
def qpEvictLoop (limit : Nat) : Nat → Decoder → Decoder
  | 0, d => d
  | left + 1, d =>
    if limit < d.size ∧ 0 < d.count then
      let e := d.ent.getD d.first ⟨0, 0, 0⟩
      qpEvictLoop limit left
        { d with
          size := d.size - (e.nlen + e.vlen + 32)
          bytes := d.bytes - (e.nlen + e.vlen)
          first := (d.first + 1) % d.slots
          count := d.count - 1 }
    else d

def qpEvictTo (d : Decoder) (limit : Nat) : Decoder := qpEvictLoop limit d.count d

/-- Bytes into the ring from `place` on, wrapping. -/
def qpRingWrite (maxCap : Nat) : List Byte → Nat → List Byte → List Byte
  | ring, _, [] => ring
  | ring, place, byte :: rest => qpRingWrite maxCap (ring.set (place % maxCap) byte) (place + 1) rest

/-- `qp_insert`: nothing when the entry is larger than the table. -/
def qpInsert (d : Decoder) (name value : List Byte) : Option Decoder :=
  let esize := name.length + value.length + 32
  if d.cap < esize then none
  else
    let d := qpEvictTo d (d.cap - esize)
    let place := d.head
    some
      { d with
        ring := qpRingWrite d.maxCap (qpRingWrite d.maxCap d.ring place name) (place + name.length) value
        head := (place + name.length + value.length) % d.maxCap
        ent := d.ent.set ((d.first + d.count) % d.slots) ⟨place, name.length, value.length⟩
        count := d.count + 1
        size := d.size + esize
        bytes := d.bytes + name.length + value.length
        inserts := d.inserts + 1 }

structure Framed (d d' : Decoder) : Prop where
  maxCap : d'.maxCap = d.maxCap
  cap : d'.cap = d.cap
  inserts : d'.inserts = d.inserts

theorem framed_refl (d : Decoder) : Framed d d := ⟨rfl, rfl, rfl⟩

theorem framed_trans {d d' d'' : Decoder} (first : Framed d d') (second : Framed d' d'') : Framed d d'' :=
  ⟨second.maxCap.trans first.maxCap, second.cap.trans first.cap, second.inserts.trans first.inserts⟩

theorem evict_framed (limit left : Nat) (d : Decoder) : Framed d (qpEvictLoop limit left d) := by
  induction left generalizing d with
  | zero => exact framed_refl d
  | succ left ih =>
    rw [qpEvictLoop]
    split
    · refine framed_trans ?_ (ih _)
      exact ⟨rfl, rfl, rfl⟩
    · exact framed_refl d

theorem make_framed (d : Decoder) : Framed d (qpMakeTable d) := by
  unfold qpMakeTable
  split
  · exact framed_refl d
  · exact ⟨rfl, rfl, rfl⟩

theorem insert_facts {d d' : Decoder} {name value : List Byte} (inserted : qpInsert d name value = some d') :
    name.length + value.length + 32 ≤ d.cap ∧ d'.maxCap = d.maxCap ∧ d'.cap = d.cap ∧ d'.inserts = d.inserts + 1 := by
  have framed := evict_framed (d.cap - (name.length + value.length + 32)) d.count d
  unfold qpInsert qpEvictTo at inserted
  simp only at inserted
  split at inserted
  · contradiction
  rename_i fits
  cases inserted
  refine ⟨by omega, framed.maxCap, framed.cap, ?_⟩
  simp only [framed.inserts]

end ProvenC.Qpack.Table
