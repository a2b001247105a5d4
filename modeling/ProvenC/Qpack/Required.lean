import ProvenC.Qpack.Feeding
import ProvenC.Quic.PacketNumber

/-!
# The Required Insert Count (RFC 9204, section 4.5.1.1)

A field section says how many insertions it needs modulo twice the entries the table can have.
-/

namespace ProvenC.Qpack.Required

open Bytes
open Quic.PacketNumber
open Qpack.Integer Qpack.Table Qpack.Feeding

/-- `qp_required`: the count from its encoded form. Without a table only 0 is one. -/
def qpRequired (d : Option Decoder) (enc : Nat) : Except ProvenErr Nat :=
  if enc = 0 then .ok 0
  else
    match d with
    | none => .error .invalidFormat
    | some d =>
      let maxEntries := d.maxCap / 32
      let full := 2 * maxEntries
      if full < enc then .error .invalidFormat
      else
        let maxValue := sum64 d.inserts maxEntries
        let r := difference64 (sum64 (maxValue / full * full) enc) 1
        if maxValue < r then
          if r ≤ full then .error .invalidFormat
          else
            let r := r - full
            if r = 0 then .error .invalidFormat else .ok r
        else if r = 0 then .error .invalidFormat else .ok r

/-- `proven_qpack_dec_required`: the count a section begins with. -/
def qpackDecRequired (d : Option Decoder) (fieldSection : List Byte) : Except ProvenErr Nat :=
  match qpInt 8 fieldSection with
  | none => .error .invalidFormat
  | some (enc, _) => qpRequired d enc

/-- What `proven_qpack_encode_dyn` requires: one more than the highest entry its fields refer to. -/
def encodeTop (refs : List Nat) : Nat := refs.foldl (fun top ref => if top < ref + 1 then ref + 1 else top) 0

/-- The count as `proven_qpack_encode_dyn` encodes it. -/
def encodeCount (peerMax top : Nat) : Nat :=
  let full := 2 * (peerMax / 32)
  if top = 0 then 0 else top % full + 1

def encodePrefix (peerMax top : Nat) : List Byte := qpPutInt 8 0x00 (encodeCount peerMax top) ++ [0]

def Allowed (d : Decoder) (required : Nat) : Prop :=
  required = 0 ∨ (0 < required ∧ required ≤ d.inserts + d.maxCap / 32 ∧ d.inserts < required + d.maxCap / 32)

theorem quotient_near {period low high : Nat} (positive : 0 < period) (ordered : low ≤ high) (near : high < low + period) :
    high / period * period = low / period * period ∨ high / period * period = low / period * period + period := by
  have least : low / period ≤ high / period := Nat.div_le_div_right ordered
  have most : high / period ≤ (low + period) / period := Nat.div_le_div_right (le_of_lt near)
  rw [Nat.add_div_right _ positive] at most
  rcases Nat.lt_or_ge (low / period) (high / period) with less | same
  · rw [le_antisymm most less, add_mul, one_mul]
    exact Or.inr rfl
  rw [le_antisymm same least]
  exact Or.inl rfl

theorem required_unwrapped {d : Decoder} {enc : Nat} (small : d.maxCap ≤ 2 ^ 32) (few : d.inserts ≤ quicVarintMax)
    (some : 0 < enc) (within : enc ≤ 2 * (d.maxCap / 32)) : let full := 2 * (d.maxCap / 32)
    let maxValue := d.inserts + d.maxCap / 32
    sum64 d.inserts (d.maxCap / 32) = maxValue ∧
      difference64 (sum64 (maxValue / full * full) enc) 1 = maxValue / full * full + enc - 1 := by
  intro full maxValue
  have most : d.inserts ≤ 2 ^ 62 := le_trans few (Nat.sub_le _ _)
  have below := Nat.div_mul_le_self maxValue full
  have ends : u64End = 2 ^ 64 := rfl
  refine ⟨sum64_exact (by omega), ?_⟩
  rw [sum64_exact (by omega), difference64_exact (by omega) (by omega)]

theorem qp_required_iff {d : Decoder} {enc required : Nat} (room : 32 ≤ d.maxCap) (small : d.maxCap ≤ 2 ^ 32)
    (few : d.inserts ≤ quicVarintMax) :
    qpRequired (some d) enc = .ok required ↔ Allowed d required ∧ enc = encodeCount d.maxCap required := by
  have entries : 0 < d.maxCap / 32 := Nat.div_pos room (by decide)
  have positive : 0 < 2 * (d.maxCap / 32) := by omega
  unfold qpRequired Allowed encodeCount
  by_cases zero : enc = 0
  · rw [if_pos zero, zero]
    simp only
    constructor
    · intro same
      cases same
      exact ⟨Or.inl rfl, rfl⟩
    rintro ⟨-, same⟩
    split at same
    next none_ =>
      rw [none_]
    · omega
  rw [if_neg zero]
  simp only
  generalize wide : 2 * (d.maxCap / 32) = full at positive ⊢
  by_cases beyond : full < enc
  · rw [if_pos beyond]
    constructor
    · nofun
    rintro ⟨-, same⟩
    split at same
    · exact absurd same zero
    have less := Nat.mod_lt required positive
    omega
  rw [if_neg beyond]
  have exact_ := required_unwrapped small few (Nat.pos_of_ne_zero zero) (by omega : enc ≤ 2 * (d.maxCap / 32))
  simp only [wide] at exact_
  rw [exact_.1, exact_.2]
  generalize highest : d.inserts + d.maxCap / 32 = maxValue
  have above := Nat.lt_div_mul_add positive (a := maxValue)
  have below := Nat.div_mul_le_self maxValue full
  have remainder : (maxValue / full * full + (enc - 1)) % full = enc - 1 :=
    Nat.mul_add_mod_of_lt (by omega)
  have parts := Nat.div_add_mod required full
  rw [mul_comm] at parts
  constructor
  · intro found
    split at found
    · split at found
      · contradiction
      rename_i past more
      split at found
      · contradiction
      rename_i counts
      cases found
      have turn : (maxValue / full * full + enc - 1 - full) % full = enc - 1 := by
        rw [← remainder, ← Nat.add_mod_right (_ - full), Nat.sub_add_cancel (by omega), Nat.add_sub_assoc (by omega)]
      rw [if_neg counts, turn]
      exact ⟨Or.inr ⟨by omega, by omega, by omega⟩, by omega⟩
    split at found
    · contradiction
    rename_i within counts
    cases found
    rw [if_neg counts, Nat.add_sub_assoc (by omega), remainder]
    exact ⟨Or.inr ⟨by omega, by omega, by omega⟩, by omega⟩
  rintro ⟨allowed, same⟩
  cases allowed with
  | inl none_ =>
    rw [if_pos none_] at same
    exact absurd same zero
  | inr within =>
    obtain ⟨counts, most, least⟩ := within
    rw [if_neg (by omega)] at same
    have near := quotient_near positive most (by omega : maxValue < required + full)
    -- The highest count there is has the same quotient, or one more.
    cases near with
    | inl equal =>
      rw [equal, if_neg (by omega), if_neg (by omega)]
      exact congrArg Except.ok (by omega)
    | inr next =>
      rw [next, if_pos (by omega), if_neg (by omega), if_neg (by omega)]
      exact congrArg Except.ok (by omega)

theorem encode_count_small (peerMax top : Nat) (some : 32 ≤ peerMax) : encodeCount peerMax top ≤ peerMax := by
  unfold encodeCount
  simp only
  split
  · exact Nat.zero_le _
  have less := Nat.mod_lt top (show 0 < 2 * (peerMax / 32) by omega)
  omega

theorem required_refused {d : Option Decoder} {enc : Nat} {e : ProvenErr} (failed : qpRequired d enc = .error e) :
    e = .invalidFormat := by
  have refused {r : Nat} (failed : (if r = 0 then .error .invalidFormat else .ok r : Except ProvenErr Nat) = .error e) :
      e = .invalidFormat := by
    split at failed
    · exact (Except.error.inj failed).symm
    · contradiction
  unfold qpRequired at failed
  split at failed
  · contradiction
  · cases d with
    | none => exact (Except.error.inj failed).symm
    | some d =>
      simp only at failed
      split at failed
      · exact (Except.error.inj failed).symm
      split at failed
      · split at failed
        · exact (Except.error.inj failed).symm
        · exact refused failed
      · exact refused failed

/-- The section's prefix is read back as the count its encoder required, if that is one the decoder can be asked
for; a count read is one it can be asked for, with that encoding; and every other encoded value is refused. -/
theorem required_insert_count {d : Decoder} (reached : Reached d) : (∀ refs rest, Allowed d (encodeTop refs) →
      qpackDecRequired (some d) (encodePrefix d.maxCap (encodeTop refs) ++ rest) = .ok (encodeTop refs)) ∧
    (∀ enc required, qpRequired (some d) enc = .ok required ↔ Allowed d required ∧ enc = encodeCount d.maxCap required) ∧
    (∀ enc, (¬∃ required, Allowed d required ∧ enc = encodeCount d.maxCap required) →
      qpRequired (some d) enc = .error .invalidFormat) := by
  obtain ⟨room, small, few⟩ := reached_small reached
  have small' : d.maxCap ≤ 2 ^ 32 := le_trans small (by decide)
  refine ⟨?_, fun enc required => qp_required_iff room small' few, ?_⟩
  · intro refs rest allowed
    have fits : encodeCount d.maxCap (encodeTop refs) ≤ quicVarintMax :=
      le_trans (encode_count_small _ _ room) (le_trans small (by decide +kernel))
    have read := @qp_int_roundtrip 8 0x00 (encodeCount d.maxCap (encodeTop refs)) ([0] ++ rest) (by decide) (by decide) fits
    unfold qpackDecRequired encodePrefix
    rw [List.append_assoc, read]
    exact (qp_required_iff room small' few).mpr ⟨allowed, rfl⟩
  intro enc none_
  cases found : qpRequired (some d) enc with
  | ok required => exact absurd ⟨required, (qp_required_iff room small' few).mp found⟩ none_
  | error e => rw [required_refused found]

/-- A table of two entries after four insertions: the fifth is encoded past a multiple of four. -/
theorem required_insert_count_example : ∃ d, Reached d ∧ d.inserts = 4 ∧
    qpackDecRequired (some d) (encodePrefix d.maxCap (encodeTop [4, 3])) = .ok 5 := by
  let bytes : List Byte := [0x3f, 0x21, 0x41, 0x61, 0x01, 0x62, 0x00, 0x00, 0x00]
  let d := (verdict (qpackDecFeeds ⟨(qpackDecCreate 64).get rfl, []⟩ [bytes])).2
  have reached : Reached d := ⟨64, (qpackDecCreate 64).get rfl, [bytes], [], rfl, by decide, by rfl⟩
  have counted : d.inserts = 4 := by decide +kernel
  have room : d.maxCap = 64 := by decide +kernel
  have allowed : Allowed d (encodeTop [4, 3]) := by
    unfold Allowed
    rw [counted, room]
    decide
  have read := (required_insert_count reached).1 [4, 3] [] allowed
  rw [List.append_nil] at read
  exact ⟨d, reached, counted, read⟩

end ProvenC.Qpack.Required
