import ProvenC.X509.Search
import Mathlib.Data.List.Forall2

/-!
# The paths a search is for

A trusted path goes from the leaf over certificates of the peer's, each used once, to an anchor. `Ends` is the
same path grown one certificate at a time, beside the marks of the search.
-/

namespace ProvenC.X509.Trust

open List X509.Fields X509.Paths X509.Search

/-- `issuer` issued `c`. -/
def Issued (verifier : Verifier) (c issuer : Cert) : Prop :=
  issuer.subject = c.issuer ∧ checkSignature verifier c issuer = .none

/-- `c` is the entry at `pick`. -/
def Sent (entries : List Cert) (pick : Nat) (c : Cert) : Prop := entries[pick]? = some c

def Anchored (setting : Setting) (leaf : Cert) (issuers : List Cert) : Prop :=
  (issuers = [] ∧ leaf ∈ setting.anchors) ∨
    ∃ picks mids anchor, picks.Nodup ∧ List.Forall₂ (Sent setting.extra) picks mids ∧
      anchor ∈ setting.anchors ∧ issuers = mids ++ [anchor]

structure Trusted (setting : Setting) (leaf : Cert) (issuers : List Cert) : Prop where
  short : issuers.length + 1 ≤ provenCertMaxDepth
  linked : List.IsChain (Issued setting.verifier) (leaf :: issuers)
  anchored : Anchored setting leaf issuers
  accepted : Acceptable setting.use setting.now leaf issuers

structure Read (setting : Setting) : Prop where
  anchors : ∀ anchor ∈ setting.anchors, certParse anchor.der = some anchor
  extra : ∀ c ∈ setting.extra, certParse c.der = some c

/-- The path of `leaf` and `issuers` so far, with the entries in `used` taken, can end as `full`. -/
inductive Ends (setting : Setting) (leaf : Cert) : (Nat → Bool) → List Cert → List Cert → Prop where
  | itself {used : Nat → Bool} {issuers : List Cert} {anchor : Cert} (stored : anchor ∈ setting.anchors)
      (same : anchor.der = (issuers.getLastD leaf).der) : Ends setting leaf used issuers issuers
  | anchor {used : Nat → Bool} {issuers : List Cert} {anchor : Cert}
      (short : issuers.length + 1 < provenCertMaxDepth) (stored : anchor ∈ setting.anchors)
      (issued : Issued setting.verifier (issuers.getLastD leaf) anchor) :
      Ends setting leaf used issuers (issuers ++ [anchor])
  | extra {used : Nat → Bool} {issuers full : List Cert} {pick : Nat} {c : Cert}
      (short : issuers.length + 1 < provenCertMaxDepth) (sent : Sent setting.extra pick c)
      (free : used pick = false) (issued : Issued setting.verifier (issuers.getLastD leaf) c)
      (ends : Ends setting leaf (Function.update used pick true) (issuers ++ [c]) full) :
      Ends setting leaf used issuers full

structure Grown (setting : Setting) (used : Nat → Bool) (cur : Cert) (length : Nat) (more : List Cert) : Prop where
  short : length + more.length ≤ provenCertMaxDepth
  linked : List.IsChain (Issued setting.verifier) (cur :: more)
  anchored : (more = [] ∧ cur ∈ setting.anchors) ∨
    ∃ picks mids anchor, picks.Nodup ∧ (∀ pick ∈ picks, used pick = false) ∧
      List.Forall₂ (Sent setting.extra) picks mids ∧ anchor ∈ setting.anchors ∧ more = mids ++ [anchor]

theorem same_cert {a b : Cert} (a_read : certParse a.der = some a) (b_read : certParse b.der = some b)
    (same : a.der = b.der) : a = b := by
  rw [same, b_read] at a_read
  exact (Option.some.inj a_read).symm

variable {setting : Setting}

theorem ends_grown (read : Read setting) {leaf : Cert}
    {used : Nat → Bool} {issuers full : List Cert} (ends : Ends setting leaf used issuers full)
    (cur_read : certParse (issuers.getLastD leaf).der = some (issuers.getLastD leaf))
    (short : issuers.length + 1 ≤ provenCertMaxDepth) :
    ∃ more, full = issuers ++ more ∧ Grown setting used (issuers.getLastD leaf) (issuers.length + 1) more := by
  induction ends with
  | itself stored same =>
    refine ⟨[], by simp, ⟨short, isChain_singleton _, Or.inl ⟨rfl, ?_⟩⟩⟩
    rw [← same_cert (read.anchors _ stored) cur_read same]
    exact stored
  | anchor room stored issued =>
    refine ⟨[_], rfl, ⟨by rw [length_singleton]; omega, ?_, Or.inr ⟨[], [], _, ?_, ?_, ?_, stored, rfl⟩⟩⟩
    · exact isChain_pair.mpr issued
    · exact nodup_nil
    · simp
    · exact List.Forall₂.nil
  | @extra used issuers full pick c room sent free issued ends ih =>
    have here : c ∈ setting.extra := mem_of_getElem? sent
    rw [getLastD_concat, length_append] at ih
    obtain ⟨more, rfl, grown⟩ := ih (read.extra c here) (by rw [length_singleton]; omega)
    refine ⟨c :: more, by simp, ⟨?_, ?_, Or.inr ?_⟩⟩
    · have fits := grown.short
      simp only [length_cons, length_nil] at fits ⊢
      omega
    · exact isChain_cons_cons.mpr ⟨issued, grown.linked⟩
    rcases grown.anchored with ⟨rfl, stored⟩ | ⟨picks, mids, anchor, once, unused, sent', stored, rfl⟩
    · exact ⟨[], [], c, nodup_nil, by simp, List.Forall₂.nil, stored, rfl⟩
    have fresh : pick ∉ picks := by
      intro inside
      have marked := unused pick inside
      simp at marked
    refine ⟨pick :: picks, c :: mids, anchor, nodup_cons.mpr ⟨fresh, once⟩, ?_,
      List.Forall₂.cons sent sent', stored, rfl⟩
    intro other inside
    rcases mem_cons.mp inside with rfl | later
    · exact free
    have unmarked := unused other later
    rw [Function.update_of_ne (by rintro rfl; exact fresh later)] at unmarked
    exact unmarked

theorem grown_ends {leaf : Cert} {mids : List Cert} {picks : List Nat} {anchor : Cert} (stored : anchor ∈ setting.anchors)
    (sent : List.Forall₂ (Sent setting.extra) picks mids) {used : Nat → Bool}
    {issuers : List Cert} (once : picks.Nodup) (unused : ∀ pick ∈ picks, used pick = false)
    (linked : List.IsChain (Issued setting.verifier) (issuers.getLastD leaf :: (mids ++ [anchor])))
    (short : issuers.length + mids.length + 2 ≤ provenCertMaxDepth) :
    Ends setting leaf used issuers (issuers ++ (mids ++ [anchor])) := by
  induction sent generalizing used issuers with
  | nil =>
    rw [nil_append] at linked ⊢
    refine Ends.anchor ?_ stored (isChain_pair.mp linked)
    simp only [length_nil] at short
    omega
  | @cons pick c picks mids here sent ih =>
    rw [cons_append, isChain_cons_cons] at linked
    obtain ⟨fresh, once⟩ := nodup_cons.mp once
    rw [length_cons] at short
    refine Ends.extra (by omega) here (unused pick (mem_cons_self ..)) linked.1 ?_
    have split : issuers ++ (c :: mids ++ [anchor]) = issuers ++ [c] ++ (mids ++ [anchor]) := by simp
    rw [split]
    refine ih once ?_ ?_ ?_
    · intro other inside
      rw [Function.update_of_ne (by rintro rfl; exact fresh inside)]
      exact unused other (mem_cons_of_mem _ inside)
    · rw [getLastD_concat]
      exact linked.2
    rw [length_append, length_singleton]
    omega

theorem trusted_iff (read : Read setting) {leaf : Cert}
    (leaf_read : certParse leaf.der = some leaf) (issuers : List Cert) : Trusted setting leaf issuers ↔
      Ends setting leaf (fun _ => false) [] issuers ∧ cvCheckPath setting.use setting.now leaf issuers = .none := by
  rw [check_path_iff]
  constructor
  · rintro ⟨short, linked, anchored, accepted⟩
    refine ⟨?_, accepted⟩
    rcases anchored with ⟨rfl, stored⟩ | ⟨picks, mids, anchor, once, sent, stored, rfl⟩
    · exact Ends.itself stored rfl
    refine grown_ends stored sent once (fun _ _ => rfl) linked ?_
    simp only [length_append, length_singleton] at short
    simp only [length_nil]
    omega
  rintro ⟨ends, accepted⟩
  obtain ⟨more, rfl, grown⟩ := ends_grown read ends leaf_read (by decide)
  refine ⟨?_, grown.linked, ?_, accepted⟩
  · have short := grown.short
    rw [length_nil] at short
    omega
  rcases grown.anchored with empty | ⟨picks, mids, anchor, once, -, sent, stored, split⟩
  · exact Or.inl empty
  · exact Or.inr ⟨picks, mids, anchor, once, sent, stored, split⟩

end ProvenC.X509.Trust
