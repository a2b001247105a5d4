import ProvenC.X509.Paths

/-!
# Constrained authorities and the hosts they reach

A host for which a leaf is accepted against the subtrees of every authority of its path.
-/

namespace ProvenC.X509.Barred

open List Bytes X509.Der X509.Fields X509.Hosts X509.Constraints
open X509.Paths Http.Head Lib.Dotted

def dnsTag : Byte := 0x82
def ipTag : Byte := 0x87

structure Within (ca : Cert) (tag : Byte) (covers : List Byte → Prop) : Prop where
  excluded : ∀ base, (tag, base) ∈ excludedSubtrees ca → ¬covers base
  permitted : ∀ base, (tag, base) ∈ permittedSubtrees ca → ∃ other, (tag, other) ∈ permittedSubtrees ca ∧ covers other

/-- The host text is an address or a name, and lies within the subtrees of `ca` of that kind. -/
def HostWithin (ca : Cert) (host : List Byte) : Prop :=
  match hostAsIp host with
  | some ip => Within ca ipTag fun base => InRange base ip
  | none => Within ca dnsTag fun base => NameUnder base (hostName host)

/-- The name `v` is held against the subtree `base` as something other than what it matches. -/
def Loose (v base : List Byte) : Prop :=
  (v.getLast? = some dot ∧ base ≠ []) ∨ (isWild v = true ∧ base.head? = some dot ∧ lowered (v.drop 2) = lowered base)

variable {name : List Byte}

theorem wild_parts (wild : isWild name = true) : name = star :: dot :: name.drop 2 := by
  have front := eq_of_beq wild
  conv_lhs => rw [← take_append_drop 2 name, front]
  rfl

theorem bare_matches {bare : List Byte} (matched : barePatternMatches bare name = true) :
    (isWild bare = true ∧ bare.drop 2 ≠ [] ∧ ∃ label, lowered name = label ++ dot :: lowered (bare.drop 2)) ∨
      (star ∉ bare ∧ lowered bare = lowered name) := by
  unfold barePatternMatches at matched
  split at matched
  next wild =>
    left
    split at matched
    · cases matched
    rename_i labels
    dsimp only at matched
    split at matched
    · cases matched
    rw [eq_ascii_ci_iff] at matched
    push Not at labels
    refine ⟨wild, ?_, lowered (name.take (name.findIdx (· == dot))), ?_⟩
    · intro empty
      simp [empty] at labels
    have tail : lowered (bare.drop 1) = dot :: lowered (bare.drop 2) := by
      conv_lhs => rw [wild_parts wild]
      rfl
    rw [← tail, ← matched, lowered, lowered, lowered, ← map_append, take_append_drop]
  right
  split at matched
  · cases matched
  rename_i plain
  exact ⟨by simpa using plain, eq_ascii_ci_iff.mp matched⟩

variable {base : List Byte}

theorem root_over_dotted (covers : NameUnder base name) (ends : name.getLast? = some dot)
    (bare : base.getLast? ≠ some dot) : base = [] := by
  by_contra filled
  have filled' : lowered base ≠ [] := by simpa [lowered] using filled
  have suffix : lowered base <:+ lowered name := by
    rcases covers with root | ⟨-, suffix, -⟩ | ⟨-, same | suffix⟩
    · exact absurd root filled'
    · exact suffix
    · rw [same]
    · exact (suffix_cons dot _).trans suffix
  obtain ⟨front, split⟩ := suffix
  have last : (lowered base).getLast? = some dot := by
    rw [← lowered_last.mpr ends, ← split, List.getLast?_append_of_ne_nil _ filled']
  exact bare (lowered_last.mp last)

variable {v : List Byte}

variable (matched : dnsPatternMatches v name = true)
include matched

theorem matched_tail (ends : v.getLast? = some dot) : (if isWild v then v.drop 2 else v).getLast? = some dot := by
  split
  next wild =>
    unfold dnsPatternMatches at matched
    split at matched
    · cases matched
    have parts := wild_parts wild
    by_cases short : v.drop 2 = []
    · rw [short] at parts
      rw [parts] at matched
      rcases bare_matches matched with ⟨wild', -⟩ | ⟨plain, -⟩
      · cases wild'
      · exact absurd (mem_cons_self ..) plain
    rw [parts, show star :: dot :: v.drop 2 = [star, dot] ++ v.drop 2 from rfl,
      List.getLast?_append_of_ne_nil _ short] at ends
    exact ends
  · exact ends

theorem matched_bare (bare : v.getLast? ≠ some dot) :
    (isWild v = true ∧ ∃ label, lowered name = label ++ dot :: lowered (v.drop 2)) ∨
      (isWild v = false ∧ lowered v = lowered name) := by
  unfold dnsPatternMatches at matched
  split at matched
  · cases matched
  rcases bare_matches matched with ⟨wild, -, split⟩ | ⟨plain, same⟩
  · exact .inl ⟨wild, split⟩
  refine .inr ⟨?_, same⟩
  by_contra wild
  have parts : v = star :: dot :: v.drop 2 := wild_parts (by simpa using wild)
  rw [parts] at plain
  exact plain (mem_cons_self ..)

theorem excluded_met (covers : NameUnder base name) (tight : ¬Loose v base) :
    (scanBase .dns v true (false, false) (dnsTag, base)).2 = true := by
  unfold scanBase
  rw [if_pos ⟨rfl, rfl⟩]
  simp only [Bool.false_or, Bool.true_and, Bool.or_eq_true, Bool.and_eq_true, dns_under_iff]
  by_cases root : base = []
  · left
    rw [root]
    exact under_root _
  have bare : v.getLast? ≠ some dot := fun ends => tight (.inl ⟨ends, root⟩)
  rcases matched_bare matched bare with ⟨wild, label, split⟩ | ⟨plain, same⟩
  · rw [if_pos wild]
    unfold NameUnder at covers ⊢
    rw [split] at covers
    rcases under_meets covers with below | above | ⟨same, leading⟩
    · exact .inl below
    · exact .inr ⟨wild, above⟩
    · exact absurd (.inr ⟨wild, lowered_head.mp leading, same.symm⟩) tight
  left
  rw [plain]
  unfold NameUnder at covers ⊢
  rw [if_neg (by decide), same]
  exact covers

theorem permitted_covers (bare : base.getLast? ≠ some dot)
    (hit : (scanBase .dns v false (false, false) (dnsTag, base)).2 = true) : NameUnder base name := by
  unfold scanBase at hit
  rw [if_pos ⟨rfl, rfl⟩] at hit
  simp only [Bool.false_or, Bool.false_and, Bool.or_false, dns_under_iff] at hit
  by_cases ends : v.getLast? = some dot
  · rw [root_over_dotted hit (matched_tail matched ends) bare]
    exact under_root _
  rcases matched_bare matched ends with ⟨wild, label, split⟩ | ⟨plain, same⟩
  · rw [if_pos wild] at hit
    unfold NameUnder at hit ⊢
    rw [split]
    exact under_below label hit
  rw [plain] at hit
  unfold NameUnder at hit ⊢
  rw [if_neg (by decide), same] at hit
  exact hit

omit matched

theorem scanned_tag {kind : NameKind} {excluded : Bool} {base : Byte × List Byte}
    (hit : (scanBase kind v excluded (false, false) base).2 = true) :
    (kind = .dns ∧ base.1 = dnsTag) ∨ (kind = .ip ∧ base.1 = ipTag ∧ InRange base.2 v) := by
  unfold scanBase at hit
  split at hit
  next dns =>
    exact .inl ⟨dns.2, dns.1⟩
  split at hit
  next ip =>
    simp only [Bool.false_or, ipUnder, decide_eq_true_eq] at hit
    exact .inr ⟨ip.2, ip.1, hit⟩
  · cases hit

theorem no_subtrees {ca : Cert} (free : ca.nameConstraints = []) :
    excludedSubtrees ca = [] ∧ permittedSubtrees ca = [] := by
  unfold excludedSubtrees permittedSubtrees excludedList permittedList
  rw [free]
  exact ⟨rfl, rfl⟩

variable {leaf : Cert}

theorem within_free {ca : Cert} (free : ca.nameConstraints = []) (tag : Byte) (covers : List Byte → Prop) : Within ca tag covers := by
  obtain ⟨excluded, permitted⟩ := no_subtrees free
  constructor
  all_goals intro base listed
  · rw [excluded] at listed
    cases listed
  rw [permitted] at listed
  cases listed

theorem address_within {ca : Cert} (passed : ca.nameConstraints ≠ [] → nameConstraintsOk ca leaf = true)
    {ip : List Byte} (named : (NameKind.ip, ip) ∈ altNames leaf) : Within ca ipTag fun base => InRange base ip := by
  by_cases free : ca.nameConstraints = []
  · exact within_free free _ _
  obtain ⟨clear, allowed⟩ := each_name_checked (passed free) named (by decide)
  constructor
  · intro base listed covers
    have missed := clear_of_list clear listed
    simp [scanBase, ipTag, ipUnder, covers] at missed
  intro base listed
  obtain ⟨⟨tag, other⟩, listed', hit⟩ := allowed_by_list allowed listed rfl
  rcases scanned_tag hit with ⟨wrong, -⟩ | ⟨-, same, covers⟩
  · cases wrong
  obtain rfl : tag = ipTag := same
  exact ⟨other, listed', covers⟩

theorem name_within {ca : Cert} (passed : ca.nameConstraints ≠ [] → nameConstraintsOk ca leaf = true) (matched : ∃ v, (NameKind.dns, v) ∈ altNames leaf ∧ dnsPatternMatches v name = true)
    (bare : ∀ base, (dnsTag, base) ∈ permittedSubtrees ca → base.getLast? ≠ some dot)
    (tight : ∀ base, (dnsTag, base) ∈ excludedSubtrees ca → NameUnder base name →
      ∃ v, (NameKind.dns, v) ∈ altNames leaf ∧ dnsPatternMatches v name = true ∧ ¬Loose v base) :
    Within ca dnsTag fun base => NameUnder base name := by
  by_cases free : ca.nameConstraints = []
  · exact within_free free _ _
  constructor
  · intro base listed covers
    obtain ⟨v, named, matches_host, firm⟩ := tight base listed covers
    obtain ⟨clear, -⟩ := each_name_checked (passed free) named (by decide)
    have missed := clear_of_list clear listed
    rw [excluded_met matches_host covers firm] at missed
    cases missed
  intro base listed
  obtain ⟨v, named, matches_host⟩ := matched
  obtain ⟨-, allowed⟩ := each_name_checked (passed free) named (by decide)
  obtain ⟨⟨tag, other⟩, listed', hit⟩ := allowed_by_list allowed listed rfl
  rcases scanned_tag hit with ⟨-, same⟩ | ⟨wrong, -⟩
  · obtain rfl : tag = dnsTag := same
    exact ⟨other, listed', permitted_covers matches_host (bare other listed') hit⟩
  · cases wrong

theorem matched_address {host ip : List Byte} (matched : matchesHost leaf host = true)
    (literal : hostAsIp host = some ip) : (NameKind.ip, ip) ∈ altNames leaf := by
  unfold matchesHost at matched
  split at matched
  · cases matched
  simp only [literal] at matched
  obtain ⟨⟨kind, v⟩, named, same⟩ := any_eq_true.mp matched
  simp only [Bool.and_eq_true, beq_iff_eq] at same
  rw [← same.1, ← same.2]
  exact named

theorem matched_name {host : List Byte} (matched : matchesHost leaf host = true) (text : hostAsIp host = none) :
    ∃ v, (NameKind.dns, v) ∈ altNames leaf ∧ dnsPatternMatches v (hostName host) = true := by
  unfold matchesHost at matched
  split at matched
  · cases matched
  simp only [text] at matched
  obtain ⟨⟨kind, v⟩, named, same⟩ := any_eq_true.mp matched
  simp only [Bool.and_eq_true, beq_iff_eq] at same
  rw [← same.1]
  exact ⟨v, named, same.2⟩

def dottedLeaf : List Byte :=
  [ 0x30, 0x81, 0x99, 0x30, 0x81, 0x8c, 0xa0, 0x03, 0x02, 0x01, 0x02, 0x02, 0x01, 0x01, 0x30, 0x05, 0x06, 0x03, 0x2b, 0x65,
    0x70, 0x30, 0x0c, 0x31, 0x0a, 0x30, 0x08, 0x06, 0x03, 0x55, 0x04, 0x03, 0x0c, 0x01, 0x43, 0x30, 0x1e, 0x17, 0x0d, 0x37,
    0x30, 0x30, 0x31, 0x30, 0x31, 0x30, 0x30, 0x30, 0x30, 0x30, 0x30, 0x5a, 0x17, 0x0d, 0x34, 0x39, 0x30, 0x31, 0x30, 0x31,
    0x30, 0x30, 0x30, 0x30, 0x30, 0x30, 0x5a, 0x30, 0x0c, 0x31, 0x0a, 0x30, 0x08, 0x06, 0x03, 0x55, 0x04, 0x03, 0x0c, 0x01,
    0x4c, 0x30, 0x2a, 0x30, 0x05, 0x06, 0x03, 0x2b, 0x65, 0x70, 0x03, 0x21, 0, 0, 0, 0, 0, 0, 0, 0, 0, 0, 0, 0, 0, 0, 0, 0,
    0, 0, 0, 0, 0, 0, 0, 0, 0, 0, 0, 0, 0, 0, 0, 0, 0, 0xa3, 0x13, 0x30, 0x11, 0x30, 0x0f, 0x06, 0x03, 0x55, 0x1d, 0x11,
    0x04, 0x08, 0x30, 0x06, 0x82, 0x04, 0x78, 0x2e, 0x62, 0x2e, 0x30, 0x05, 0x06, 0x03, 0x2b, 0x65, 0x70, 0x03, 0x01, 0 ]

def barredAuthority : List Byte :=
  [ 0x30, 0x81, 0xa8, 0x30, 0x81, 0x9b, 0xa0, 0x03, 0x02, 0x01, 0x02, 0x02, 0x01, 0x01, 0x30, 0x05, 0x06, 0x03, 0x2b, 0x65,
    0x70, 0x30, 0x0c, 0x31, 0x0a, 0x30, 0x08, 0x06, 0x03, 0x55, 0x04, 0x03, 0x0c, 0x01, 0x43, 0x30, 0x1e, 0x17, 0x0d, 0x37,
    0x30, 0x30, 0x31, 0x30, 0x31, 0x30, 0x30, 0x30, 0x30, 0x30, 0x30, 0x5a, 0x17, 0x0d, 0x34, 0x39, 0x30, 0x31, 0x30, 0x31,
    0x30, 0x30, 0x30, 0x30, 0x30, 0x30, 0x5a, 0x30, 0x0c, 0x31, 0x0a, 0x30, 0x08, 0x06, 0x03, 0x55, 0x04, 0x03, 0x0c, 0x01,
    0x43, 0x30, 0x2a, 0x30, 0x05, 0x06, 0x03, 0x2b, 0x65, 0x70, 0x03, 0x21, 0, 0, 0, 0, 0, 0, 0, 0, 0, 0, 0, 0, 0, 0, 0, 0,
    0, 0, 0, 0, 0, 0, 0, 0, 0, 0, 0, 0, 0, 0, 0, 0, 0, 0xa3, 0x22, 0x30, 0x20, 0x30, 0x0c, 0x06, 0x03, 0x55, 0x1d, 0x13,
    0x04, 0x05, 0x30, 0x03, 0x01, 0x01, 0xff, 0x30, 0x10, 0x06, 0x03, 0x55, 0x1d, 0x1e, 0x04, 0x09, 0x30, 0x07, 0xa1, 0x05,
    0x30, 0x03, 0x82, 0x01, 0x62, 0x30, 0x05, 0x06, 0x03, 0x2b, 0x65, 0x70, 0x03, 0x01, 0 ]

def escapingHost : List Byte := [120, 46, 98]

def readCert (der : List Byte) : Cert := (certParse der).getD { der := der }

end ProvenC.X509.Barred
