import ProvenC.Http.Jar

/-!
# What a header asks for

The attributes are read one after another; what is asked for in the end is what the last of each kind
says.
-/

namespace ProvenC.Http.Asking

open List Bytes Http.Head Http.Cookie Http.Jar

def endOf (expires : Int) : Option Int := if expires = 0 then none else endAt expires

/-- A `Max-Age` whose end the clock can tell: no beginning of its digits after which the rest is
not read is within the clock, and it does not end in the clock's last second. -/
def AgeInClock (now : Int) (av : List Byte) : Prop :=
  ∀ digits, ageDigits av = (false, digits) → digits.all isDigit = true →
    (∀ n < digits.length, 4000000000 ≤ numberOf (digits.take n) →
      (int64Max - now) / nsPerSec ≤ numberOf (digits.take n)) ∧
    (now + numberOf digits * nsPerSec ≤ int64Max - nsPerSec ∨ (int64Max : Int) ≤ now + numberOf digits * nsPerSec)

def InClock (now : Int) : Prop := now < int64Max

structure Timed (now : Int) (attrs : List (List Byte × List Byte)) : Prop where
  early : InClock now
  clock : 0 ≤ now ∨ valuesOf "Max-Age" attrs = [] ∧ valuesOf "Expires" attrs = []
  ages : ∀ av ∈ valuesOf "Max-Age" attrs, AgeInClock now av

def Ends (asked : Asked) : Term → Prop
  | .over_ => asked.expired = true
  | .until_ ends => asked.expired = false ∧ endOf asked.expires = ends

theorem number_from_cons (value : Nat) (b : Byte) (digits : List Byte) :
    numberFrom value (b :: digits) = numberFrom (value * 10 + (b.val - 48)) digits :=
  foldl_cons

theorem number_from_le (value : Nat) (digits : List Byte) : value ≤ numberFrom value digits := by
  induction digits generalizing value with
  | nil => exact le_rfl
  | cons b digits ih =>
    rw [number_from_cons]
    exact le_trans (by omega) (ih _)

theorem number_from_append (value : Nat) (first second : List Byte) :
    numberFrom value (first ++ second) = numberFrom (numberFrom value first) second :=
  foldl_append

theorem seconds_unread {digits : List Byte} (digits_ : digits.all isDigit = true) {seconds : Nat}
    (many : 4000000000 ≤ seconds) : ckSeconds seconds digits = some seconds := by
  induction digits with
  | nil => rfl
  | cons b digits ih =>
    rw [all_cons, Bool.and_eq_true] at digits_
    rw [ckSeconds, if_pos digits_.1, if_neg (not_lt.mpr many)]
    exact ih digits_.2

theorem seconds_read {digits : List Byte} (digits_ : digits.all isDigit = true) (seconds : Nat) :
    ∃ n ≤ digits.length, ckSeconds seconds digits = some (numberFrom seconds (digits.take n)) ∧
      (n < digits.length → 4000000000 ≤ numberFrom seconds (digits.take n)) := by
  induction digits generalizing seconds with
  | nil => exact ⟨0, le_rfl, rfl, fun less => absurd less (lt_irrefl 0)⟩
  | cons b digits ih =>
    have both := digits_
    rw [all_cons, Bool.and_eq_true] at both
    by_cases more : seconds < 4000000000
    · obtain ⟨n, place, read, far⟩ := ih both.2 (seconds * 10 + (b.val - 48))
      refine ⟨n + 1, Nat.succ_le_succ place, ?_, fun less => far (Nat.lt_of_succ_lt_succ less)⟩
      rw [ckSeconds, if_pos both.1, if_pos more]
      exact read
    · exact ⟨0, Nat.zero_le _, seconds_unread digits_ (Nat.le_of_not_lt more), fun _ => Nat.le_of_not_lt more⟩

theorem seconds_none {digits : List Byte} (other : digits.all isDigit = false) (seconds : Nat) :
    ckSeconds seconds digits = none := by
  induction digits generalizing seconds with
  | nil => cases other
  | cons b digits ih =>
    rw [ckSeconds]
    split
    next digit =>
      rw [all_cons, digit, Bool.true_and] at other
      exact ih other _
    · rfl

theorem end_of_clock : endOf int64Max = none := by decide

theorem time_left {now : Int} (known : 0 ≤ now) (early : InClock now) : timeSub int64Max now = int64Max - now := by
  have most : (int64Max : Int) = 9223372036854775807 := rfl
  rw [InClock, most] at early
  rw [timeSub, most]
  apply Int.bmod_eq_of_le
  · omega
  · omega

variable {av : List Byte}

theorem ends_max_age {now : Int} {digits : List Byte} {negative : Bool} {age : Int} {seconds : Nat} (asked : Asked)
    (known : 0 ≤ now) (early : InClock now) (told : AgeInClock now av) (split : ageDigits av = (negative, digits))
    (age_ : ageOf av = some age) (read : ckSeconds 0 digits = some seconds) :
    Ends (ckMaxAge asked now negative seconds) (ageTerm now age) := by
  have ns : (nsPerSec : Int) = 1000000000 := rfl
  have most : (int64Max : Int) = 9223372036854775807 := rfl
  unfold ageOf at age_
  rw [split] at age_
  dsimp only at age_
  split at age_
  · cases age_
  rename_i number
  have digits_ : digits.all isDigit = true := by
    by_contra other
    exact number (.inr (by simpa using other))
  obtain ⟨n, place, reads, far⟩ := seconds_read digits_ 0
  rw [read] at reads
  cases reads
  cases age_
  unfold ckMaxAge ageTerm
  have splitAt : numberOf digits = numberFrom (numberFrom 0 (digits.take n)) (digits.drop n) := by
    rw [← number_from_append, take_append_drop]
    rfl
  have least : numberFrom 0 (digits.take n) ≤ numberOf digits := by
    rw [splitAt]
    exact number_from_le _ _
  cases negative with
  | true =>
    rw [if_pos (by rfl), if_pos (by simp)]
    rfl
  | false =>
    obtain ⟨whole, clear⟩ := told digits split digits_
    simp only [ns, most] at whole clear
    rw [InClock, most] at early
    rw [Bool.false_or, if_neg Bool.false_ne_true]
    -- What is read is the number, or is as far past the clock as the number is.
    have same : numberFrom 0 (digits.take n) = numberOf digits ∨ 4000000000 ≤ numberFrom 0 (digits.take n) ∧
          (9223372036854775807 - now) / 1000000000 ≤ numberFrom 0 (digits.take n) := by
      rcases place.lt_or_eq with less | all
      · exact .inr ⟨far less, whole n less (far less)⟩
      refine .inl ?_
      rw [all, take_length]
      rfl
    by_cases zero : numberFrom 0 (digits.take n) = 0
    · rw [if_pos (by rw [zero]; rfl), if_pos]
      · rfl
      rcases same with all | ⟨large, _⟩
      · rw [← all, zero]
        exact le_rfl
      · omega
    rw [if_neg (by simpa using zero), if_neg (by omega)]
    refine ⟨rfl, ?_⟩
    rw [time_left known (by rw [InClock, most]; exact early), most, ns, Int.tdiv_eq_ediv_of_nonneg (by omega)]
    dsimp only
    unfold endOf endAt
    rw [most]
    split
    · -- Past the end of the clock.
      rename_i past
      rw [if_neg (by omega), if_neg (by omega), if_neg]
      rcases same with all | ⟨large, _⟩
      · rw [all] at past
        omega
      · omega
    rename_i within
    rcases same with all | ⟨_, past⟩
    · rw [all] at within ⊢
      have positive : 0 < numberOf digits := by omega
      rw [if_neg (by omega)]
    · exact absurd past within

theorem ends_date {now : Int} (asked : Asked) (known : 0 ≤ now) {term : Term}
    (named : dateTerm now av = some term) : Ends (ckExpires asked now av) term := by
  unfold dateTerm at named
  unfold ckExpires
  cases read : httpDateParse av now with
  | error e =>
    rw [read] at named
    cases e with
    | overflow =>
      cases named
      exact ⟨rfl, end_of_clock⟩
    | _ => cases named
  | ok t =>
    rw [read] at named
    cases named
    by_cases past : (t : Int) ≤ now
    · rw [if_pos past]
      show (decide ((t : Int) ≤ now) || t == 0) = true
      rw [decide_eq_true past, Bool.true_or]
    rw [if_neg past]
    have positive : t ≠ 0 := by omega
    refine ⟨?_, ?_⟩
    · show (decide ((t : Int) ≤ now) || t == 0) = false
      rw [decide_eq_false past, Bool.false_or]
      exact beq_false_of_ne positive
    show endOf (t : Int) = endAt t
    rw [endOf, if_neg (by omega)]

theorem date_ignored {now : Int} (asked : Asked) (none_ : dateTerm now av = none) : ckExpires asked now av = asked := by
  unfold dateTerm at none_
  unfold ckExpires
  cases read : httpDateParse av now with
  | ok t =>
    rw [read] at none_
    cases none_
  | error e =>
    rw [read] at none_
    cases e with
    | overflow => cases none_
    | _ => rfl

theorem values_same {name : String} {attr : List Byte × List Byte} (attrs : List (List Byte × List Byte))
    (is_ : ckIs attr.1 name = true) : valuesOf name (attrs ++ [attr]) = valuesOf name attrs ++ [attr.2] := by
  rw [valuesOf, filter_append, map_append, filter_singleton, is_]
  rfl

theorem values_other {name : String} {attr : List Byte × List Byte} (attrs : List (List Byte × List Byte))
    (isNot : ckIs attr.1 name = false) : valuesOf name (attrs ++ [attr]) = valuesOf name attrs := by
  rw [valuesOf, filter_append, map_append, filter_singleton, isNot]
  exact append_nil _

theorem is_only {an : List Byte} {first second : String} (is_ : ckIs an first = true)
    (differ : (ascii first).map toLower ≠ (ascii second).map toLower) : ckIs an second = false := by
  by_contra both
  rw [Bool.not_eq_false] at both
  exact differ ((beq_iff_eq.mp is_).symm.trans (beq_iff_eq.mp both))

theorem read_snoc {Read : Type} (read : List Byte → Option Read) (values : List (List Byte)) (value : List Byte) :
    (values ++ [value]).filterMap read = values.filterMap read ++ (read value).toList := by
  rw [filterMap_append, filterMap_cons, filterMap_nil]
  cases read value <;> rfl

structure Said (path : List Byte) (now : Int) (attrs : List (List Byte × List Byte)) (asked : Asked) : Prop where
  path : asked.path = pathOf path attrs
  secure : asked.isSecure = askedSecure attrs
  aged : asked.hasMaxAge = ((valuesOf "Max-Age" attrs).filterMap ageOf).getLast?.isSome
  term : Ends asked (termOf now attrs)

theorem said_first (path : List Byte) (now : Int) : Said path now [] (askedFirst path) where
  path := rfl
  secure := rfl
  aged := rfl
  term := ⟨rfl, rfl⟩

theorem timed_before {now : Int} {attrs : List (List Byte × List Byte)} {attr : List Byte × List Byte}
    (timed : Timed now (attrs ++ [attr])) : Timed now attrs := by
  have fewer (name : String) : valuesOf name attrs <+: valuesOf name (attrs ++ [attr]) := by
    rw [valuesOf, valuesOf, filter_append, map_append]
    exact prefix_append _ _
  refine ⟨timed.early, timed.clock.imp_right fun empty => ⟨?_, ?_⟩, fun av member => timed.ages av ((fewer _).subset member)⟩
  · exact prefix_nil.mp (empty.1 ▸ fewer "Max-Age")
  · exact prefix_nil.mp (empty.2 ▸ fewer "Expires")

section Attribute

variable {path : List Byte} {now : Int} {attrs : List (List Byte × List Byte)} {asked : Asked}
  {attr : List Byte × List Byte} (said : Said path now attrs asked)

include said

theorem said_other (noPath : ckIs attr.1 "Path" = false) (noSecure : ckIs attr.1 "Secure" = false)
    (noAge : ckIs attr.1 "Max-Age" = false) (noDate : ckIs attr.1 "Expires" = false) :
    Said path now (attrs ++ [attr]) asked where
  path := by
    rw [pathOf, values_other attrs noPath]
    exact said.path
  secure := by
    rw [askedSecure, values_other attrs noSecure]
    exact said.secure
  aged := by
    rw [values_other attrs noAge]
    exact said.aged
  term := by
    rw [termOf, values_other attrs noAge, values_other attrs noDate]
    exact said.term

theorem said_secure (is_ : ckIs attr.1 "Secure" = true) :
    Said path now (attrs ++ [attr]) { asked with isSecure := true } where
  path := by
    rw [pathOf, values_other attrs (is_only is_ (by decide))]
    exact said.path
  secure := by
    rw [askedSecure, values_same attrs is_]
    simp
  aged := by
    rw [values_other attrs (is_only is_ (by decide))]
    exact said.aged
  term := by
    rw [termOf, values_other attrs (is_only is_ (by decide)), values_other attrs (is_only is_ (by decide))]
    exact said.term

theorem said_path (is_ : ckIs attr.1 "Path" = true) :
    Said path now (attrs ++ [attr]) (if attr.2.head? = some (byteOf 47) then { asked with path := attr.2 } else asked) := by
  have paths := values_same attrs is_
  have others {name : String} (differ : (ascii "Path").map toLower ≠ (ascii name).map toLower) :
      valuesOf name (attrs ++ [attr]) = valuesOf name attrs := values_other attrs (is_only is_ differ)
  have secure_ : asked.isSecure = askedSecure (attrs ++ [attr]) := by
    rw [askedSecure, others (by decide)]
    exact said.secure
  have aged_ : asked.hasMaxAge = ((valuesOf "Max-Age" (attrs ++ [attr])).filterMap ageOf).getLast?.isSome := by
    rw [others (by decide)]
    exact said.aged
  have term_ : Ends asked (termOf now (attrs ++ [attr])) := by
    rw [termOf, others (by decide), others (by decide)]
    exact said.term
  split
  next absolute =>
    refine ⟨?_, secure_, aged_, ?_⟩
    · rw [pathOf, paths, filter_append, filter_singleton, beq_iff_eq.mpr absolute]
      exact getLastD_concat.symm
    · cases which : termOf now (attrs ++ [attr]) with
      | over_ | until_ =>
        rw [which] at term_
        exact term_
  rename_i relative
  refine ⟨?_, secure_, aged_, term_⟩
  rw [pathOf, paths, filter_append, filter_singleton, beq_false_of_ne relative]
  rw [said.path, pathOf]
  exact congrArg (fun values => List.getLastD values _) (append_nil _).symm

theorem said_no_age (is_ : ckIs attr.1 "Max-Age" = true) (unread : ageOf attr.2 = none) :
    Said path now (attrs ++ [attr]) asked := by
  have others {name : String} (differ : (ascii "Max-Age").map toLower ≠ (ascii name).map toLower) :
      valuesOf name (attrs ++ [attr]) = valuesOf name attrs := values_other attrs (is_only is_ differ)
  have ages : (valuesOf "Max-Age" (attrs ++ [attr])).filterMap ageOf = (valuesOf "Max-Age" attrs).filterMap ageOf := by
    rw [values_same attrs is_, read_snoc, unread]
    exact append_nil _
  refine ⟨?_, ?_, ?_, ?_⟩
  · rw [pathOf, others (by decide)]
    exact said.path
  · rw [askedSecure, others (by decide)]
    exact said.secure
  · rw [ages]
    exact said.aged
  rw [termOf, ages, others (by decide)]
  exact said.term

theorem said_age {digits : List Byte} {negative : Bool} {age : Int} {seconds : Nat}
    (timed : Timed now (attrs ++ [attr])) (is_ : ckIs attr.1 "Max-Age" = true)
    (split : ageDigits attr.2 = (negative, digits)) (age_ : ageOf attr.2 = some age)
    (read : ckSeconds 0 digits = some seconds) :
    Said path now (attrs ++ [attr]) (ckMaxAge asked now negative seconds) := by
  have others {name : String} (differ : (ascii "Max-Age").map toLower ≠ (ascii name).map toLower) :
      valuesOf name (attrs ++ [attr]) = valuesOf name attrs := values_other attrs (is_only is_ differ)
  have ages : ((valuesOf "Max-Age" (attrs ++ [attr])).filterMap ageOf).getLast? = some age := by
    rw [values_same attrs is_, read_snoc, age_]
    exact List.getLast?_concat
  have known : 0 ≤ now := by
    rcases timed.clock with known | ⟨empty, _⟩
    · exact known
    rw [values_same attrs is_] at empty
    exact absurd empty (append_ne_nil_of_right_ne_nil _ (cons_ne_nil _ _))
  have told : AgeInClock now attr.2 := timed.ages attr.2 (by
    rw [values_same attrs is_]
    exact mem_append_right _ mem_cons_self)
  have kept : (ckMaxAge asked now negative seconds).path = asked.path ∧
      (ckMaxAge asked now negative seconds).isSecure = asked.isSecure ∧
      (ckMaxAge asked now negative seconds).hasMaxAge = true := by
    unfold ckMaxAge
    split <;> exact ⟨rfl, rfl, rfl⟩
  refine ⟨?_, ?_, ?_, ?_⟩
  · rw [kept.1, pathOf, others (by decide)]
    exact said.path
  · rw [kept.2.1, askedSecure, others (by decide)]
    exact said.secure
  · rw [kept.2.2, ages]
    rfl
  rw [termOf, ages]
  exact ends_max_age asked known timed.early told split age_ read

theorem said_date (timed : Timed now (attrs ++ [attr])) (is_ : ckIs attr.1 "Expires" = true) :
    Said path now (attrs ++ [attr]) (if asked.hasMaxAge then asked else ckExpires asked now attr.2) := by
  have others {name : String} (differ : (ascii "Expires").map toLower ≠ (ascii name).map toLower) :
      valuesOf name (attrs ++ [attr]) = valuesOf name attrs := values_other attrs (is_only is_ differ)
  have known : 0 ≤ now := by
    rcases timed.clock with known | ⟨_, empty⟩
    · exact known
    rw [values_same attrs is_] at empty
    exact absurd empty (append_ne_nil_of_right_ne_nil _ (cons_ne_nil _ _))
  have kept : (ckExpires asked now attr.2).path = asked.path ∧ (ckExpires asked now attr.2).isSecure = asked.isSecure ∧
      (ckExpires asked now attr.2).hasMaxAge = asked.hasMaxAge := by
    unfold ckExpires
    split <;> exact ⟨rfl, rfl, rfl⟩
  have ages : valuesOf "Max-Age" (attrs ++ [attr]) = valuesOf "Max-Age" attrs := others (by decide)
  have path_ : asked.path = pathOf path (attrs ++ [attr]) := by
    rw [pathOf, others (by decide)]
    exact said.path
  have secure_ : asked.isSecure = askedSecure (attrs ++ [attr]) := by
    rw [askedSecure, others (by decide)]
    exact said.secure
  have aged_ : asked.hasMaxAge = ((valuesOf "Max-Age" (attrs ++ [attr])).filterMap ageOf).getLast?.isSome := by
    rw [ages]
    exact said.aged
  have term_ := said.term
  have same := said.aged
  rw [termOf] at term_
  cases aged : ((valuesOf "Max-Age" attrs).filterMap ageOf).getLast? with
  | some age =>
    -- There was a `Max-Age`, and the date does not count.
    rw [aged] at same term_
    rw [if_pos (by rw [same]; rfl)]
    refine ⟨path_, secure_, aged_, ?_⟩
    rw [termOf, ages, aged]
    exact term_
  | none =>
    rw [aged] at same term_
    rw [if_neg (by rw [same]; exact Bool.false_ne_true)]
    refine ⟨kept.1.trans path_, kept.2.1.trans secure_, kept.2.2.trans aged_, ?_⟩
    rw [termOf, ages, aged]
    dsimp only at term_ ⊢
    rw [values_same attrs is_, read_snoc]
    cases named : dateTerm now attr.2 with
    | none =>
      rw [date_ignored asked named]
      exact (append_nil _).symm ▸ term_
    | some term =>
      have last : ((valuesOf "Expires" attrs).filterMap (dateTerm now) ++ (some term).toList).getLast? = some term :=
        List.getLast?_concat
      rw [last]
      exact ends_date asked known named

theorem attr_said {host : List Byte} (timed : Timed now (attrs ++ [attr])) : match ckAttr host now asked attr with
    | .error e => e = .permission ∧ foreign host (attrs ++ [attr]) = true
    | .ok asked_ => foreign host (attrs ++ [attr]) = foreign host attrs ∧ Said path now (attrs ++ [attr]) asked_ := by
  have home (noDomain : ckIs attr.1 "Domain" = false) : foreign host (attrs ++ [attr]) = foreign host attrs := by
    rw [foreign, values_other attrs noDomain]
    rfl
  obtain ⟨an, av⟩ := attr
  unfold ckAttr
  dsimp only
  by_cases secure : ckIs an "Secure" = true
  · rw [if_pos secure]
    exact ⟨home (is_only secure (by decide)), said_secure said secure⟩
  rw [if_neg secure]
  by_cases path_ : ckIs an "Path" = true
  · rw [if_pos path_]
    exact ⟨home (is_only path_ (by decide)), said_path said path_⟩
  rw [if_neg path_]
  rw [Bool.not_eq_true] at secure path_
  by_cases domain : ckIs an "Domain" = true
  · rw [if_pos domain]
    have values := @values_same _ (an, av) attrs domain
    by_cases other : domainName av ≠ [] ∧ (!ckDomainCovers (domainName av) host) = true
    · rw [if_pos other]
      refine ⟨rfl, ?_⟩
      rw [foreign, values, any_append, any_cons, bne_iff_ne.mpr other.1, other.2]
      simp
    rw [if_neg other]
    refine ⟨?_, said_other said path_ secure (is_only domain (by decide)) (is_only domain (by decide))⟩
    have covered : (domainName av != [] && !ckDomainCovers (domainName av) host) = false := by
      by_contra both
      rw [Bool.not_eq_false, Bool.and_eq_true] at both
      exact other ⟨bne_iff_ne.mp both.1, both.2⟩
    rw [foreign, values, any_append, any_cons, covered]
    simp [foreign]
  rw [if_neg domain]
  rw [Bool.not_eq_true] at domain
  by_cases age : ckIs an "Max-Age" = true
  · rw [if_pos age]
    obtain ⟨negative, digits, split⟩ : ∃ negative digits, ageDigits av = (negative, digits) := ⟨_, _, rfl⟩
    have age_ : ageOf av = if digits = [] ∨ (!digits.all isDigit) = true then none
        else some (if negative then -(numberOf digits : Int) else numberOf digits) := by
      rw [ageOf, split]
    rw [split]
    dsimp only
    by_cases empty : digits = []
    · rw [if_pos empty]
      exact ⟨home domain, said_no_age said age (by rw [age_, if_pos (.inl empty)])⟩
    rw [if_neg empty]
    cases number : digits.all isDigit with
    | false =>
      rw [seconds_none number]
      exact ⟨home domain, said_no_age said age (by rw [age_, if_pos (.inr (by rw [number]; rfl))])⟩
    | true =>
      obtain ⟨n, _, read, _⟩ := seconds_read number 0
      rw [read]
      rw [if_neg (by rw [number]; simpa using empty)] at age_
      exact ⟨home domain, said_age said timed age split age_ read⟩
  rw [if_neg age]
  rw [Bool.not_eq_true] at age
  by_cases date : ckIs an "Expires" = true
  · have dated := said_date said timed date
    cases aged : asked.hasMaxAge with
    | true =>
      rw [aged] at dated
      rw [if_neg (by rw [date]; exact Bool.false_ne_true)]
      exact ⟨home domain, dated⟩
    | false =>
      rw [aged] at dated
      rw [if_pos (by rw [date]; rfl)]
      exact ⟨home domain, dated⟩
  rw [Bool.not_eq_true] at date
  rw [if_neg (by rw [date]; exact Bool.false_ne_true)]
  exact ⟨home domain, said_other said path_ secure age date⟩

end Attribute

theorem attrs_said {path host : List Byte} {now : Int} {attrs : List (List Byte × List Byte)} (timed : Timed now attrs) :
    match attrs.foldlM (ckAttr host now) (askedFirst path) with
    | .error e => e = .permission ∧ foreign host attrs = true
    | .ok asked => foreign host attrs = false ∧ Said path now attrs asked := by
  induction attrs using List.reverseRecOn with
  | nil => exact ⟨rfl, said_first path now⟩
  | append_singleton attrs attr ih =>
    have before := ih (timed_before timed)
    rw [foldlM_append]
    cases first : attrs.foldlM (ckAttr host now) (askedFirst path) with
    | error e =>
      rw [first] at before
      refine ⟨before.1, ?_⟩
      have some_ := before.2
      rw [foreign, any_eq_true] at some_ ⊢
      obtain ⟨av, member, other⟩ := some_
      refine ⟨av, ?_, other⟩
      rw [valuesOf, filter_append, map_append]
      exact mem_append_left _ member
    | ok asked =>
      rw [first] at before
      have one := @attr_said path now attrs asked attr before.2 host timed
      have step : [attr].foldlM (ckAttr host now) asked = ckAttr host now asked attr := by
        rw [foldlM_cons]
        cases ckAttr host now asked attr <;> rfl
      show match [attr].foldlM (ckAttr host now) asked with
        | .error e => e = .permission ∧ foreign host (attrs ++ [attr]) = true
        | .ok asked => foreign host (attrs ++ [attr]) = false ∧ Said path now (attrs ++ [attr]) asked
      rw [step]
      cases result : ckAttr host now asked attr with
      | error e =>
        rw [result] at one
        exact one
      | ok asked_ =>
        rw [result] at one
        exact ⟨one.1.trans before.1, one.2⟩

end ProvenC.Http.Asking
