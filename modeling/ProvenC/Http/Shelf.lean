import ProvenC.Http.Asking

/-!
# The jar is its shelf

Each call on the jar does to its cookies what it says on the shelf, whatever places they are in;
the header is written in the shelf's order.
-/

namespace ProvenC.Http.Shelf

open List Bytes Http.Head Http.Cookie Http.Jar Http.Asking
open Lib.Selecting Lib.Runs

def held (c : Cookie) : Held :=
  { name := ckName c, value := ckValue c, host := ckHost c, path := ckPath c, ends := endOf c.expires, secure := c.secure }

def InOrder (jar : CookieJar) (shelf : List Held) (cookies : List Cookie) : Prop :=
  cookies.Perm jar.entries ∧ cookies.Pairwise (fun a b => a.stamp < b.stamp) ∧
    (∀ c ∈ cookies, c.stamp ≤ jar.clock) ∧ cookies.map held = shelf

def Apart (a b : Held) : Prop := sameCookie a.name a.host a.path b = false

structure Shown (cap : Nat) (jar : CookieJar) (shelf : List Held) : Prop where
  size : jar.cap = cap
  few : jar.entries.length ≤ cap
  whole : ∀ c ∈ jar.entries, c.pathLen = (ckPath c).length
  one : shelf.Pairwise Apart
  order : ∃ cookies, InOrder jar shelf cookies

theorem shown_init (cap : Nat) : Shown cap (cookieJarInit cap) [] where
  size := rfl
  few := Nat.zero_le cap
  whole := fun _ member => absurd member not_mem_nil
  one := List.Pairwise.nil
  order := ⟨[], List.Perm.nil, List.Pairwise.nil, fun _ member => absurd member not_mem_nil, rfl⟩

variable {now : Int}

theorem held_gone (early : InClock now) (c : Cookie) : (held c).gone now = ckGone now c := by
  rw [InClock] at early
  unfold Held.gone ckGone held endOf endAt
  by_cases none_ : c.expires = 0
  · rw [none_]
    rfl
  by_cases within : c.expires < int64Max
  · rw [if_neg none_, if_pos within, bne_iff_ne.mpr none_, Bool.true_and]
    rfl
  rw [if_neg none_, if_neg within, decide_eq_false (by omega), Bool.and_false]
  rfl

theorem held_guards (early : InClock now) (name host path : List Byte) (c : Cookie) :
    ckShadows name host path now c = guards name host path now (held c) := by
  unfold ckShadows guards
  rw [held_gone early]
  rfl

theorem same_symm {a b : Held} (apart : Apart a b) : Apart b a := by
  unfold Apart sameCookie eqAsciiCi at *
  rw [Bool.and_eq_false_iff, Bool.and_eq_false_iff] at apart ⊢
  simp only [beq_eq_false_iff_ne] at apart ⊢
  rcases apart with (name | host) | path
  · exact .inl (.inl fun same => name same.symm)
  · exact .inl (.inr fun same => host same.symm)
  · exact .inr fun same => path same.symm

variable {name host path : List Byte}

theorem same_trans {a b : Held} (first : sameCookie name host path a = true)
    (second : sameCookie name host path b = true) : sameCookie a.name a.host a.path b = true := by
  unfold sameCookie eqAsciiCi at *
  simp only [Bool.and_eq_true, beq_iff_eq] at *
  exact ⟨⟨second.1.1.trans first.1.1.symm, second.1.2.trans first.1.2.symm⟩, second.2.trans first.2.symm⟩

theorem remove_perm {entries : List Cookie} {i : Nat} {c : Cookie} (here : entries[i]? = some c) :
    (c :: ckRemove entries i).Perm entries := by
  rcases eq_nil_or_concat' entries with rfl | ⟨front, last, rfl⟩
  · cases here
  unfold ckRemove
  rw [List.getLast?_concat]
  dsimp only
  by_cases inFront : i < front.length
  · rw [List.getElem?_append_left inFront, List.getElem?_eq_getElem inFront] at here
    cases here
    rw [set_append_left _ _ inFront, dropLast_concat]
    have swapped : (front[i] :: front.set i last).Perm (last :: front) :=
      ((set_perm_cons_eraseIdx inFront last).cons _).trans
        ((List.Perm.swap _ _ _).trans ((getElem_cons_eraseIdx_perm inFront).cons _))
    exact swapped.trans (perm_append_singleton last front).symm
  have atEnd : i = front.length := by
    have bound := (List.getElem?_eq_some_iff.mp here).1
    rw [length_append, length_singleton] at bound
    omega
  rw [atEnd, List.getElem?_concat_length] at here
  cases here
  rw [atEnd, set_append_right _ _ le_rfl, tsub_self]
  show (c :: (front ++ [c]).dropLast).Perm (front ++ [c])
  rw [dropLast_concat]
  exact (perm_append_singleton c front).symm

theorem remove_take {entries : List Cookie} {i : Nat} (place : i < entries.length) :
    (ckRemove entries i).take i = entries.take i := by
  rcases eq_nil_or_concat' entries with rfl | ⟨front, last, rfl⟩
  · exact absurd place (Nat.not_lt_zero i)
  rw [length_append, length_singleton] at place
  unfold ckRemove
  rw [List.getLast?_concat]
  dsimp only
  rw [dropLast_eq_take, take_take, length_set, length_append, length_singleton,
    Nat.add_sub_cancel, min_eq_left (Nat.le_of_lt_succ place)]
  exact take_set_of_le le_rfl

theorem expire_perm {now : Int} {rounds i : Nat} {entries : List Cookie} (enough : entries.length ≤ i + rounds)
    (fresh : ∀ c ∈ entries.take i, ckGone now c = false) :
    (ckExpire now rounds i entries).Perm (entries.filter fun c => !ckGone now c) := by
  have all (done : entries.length ≤ i) : entries.Perm (entries.filter fun c => !ckGone now c) := by
    rw [take_of_length_le done] at fresh
    rw [filter_eq_self.mpr fun c member => by rw [fresh c member]; rfl]
  induction rounds generalizing i entries with
  | zero => exact all enough
  | succ rounds ih =>
    rw [ckExpire]
    cases here : entries[i]? with
    | none => exact all (List.getElem?_eq_none_iff.mp here)
    | some c =>
      have place := (List.getElem?_eq_some_iff.mp here).1
      dsimp only
      by_cases gone : ckGone now c = true
      · rw [if_pos gone]
        have perm := remove_perm here
        have fewer := perm.length_eq
        rw [length_cons] at fewer
        have before := remove_take place
        have rest := @ih i (ckRemove entries i) (by omega) (by rw [before]; exact fresh) fun done => by
          rw [take_of_length_le done] at before
          rw [filter_eq_self.mpr fun c member => by
            rw [fresh c (before ▸ member)]
            rfl]
        have filtered := perm.filter fun c => !ckGone now c
        rw [filter_cons_of_neg (by rw [gone]; exact Bool.false_ne_true)] at filtered
        exact rest.trans filtered
      rw [if_neg gone]
      rw [Bool.not_eq_true] at gone
      have upto : ∀ c ∈ entries.take (i + 1), ckGone now c = false := by
        intro other member
        rw [take_add_one, here] at member
        rcases mem_append.mp member with old | new
        · exact fresh other old
        rw [mem_singleton.mp new]
        exact gone
      exact ih (by omega) upto fun done => by
        rw [take_of_length_le done] at upto
        rw [filter_eq_self.mpr fun c member => by rw [upto c member]; rfl]

theorem oldest_spec {all rest : List Cookie} {oldest least i : Nat} {held_ : Cookie} (here : all[oldest]? = some held_)
    (stamp : held_.stamp = least) (split : all.drop i = rest) (before : ∀ c ∈ all.take i, least ≤ c.stamp) :
    ∃ c, all[ckOldest oldest least i rest]? = some c ∧ ∀ other ∈ all, c.stamp ≤ other.stamp := by
  induction rest generalizing oldest least i held_ with
  | nil =>
    refine ⟨held_, here, fun other member => ?_⟩
    rw [take_of_length_le (drop_eq_nil_iff.mp split)] at before
    exact stamp ▸ before other member
  | cons c rest ih =>
    have next : all[i]? = some c := by
      have first := congrArg List.head? split
      rw [List.head?_drop] at first
      exact first
    have further : all.drop (i + 1) = rest := by
      rw [← drop_drop, split]
      rfl
    rw [ckOldest]
    have upto (bound : Nat) (low : bound ≤ least) (here_ : bound ≤ c.stamp) :
        ∀ other ∈ all.take (i + 1), bound ≤ other.stamp := by
      intro other member
      rw [take_add_one, next] at member
      rcases mem_append.mp member with old | new
      · exact low.trans (before other old)
      rw [mem_singleton.mp new]
      exact here_
    split
    next less =>
      exact ih next rfl further (upto _ less.le le_rfl)
    rename_i more
    exact ih here stamp further (upto _ le_rfl (le_of_not_gt more))

section Stored

variable {cap : Nat} {jar : CookieJar} {shelf : List Held} {cookies : List Cookie}

theorem others_perm (one : shelf.Pairwise Apart) (order : InOrder jar shelf cookies) (name host path : List Byte) :
    let same := jar.entries.findIdx (ckSame name host path)
    (cookies.filter fun c => !ckSame name host path c).Perm
        (if same < jar.entries.length then ckRemove jar.entries same else jar.entries) ∧
      (same < jar.entries.length →
        (cookies.filter fun c => !ckSame name host path c).length + 1 = jar.entries.length) := by
  intro same
  obtain ⟨perm, aged, _, shown⟩ := order
  by_cases found : same < jar.entries.length
  · rw [if_pos found]
    have is_ : ckSame name host path jar.entries[same] = true := findIdx_getElem
    have removed := remove_perm (List.getElem?_eq_getElem found)
    -- There is one such cookie only.
    have only : cookies.filter (ckSame name host path) = [jar.entries[same]] := by
      have member : jar.entries[same] ∈ cookies.filter (ckSame name host path) :=
        mem_filter.mpr ⟨perm.mem_iff.mpr (getElem_mem found), is_⟩
      have apart : (cookies.filter (ckSame name host path)).Pairwise fun a b => Apart (held a) (held b) := by
        rw [← shown, pairwise_map] at one
        exact one.sublist filter_sublist
      cases rest : cookies.filter (ckSame name host path) with
      | nil =>
        rw [rest] at member
        exact absurd member not_mem_nil
      | cons a others =>
        rw [rest] at member apart
        cases others with
        | nil =>
          rw [mem_singleton.mp member]
        | cons b others =>
          have each : ∀ c ∈ a :: b :: others, ckSame name host path c = true := by
            intro c inside
            rw [← rest] at inside
            exact (mem_filter.mp inside).2
          have first := each a mem_cons_self
          have second := each b (mem_cons_of_mem _ mem_cons_self)
          have differ := rel_of_pairwise_cons apart mem_cons_self
          rw [Apart, same_trans (a := held a) (b := held b) first second] at differ
          cases differ
    have parts := filter_append_perm (ckSame name host path) cookies
    rw [only] at parts
    have perm_ := (parts.trans perm).trans removed.symm
    refine ⟨List.Perm.cons_inv perm_, fun _ => ?_⟩
    have lengths := (parts.trans perm).length_eq
    rw [length_append, length_singleton] at lengths
    omega
  rw [if_neg found]
  refine ⟨?_, fun less => absurd less found⟩
  rw [filter_eq_self.mpr]
  · exact perm
  intro c member
  have none_ := findIdx_eq_length.mp (le_antisymm findIdx_le_length (le_of_not_gt found)) c
    (perm.mem_iff.mp member)
  rw [none_]
  rfl

theorem evicted_perm (order : InOrder jar shelf cookies) {c : Cookie} {rest : List Cookie} (some_ : jar.entries = c :: rest) :
    cookies.tail.Perm (ckRemove jar.entries (ckOldest 0 c.stamp 1 rest)) := by
  obtain ⟨perm, aged, _, _⟩ := order
  obtain ⟨oldest, here, least⟩ := @oldest_spec jar.entries rest 0 c.stamp 1 c (by rw [some_]; rfl) rfl (by rw [some_]; rfl)
    (by
      rw [some_]
      intro other member
      rw [mem_singleton.mp member])
  have removed := remove_perm here
  have member : oldest ∈ cookies := perm.mem_iff.mpr (removed.subset mem_cons_self)
  cases cookies with
  | nil => exact absurd member not_mem_nil
  | cons first others =>
    have isFirst : first = oldest := by
      rcases mem_cons.mp member with same | later
      · exact same.symm
      have older := rel_of_pairwise_cons aged later
      exact absurd (least first (perm.subset mem_cons_self)) (not_le.mpr older)
    subst isFirst
    exact List.Perm.cons_inv (perm.trans removed.symm)

theorem shown_fewer (shown : Shown cap jar shelf) (order : InOrder jar shelf cookies) (test : Cookie → Bool)
    (test_ : Held → Bool) (same : ∀ c, test_ (held c) = test c) {entries : List Cookie}
    (perm : (cookies.filter test).Perm entries) : Shown cap { jar with entries := entries } (shelf.filter test_) := by
  obtain ⟨perm_, aged, clock, shown_⟩ := order
  have inside : ∀ c ∈ entries, c ∈ jar.entries := fun c member =>
    perm_.subset (filter_sublist.subset (perm.mem_iff.mpr member))
  refine ⟨shown.size, ?_, fun c member => shown.whole c (inside c member), shown.one.sublist filter_sublist,
    cookies.filter test, perm, aged.sublist filter_sublist,
    fun c member => clock c (filter_sublist.subset member), ?_⟩
  · show entries.length ≤ cap
    rw [← perm.length_eq]
    exact (length_filter_le _ _).trans (perm_.length_eq ▸ shown.few)
  rw [← shown_, filter_map]
  exact congrArg (List.map held) (filter_congr fun c _ => (same c).symm)

theorem shown_appended (shown : Shown cap jar shelf) (order : InOrder jar shelf cookies) {kept : List Cookie}
    {entries : List Cookie} {slot : Cookie} (fewer : kept.Sublist cookies) (perm : kept.Perm entries)
    (room : entries.length < cap) (whole : slot.pathLen = (ckPath slot).length) (stamp : slot.stamp = jar.clock + 1)
    (other : ∀ c ∈ kept, Apart (held c) (held slot)) :
    Shown cap { jar with entries := entries ++ [slot], clock := slot.stamp } (kept.map held ++ [held slot]) := by
  obtain ⟨perm_, aged, clock, shown_⟩ := order
  refine ⟨shown.size, ?_, ?_, ?_, kept ++ [slot], perm.append_right [slot], ?_, ?_, ?_⟩
  · show (entries ++ [slot]).length ≤ cap
    rw [length_append, length_singleton]
    exact room
  · intro c member
    rcases mem_append.mp member with old | new
    · exact shown.whole c (perm_.subset (fewer.subset (perm.mem_iff.mpr old)))
    rw [mem_singleton.mp new]
    exact whole
  · rw [pairwise_append]
    refine ⟨?_, pairwise_singleton _ _, ?_⟩
    · have one := shown.one
      rw [← shown_] at one
      exact one.sublist (fewer.map held)
    intro a old b new
    obtain ⟨c, member, rfl⟩ := mem_map.mp old
    rw [mem_singleton.mp new]
    exact other c member
  · rw [pairwise_append]
    refine ⟨aged.sublist fewer, pairwise_singleton _ _, ?_⟩
    intro a old b new
    rw [mem_singleton.mp new, stamp]
    exact Nat.lt_succ_of_le (clock a (fewer.subset old))
  · intro c member
    show c.stamp ≤ slot.stamp
    rcases mem_append.mp member with old | new
    · rw [stamp]
      exact (clock c (fewer.subset old)).trans (Nat.le_succ _)
    · rw [mem_singleton.mp new]
  rw [map_append]
  rfl

theorem insert_shown (positive : 0 < cap) (shown : Shown cap jar shelf) {slot : Cookie}
    (whole : slot.pathLen = (ckPath slot).length) (stamp : slot.stamp = jar.clock + 1) :
    Shown cap (ckInsert jar (jar.entries.findIdx (ckSame (held slot).name (held slot).host (held slot).path)) slot)
      (shelved cap shelf (held slot)) := by
  obtain ⟨cookies, order⟩ := shown.order
  have perm := order.1
  have others_ := others_perm shown.one order (held slot).name (held slot).host (held slot).path
  have lengths := perm.length_eq
  have shelfOthers : (shelf.filter fun h => !sameCookie (held slot).name (held slot).host (held slot).path h) =
      (cookies.filter fun c => !ckSame (held slot).name (held slot).host (held slot).path c).map held := by
    rw [← order.2.2.2, filter_map]
    rfl
  have fewer : (cookies.filter fun c => !ckSame (held slot).name (held slot).host (held slot).path c).Sublist cookies :=
    filter_sublist
  have apart : ∀ c ∈ cookies.filter fun c => !ckSame (held slot).name (held slot).host (held slot).path c,
      Apart (held c) (held slot) := by
    intro c member
    have other := (mem_filter.mp member).2
    rw [Bool.not_eq_true'] at other
    exact same_symm other
  unfold shelved ckInsert
  dsimp only
  rw [shelfOthers, length_map]
  generalize jar.entries.findIdx (ckSame (held slot).name (held slot).host (held slot).path) = same at others_
  generalize (cookies.filter fun c => !ckSame (held slot).name (held slot).host (held slot).path c) = kept at *
  obtain ⟨keptPerm, less⟩ := others_
  have most := shown.few
  by_cases found : same < jar.entries.length
  · have one := less found
    rw [if_pos found] at keptPerm ⊢
    rw [if_neg (by omega)]
    exact shown_appended shown order fewer keptPerm (by rw [← keptPerm.length_eq]; omega) whole stamp apart
  rw [if_neg found] at keptPerm ⊢
  have same_ := keptPerm.length_eq
  by_cases full : jar.entries.length = cap
  · rw [if_pos (by rw [shown.size]; exact full), if_pos (same_.trans full)]
    cases some_ : jar.entries with
    | nil =>
      rw [some_] at full
      exact absurd full (ne_of_lt positive)
    | cons c rest =>
      have order_ : InOrder jar (kept.map held) kept :=
        ⟨keptPerm, order.2.1.sublist fewer, fun c member => order.2.2.1 c (fewer.subset member), rfl⟩
      have evicted := evicted_perm order_ some_
      rw [some_] at evicted
      rw [← map_tail]
      refine shown_appended shown order ((tail_sublist kept).trans fewer) evicted ?_ whole stamp
        fun c member => apart c (mem_of_mem_tail member)
      rw [← evicted.length_eq, length_tail]
      omega
  rw [if_neg (by rw [shown.size]; exact full), if_neg (by omega)]
  exact shown_appended shown order fewer keptPerm (by omega) whole stamp apart

theorem removed_shown (shown : Shown cap jar shelf) (name host path : List Byte) : Shown cap
      (if jar.entries.findIdx (ckSame name host path) < jar.entries.length then
        { jar with entries := ckRemove jar.entries (jar.entries.findIdx (ckSame name host path)) } else jar)
      (shelf.filter fun h => !sameCookie name host path h) := by
  obtain ⟨cookies, order⟩ := shown.order
  obtain ⟨perm, _⟩ := others_perm shown.one order name host path
  have all : (if jar.entries.findIdx (ckSame name host path) < jar.entries.length then
        { jar with entries := ckRemove jar.entries (jar.entries.findIdx (ckSame name host path)) } else jar) =
      { jar with entries :=
          if jar.entries.findIdx (ckSame name host path) < jar.entries.length
          then ckRemove jar.entries (jar.entries.findIdx (ckSame name host path)) else jar.entries } := by
    split <;> rfl
  rw [all]
  exact shown_fewer shown order (fun c => !ckSame name host path c) (fun h => !sameCookie name host path h)
    (fun _ => rfl) perm

end Stored

theorem to_lower_again (b : Byte) : toLower (toLower b) = toLower b := by
  unfold toLower
  split
  next upper =>
    have low : (byteOf (b.val + 32)).val = b.val + 32 := by
      rw [byte_of_val]
      rw [Bool.and_eq_true, decide_eq_true_eq, decide_eq_true_eq] at upper
      omega
    rw [Bool.and_eq_true, decide_eq_true_eq, decide_eq_true_eq] at upper
    rw [if_neg]
    rw [low, Bool.and_eq_true, decide_eq_true_eq, decide_eq_true_eq]
    omega
  · rfl

theorem lower_again (host : List Byte) : (host.map toLower).map toLower = host.map toLower := by
  rw [map_map]
  exact map_congr_left fun b _ => to_lower_again b

theorem same_lower (name host path : List Byte) : sameCookie name (host.map toLower) path = sameCookie name host path := by
  funext h
  unfold sameCookie eqAsciiCi
  rw [lower_again]

variable {setCookie : List Byte} {attrs : List (List Byte × List Byte)}

theorem pair_small {value : List Byte}
    (pair : ckPair setCookie = .ok (name, value, attrs)) : name.length + value.length ≤ cookieMaxSize := by
  unfold ckPair at pair
  split at pair
  · cases pair
  split at pair
  · cases pair
  split at pair
  · cases pair
  split at pair
  · cases pair
  split at pair
  · cases pair
  rename_i small
  cases pair
  exact le_of_not_gt small

theorem held_slot {name value host path : List Byte} {expires : Int} {secure : Bool} {clock : Nat}
    (small : name.length + value.length ≤ cookieMaxSize) (host_ : host.length < 2 ^ 32) (path_ : path.length < 2 ^ 32) :
    held (ckSlot name value host path expires secure clock) =
        { name := name, value := value, host := host.map toLower, path := path, ends := endOf expires, secure := secure } ∧
      (ckSlot name value host path expires secure clock).pathLen =
        (ckPath (ckSlot name value host path expires secure clock)).length := by
  have bound : cookieMaxSize = 4096 := rfl
  have nameLen : name.length % 2 ^ 32 = name.length := Nat.mod_eq_of_lt (by omega)
  have valueLen : value.length % 2 ^ 32 = value.length := Nat.mod_eq_of_lt (by omega)
  have hostLen : host.length % 2 ^ 32 = (host.map toLower).length := by
    rw [length_map]
    exact Nat.mod_eq_of_lt host_
  have pathLen : path.length % 2 ^ 32 = path.length := Nat.mod_eq_of_lt path_
  unfold held ckSlot ckName ckValue ckHost ckPath
  rw [nameLen, valueLen, hostLen, pathLen]
  have text : name ++ value ++ host.map toLower ++ path = name ++ (value ++ (host.map toLower ++ path)) := by
    simp only [append_assoc]
  have afterName : (name ++ (value ++ (host.map toLower ++ path))).drop name.length = value ++ (host.map toLower ++ path) :=
    drop_left
  have afterValue : (name ++ (value ++ (host.map toLower ++ path))).drop (name.length + value.length) =
      host.map toLower ++ path := by
    rw [← drop_drop, afterName, drop_left]
  have afterHost : (name ++ (value ++ (host.map toLower ++ path))).drop
      (name.length + value.length + (host.map toLower).length) = path := by
    rw [← drop_drop, afterValue, drop_left]
  rw [text, afterName, afterValue, afterHost, take_left, take_left, take_left, take_length]
  exact ⟨rfl, rfl⟩

structure Storable (jar : CookieJar) (host path setCookie : List Byte) (now : Int) : Prop where
  clock : jar.clock + 1 < 2 ^ 64
  host : host.length < 2 ^ 32
  asked : ∀ name value attrs, ckPair setCookie = .ok (name, value, attrs) →
    (pathOf path attrs).length < 2 ^ 32 ∧ Timed now attrs

theorem store_shown {cap : Nat} {jar : CookieJar} {shelf : List Held} (positive : 0 < cap) (shown : Shown cap jar shelf) (storable : Storable jar host path setCookie now) (secure allocates : Bool) :
    (cookieJarStore jar host path secure setCookie now allocates).2 =
        (shelfStore cap shelf host path secure setCookie now allocates).2 ∧
      Shown cap (cookieJarStore jar host path secure setCookie now allocates).1
        (shelfStore cap shelf host path secure setCookie now allocates).1 := by
  unfold cookieJarStore shelfStore
  by_cases empty : host = []
  · rw [if_pos empty, if_pos empty]
    exact ⟨rfl, shown⟩
  rw [if_neg empty, if_neg empty]
  cases pair : ckPair setCookie with
  | error e => exact ⟨rfl, shown⟩
  | ok parts =>
    obtain ⟨name, value, attrs⟩ := parts
    obtain ⟨pathSize, timed⟩ := storable.asked name value attrs pair
    dsimp only
    have said := @attrs_said path host now attrs timed
    cases read : attrs.foldlM (ckAttr host now) (askedFirst path) with
    | error e =>
      rw [read] at said
      rw [said.2, said.1]
      exact ⟨rfl, shown⟩
    | ok asked =>
      rw [read] at said
      obtain ⟨home, said⟩ := said
      dsimp only
      rw [home, said.secure, said.path, Bool.false_or]
      by_cases refused : (askedSecure attrs && !secure) = true
      · rw [if_pos refused, if_pos refused]
        exact ⟨rfl, shown⟩
      rw [if_neg refused, if_neg refused]
      have guarded : jar.entries.any (ckShadows name host (pathOf path attrs) now) =
          shelf.any (guards name host (pathOf path attrs) now) := by
        obtain ⟨cookies, perm, _, _, shown_⟩ := shown.order
        rw [← shown_, any_map, ← perm.any_eq]
        exact congrArg cookies.any (funext fun c => held_guards timed.early name host _ c)
      rw [guarded]
      by_cases stands : (!secure && shelf.any (guards name host (pathOf path attrs) now)) = true
      · rw [if_pos stands, if_pos stands]
        exact ⟨rfl, shown⟩
      rw [if_neg stands, if_neg stands]
      have term := said.term
      cases which : termOf now attrs with
      | over_ =>
        rw [which] at term
        have over_ : asked.expired = true := term
        rw [if_pos over_]
        exact ⟨rfl, removed_shown shown name host (pathOf path attrs)⟩
      | until_ ends =>
        rw [which] at term
        rw [if_neg (by rw [term.1]; exact Bool.false_ne_true)]
        cases allocates with
        | false => exact ⟨rfl, shown⟩
        | true =>
          refine ⟨rfl, ?_⟩
          have slot := @held_slot name value host (pathOf path attrs) asked.expires (askedSecure attrs)
            jar.clock (pair_small pair) storable.host pathSize
          have inserted := insert_shown positive shown slot.2
            (Nat.mod_eq_of_lt storable.clock)
          rw [slot.1, term.2] at inserted
          have sameSlot : ckSame name (host.map toLower) (pathOf path attrs) =
              ckSame name host (pathOf path attrs) := by
            funext c
            exact congrFun (same_lower name host (pathOf path attrs)) (held c)
          dsimp only at inserted
          rw [sameSlot] at inserted
          exact inserted

theorem before_iff (a b : Cookie) :
    ckBefore a b = true ↔ Ranked (fun c : Cookie => c.pathLen) (fun a b => a.stamp < b.stamp) a b := by
  unfold ckBefore Ranked
  rw [Bool.or_eq_true, Bool.and_eq_true, decide_eq_true_eq, decide_eq_true_eq, beq_iff_eq]

theorem before_orders {entries cookies : List Cookie} (perm : cookies.Perm entries)
    (aged : cookies.Pairwise fun a b => a.stamp < b.stamp) : Orders ckBefore entries where
  irrefl := fun c => by
    rw [← Bool.not_eq_true, before_iff, Ranked]
    omega
  trans := fun first second third sooner later => by
    rw [before_iff, Ranked] at *
    omega
  apart := by
    intro first inside second inside_ differ
    have apart : first.stamp ≠ second.stamp := by
      have total : cookies.Pairwise fun a b => a.stamp ≠ b.stamp := aged.imp fun less => ne_of_lt less
      have symmetric : Std.Symm fun a b : Cookie => a.stamp ≠ b.stamp := ⟨fun _ _ ne => ne.symm⟩
      exact total.forall (perm.mem_iff.mpr inside) (perm.mem_iff.mpr inside_) differ
    rw [before_iff, before_iff, Ranked, Ranked]
    omega

def following (out : List Byte) (cookies : List Cookie) : List Byte :=
  cookies.foldl (fun out c => out ++ (if 0 < out.length then ascii "; " else []) ++ ckWritten c) out

theorem following_length_le (out : List Byte) (cookies : List Cookie) : out.length ≤ (following out cookies).length := by
  induction cookies generalizing out with
  | nil => exact le_rfl
  | cons c cookies ih =>
    refine le_trans ?_ (ih _)
    rw [length_append, length_append]
    omega

theorem write_following {entries : List Cookie} {secure : Bool} {room rounds : Nat}
    {last : Option Cookie} {out : List Byte} (fits : out.length ≤ room) :
    ckWrite entries host path secure room rounds last out =
      let text := following out (takeAll ckBefore (ckWanted host path secure) entries rounds last)
      if text.length ≤ room then .ok text else .error .outOfBounds := by
  induction rounds generalizing last out with
  | zero =>
    dsimp only
    rw [takeAll]
    exact (if_pos fits).symm
  | succ rounds ih =>
    rw [ckWrite, takeAll]
    cases firstOf ckBefore (fun c => ckWanted host path secure c && after ckBefore last c) none entries with
    | none => exact (if_pos fits).symm
    | some c =>
      dsimp only
      have written : (out ++ (if 0 < out.length then ascii "; " else []) ++ ckWritten c).length =
          out.length + ((ckName c).length + 1 + (ckValue c).length + if 0 < out.length then 2 else 0) := by
        rw [length_append, length_append, ckWritten, length_append, length_append]
        have sign : (ascii "=").length = 1 := rfl
        have between : (ascii "; ").length = 2 := rfl
        split
        · rw [between, sign]
          omega
        rw [length_nil, sign]
        omega
      have onward : following out (c :: takeAll ckBefore (ckWanted host path secure) entries rounds (some c)) =
          following (out ++ (if 0 < out.length then ascii "; " else []) ++ ckWritten c)
            (takeAll ckBefore (ckWanted host path secure) entries rounds (some c)) := rfl
      by_cases tight : room - out.length < (ckName c).length + 1 + (ckValue c).length + if 0 < out.length then 2 else 0
      · rw [if_pos tight, if_neg]
        rw [onward]
        have more := following_length_le (out ++ (if 0 < out.length then ascii "; " else []) ++ ckWritten c)
          (takeAll ckBefore (ckWanted host path secure) entries rounds (some c))
        omega
      · rw [if_neg tight, ih (by omega), onward]

theorem following_more {out : List Byte} (some_ : 0 < out.length) (cookies : List Cookie) :
    following out cookies = out ++ (cookies.map fun c => ascii "; " ++ ckWritten c).flatten := by
  induction cookies generalizing out with
  | nil => exact (append_nil out).symm
  | cons c cookies ih =>
    show following (out ++ (if 0 < out.length then ascii "; " else []) ++ ckWritten c) cookies = _
    rw [if_pos some_, ih (by rw [length_append, length_append]; omega)]
    rw [map_cons, flatten_cons, append_assoc, append_assoc, append_assoc]

theorem intercalate_cons (between first : List Byte) (rest : List (List Byte)) :
    between.intercalate (first :: rest) = first ++ (rest.map (between ++ ·)).flatten := by
  induction rest generalizing first with
  | nil => simp [List.intercalate]
  | cons second rest ih =>
    have step : between.intercalate (first :: second :: rest) = first ++ (between ++ between.intercalate (second :: rest)) := by
      simp [List.intercalate, List.intersperse]
    rw [step, ih, map_cons, flatten_cons, append_assoc]

theorem following_first (cookies : List Cookie) : following [] cookies = headerText (cookies.map held) := by
  cases cookies with
  | nil => rfl
  | cons c cookies =>
    show following ([] ++ (if 0 < ([] : List Byte).length then ascii "; " else []) ++ ckWritten c) cookies = _
    have written : 0 < (ckWritten c).length := by
      rw [ckWritten, length_append, length_append]
      have sign : (ascii "=").length = 1 := rfl
      omega
    have start : ([] ++ (if 0 < ([] : List Byte).length then ascii "; " else [])) ++ ckWritten c = ckWritten c := rfl
    rw [start, following_more written, headerText, map_cons, map_cons, intercalate_cons, map_map, map_map]
    rfl

theorem taken_listed {cap : Nat} {jar : CookieJar} {shelf : List Held} (shown : Shown cap jar shelf)
    (early : InClock now) (fresh : ∀ c ∈ jar.entries, ckGone now c = false) (host path : List Byte) (secure : Bool) :
    (takeAll ckBefore (ckWanted host path secure) jar.entries (jar.entries.length + 1) none).map held =
      listed shelf host path secure now := by
  obtain ⟨cookies, perm, aged, _, shown_⟩ := shown.order
  have sorted := @insertion_sort_ranked _ (fun c : Cookie => c.pathLen) (fun a b => a.stamp < b.stamp)
    (cookies.filter (ckWanted host path secure)) (aged.sublist filter_sublist)
  have same := (perm_insertionSort (fun a b : Cookie => b.pathLen ≤ a.pathLen)
    (cookies.filter (ckWanted host path secure))).trans (perm.filter (ckWanted host path secure))
  have enough : ((cookies.filter (ckWanted host path secure)).insertionSort fun a b => b.pathLen ≤ a.pathLen).length <
      jar.entries.length + 1 := by
    rw [same.length_eq]
    exact Nat.lt_succ_of_le (length_filter_le _ _)
  rw [take_all_sorted (before_orders perm aged) (sorted.imp fun {a b} ranked => (before_iff a b).mpr ranked) same enough]
  have wanted : (shelf.filter fun h =>
        !h.gone now && eqAsciiCi h.host host && ckPathCovers h.path path && !(h.secure && !secure)) =
      (cookies.filter (ckWanted host path secure)).map held := by
    rw [← shown_, filter_map]
    apply congrArg
    apply filter_congr
    intro c member
    show (!(held c).gone now && eqAsciiCi (ckHost c) host && ckPathCovers (ckPath c) path && !(c.secure && !secure)) = _
    rw [held_gone early, fresh c (perm.subset member)]
    rfl
  rw [listed, wanted]
  apply map_insertionSort
  intro a inA b inB
  show b.pathLen ≤ a.pathLen ↔ (ckPath b).length ≤ (ckPath a).length
  rw [shown.whole a (perm.subset (filter_sublist.subset inA)), shown.whole b (perm.subset (filter_sublist.subset inB))]

theorem header_shown {cap : Nat} {jar : CookieJar} {shelf : List Held} (shown : Shown cap jar shelf)
    (early : InClock now) (host path : List Byte) (secure : Bool) (room : Nat) :
    (cookieJarHeader jar host path secure now room).2 = (if (headerText (listed shelf host path secure now)).length ≤ room
          then .ok (headerText (listed shelf host path secure now)) else .error .outOfBounds) ∧
      Shown cap (cookieJarHeader jar host path secure now room).1 (shelf.filter fun h => !h.gone now) := by
  obtain ⟨cookies, order⟩ := shown.order
  have expired := @expire_perm now jar.entries.length 0 jar.entries (by omega)
    (fun c member => absurd member not_mem_nil)
  have left := shown_fewer shown order (fun c => !ckGone now c) (fun h => !h.gone now)
    (fun c => by rw [held_gone early]) ((order.1.filter _).trans expired.symm)
  have fresh : ∀ c ∈ ckExpire now jar.entries.length 0 jar.entries, ckGone now c = false := by
    intro c member
    have live := (mem_filter.mp (expired.subset member)).2
    rw [Bool.not_eq_true'] at live
    exact live
  refine ⟨?_, left⟩
  have listed_ : listed (shelf.filter fun h => !h.gone now) host path secure now = listed shelf host path secure now := by
    rw [listed, filter_filter]
    apply congrArg
    apply filter_congr
    intro h _
    cases h.gone now <;> simp
  unfold cookieJarHeader
  dsimp only
  rw [write_following (Nat.zero_le room)]
  dsimp only
  rw [following_first, taken_listed left early fresh, listed_]

inductive Call where
  | store (host path : List Byte) (secure : Bool) (setCookie : List Byte) (now : Int) (allocates : Bool)
  | header (host path : List Byte) (secure : Bool) (now : Int) (room : Nat)

def jarNext (jar : CookieJar) : Call → CookieJar
  | .store host path secure setCookie now allocates => (cookieJarStore jar host path secure setCookie now allocates).1
  | .header host path secure now room => (cookieJarHeader jar host path secure now room).1

def shelfNext (cap : Nat) (shelf : List Held) : Call → List Held
  | .store host path secure setCookie now allocates => (shelfStore cap shelf host path secure setCookie now allocates).1
  | .header _ _ _ now _ => shelf.filter fun h => !h.gone now

def Told (jar : CookieJar) : Call → Prop
  | .store host path _ setCookie now _ => Storable jar host path setCookie now
  | .header _ _ _ now _ => InClock now

theorem next_shown {cap : Nat} {jar : CookieJar} {shelf : List Held} (positive : 0 < cap) (shown : Shown cap jar shelf)
    {call : Call} (told : Told jar call) : Shown cap (jarNext jar call) (shelfNext cap shelf call) := by
  cases call with
  | store host path secure setCookie now allocates => exact (store_shown positive shown told secure allocates).2
  | header host path secure now room => exact (header_shown shown told host path secure room).2

theorem run_shown {cap : Nat} {jar : CookieJar} {shelf : List Held} (positive : 0 < cap) (shown : Shown cap jar shelf)
    {calls : List Call} (told : Along jarNext Told jar calls) :
    Shown cap (run jarNext jar calls) (run (shelfNext cap) shelf calls) := by
  induction calls generalizing jar shelf with
  | nil => exact shown
  | cons call calls ih => exact ih (next_shown positive shown told.1) told.2

theorem store_failed {jar : CookieJar} {secure allocates : Bool}
    {e : ProvenErr} (failed : (cookieJarStore jar host path secure setCookie now allocates).2 = .error e) :
    (cookieJarStore jar host path secure setCookie now allocates).1 = jar := by
  unfold cookieJarStore at failed ⊢
  split
  · rfl
  rename_i some_
  rw [if_neg some_] at failed
  cases pair : ckPair setCookie with
  | error e => rfl
  | ok parts =>
    obtain ⟨name, value, attrs⟩ := parts
    rw [pair] at failed
    dsimp only at failed ⊢
    cases read : attrs.foldlM (ckAttr host now) (askedFirst path) with
    | error e => rfl
    | ok asked =>
      rw [read] at failed
      dsimp only at failed ⊢
      split
      · rfl
      rename_i allowed
      rw [if_neg allowed] at failed
      split
      · rfl
      rename_i free
      rw [if_neg free] at failed
      split
      next over_ =>
        rw [if_pos over_] at failed
        cases failed
      rename_i live
      rw [if_neg live] at failed
      split
      · rfl
      rename_i memory
      rw [if_neg memory] at failed
      cases failed

theorem store_guarded {cap : Nat} {jar : CookieJar} {shelf : List Held} (positive : 0 < cap) (shown : Shown cap jar shelf)
    {value : List Byte}
    (storable : Storable jar host path setCookie now) (pair : ckPair setCookie = .ok (name, value, attrs)) {h : Held}
    (member : h ∈ shelf) (stands : guards name host (pathOf path attrs) now h = true) (allocates : Bool) :
    (cookieJarStore jar host path false setCookie now allocates).1 = jar := by
  have refused : ∃ e, (shelfStore cap shelf host path false setCookie now allocates).2 = .error e := by
    have any_ : shelf.any (guards name host (pathOf path attrs) now) = true := any_eq_true.mpr ⟨h, member, stands⟩
    unfold shelfStore
    split
    · exact ⟨_, rfl⟩
    rw [pair]
    dsimp only
    rw [any_]
    split
    all_goals exact ⟨_, rfl⟩
  obtain ⟨e, error⟩ := refused
  exact store_failed ((store_shown positive shown storable false allocates).1.trans error)

structure Lawful (cap : Nat) (jar : CookieJar) (shelf : List Held) : Prop where
  few : jar.entries.length ≤ cap
  held : (jar.entries.map held).Perm shelf
  one : (jar.entries.map Shelf.held).Pairwise Apart
  header : ∀ (host path : List Byte) (secure : Bool) (now : Int) (room : Nat), InClock now →
    (cookieJarHeader jar host path secure now room).2 =
      if (headerText (listed shelf host path secure now)).length ≤ room
      then .ok (headerText (listed shelf host path secure now)) else .error .outOfBounds
  failed : ∀ (host path : List Byte) (secure : Bool) (setCookie : List Byte) (now : Int) (allocates : Bool) (e : ProvenErr),
    (cookieJarStore jar host path secure setCookie now allocates).2 = .error e →
      (cookieJarStore jar host path secure setCookie now allocates).1 = jar
  guarded : ∀ (host path setCookie name value : List Byte) (attrs : List (List Byte × List Byte)) (now : Int)
    (allocates : Bool), Storable jar host path setCookie now → ckPair setCookie = .ok (name, value, attrs) →
      (∃ h ∈ shelf, guards name host (pathOf path attrs) now h = true) →
        (cookieJarStore jar host path false setCookie now allocates).1 = jar

/-- After any stores and headers whose sizes and times can be told, the jar holds what it should, and
gives what it should. -/
theorem cookie_jar_lawful {cap : Nat} (positive : 0 < cap) {calls : List Call}
    (told : Along jarNext Told (cookieJarInit cap) calls) :
    Lawful cap (run jarNext (cookieJarInit cap) calls) (run (shelfNext cap) [] calls) := by
  have shown := run_shown positive (shown_init cap) told
  generalize run jarNext (cookieJarInit cap) calls = jar at shown
  generalize run (shelfNext cap) [] calls = shelf at shown
  have all : (jar.entries.map held).Perm shelf := by
    obtain ⟨cookies, perm, _, _, shown_⟩ := shown.order
    rw [← shown_]
    exact (perm.map held).symm
  refine ⟨shown.few, all, ?_, ?_, ?_, ?_⟩
  · exact (all.pairwise_iff fun apart => same_symm apart).mpr shown.one
  · intro host path secure now room early
    exact (header_shown shown early host path secure room).1
  · intro host path secure setCookie now allocates e failed
    exact store_failed failed
  intro host path setCookie name value attrs now allocates storable pair ⟨h, member, stands⟩
  exact store_guarded positive shown storable pair member stands allocates

theorem cookie_jar_lawful_a_minute : let calls : List Call :=
      [.store (ascii "h") (ascii "/x/y") true (ascii "a=b; Max-Age=60; Secure") 5 true,
       .header (ascii "H") (ascii "/x") true 6 100]
    Lawful 1 (run jarNext (cookieJarInit 1) calls) (run (shelfNext 1) [] calls) := by
  intro calls
  apply cookie_jar_lawful (by decide)
  refine ⟨⟨by decide, by decide, ?_⟩, show (6 : Int) < int64Max by decide, True.intro⟩
  intro name value attrs pair
  have read : ckPair (ascii "a=b; Max-Age=60; Secure") =
      .ok (ascii "a", ascii "b", [(ascii "Max-Age", ascii "60"), (ascii "Secure", [])]) := by decide +kernel
  rw [read] at pair
  cases pair
  refine ⟨by decide +kernel, show (5 : Int) < int64Max by decide, .inl (by decide), ?_⟩
  intro av member
  have ages : valuesOf "Max-Age" [(ascii "Max-Age", ascii "60"), (ascii "Secure", [])] = [ascii "60"] := by decide +kernel
  rw [ages, mem_singleton] at member
  subst member
  intro digits split _
  have all : digits = ascii "60" := (congrArg Prod.snd split).symm
  subst all
  refine ⟨?_, .inl (by decide +kernel)⟩
  have none_ : ∀ n < (ascii "60").length, ¬4000000000 ≤ numberOf ((ascii "60").take n) := by decide +kernel
  exact fun n place far => absurd far (none_ n place)

/-- An age past the end of the clock, read as one within it. -/
theorem cookie_jar_forgets_an_endless_cookie : ¬∀ (cap : Nat) (calls : List Call), 0 < cap →
      Lawful cap (run jarNext (cookieJarInit cap) calls) (run (shelfNext cap) [] calls) := by
  intro all
  have lawful := all 1 [.store (ascii "h") (ascii "/") false (ascii "a=b; Max-Age=40000000000") 0 true] (by decide)
  have written := lawful.header (ascii "h") (ascii "/") false 5000000000000000000 100
    (show (5000000000000000000 : Int) < int64Max by decide)
  revert written
  decide +kernel

end ProvenC.Http.Shelf
