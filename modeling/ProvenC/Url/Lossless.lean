import ProvenC.Url.Parsing

/-!
# URLs taken apart and put together

The parser takes exactly the texts of valid components, and each of them is the text of one list of
components only.
-/

namespace ProvenC.Url.Lossless

open List Bytes Url.Path Url.Splitting Url.Components Url.Parsing

variable {text : List Byte}

variable {host : List Byte}

theorem host_of_plain {port : Option (List Byte)} (found : hostOf text = some (host, port)) :
    ∀ c ∈ host, c ≠ colon ∧ c ≠ openBracket ∧ c ≠ closeBracket := by
  induction text generalizing host with
  | nil =>
    cases found
    exact fun c among => (by cases among)
  | cons b rest ih =>
    rw [hostOf] at found
    by_cases ends : b = colon
    · rw [if_pos ends] at found
      cases found
      exact fun c among => (by cases among)
    rw [if_neg ends] at found
    by_cases bracket : b = openBracket ∨ b = closeBracket
    · rw [if_pos bracket] at found
      cases found
    rw [if_neg bracket] at found
    obtain ⟨⟨host', port'⟩, further, same⟩ := Option.map_eq_some_iff.mp found
    cases same
    exact forall_mem_cons.mpr ⟨⟨ends, fun is => bracket (.inl is), fun is => bracket (.inr is)⟩, ih further⟩

theorem host_of_made (port : Option (List Byte)) (plain : ∀ c ∈ host, c ≠ colon ∧ c ≠ openBracket ∧ c ≠ closeBracket) :
    hostOf (host ++ marked colon port) = some (host, port) := by
  induction host with
  | nil =>
    cases port with
    | none => rfl
    | some digits => exact if_pos rfl
  | cons c host ih =>
    obtain ⟨first, later⟩ := forall_mem_cons.mp plain
    rw [cons_append, hostOf, if_neg first.1, if_neg (by rintro (is | is); exacts [first.2.1 is, first.2.2 is]), ih later]
    rfl

theorem literal_of_made (port : Option (List Byte)) (some_ : host ≠ []) (shaped : zoneShape host = true)
    (plain : ∀ c ∈ host, c ≠ closeBracket) : literalOf (host ++ closeBracket :: marked colon port) = some (host, port) := by
  have cut : (host ++ closeBracket :: marked colon port).takeWhile (· ≠ closeBracket) = host := by
    refine take_while_cut (fun c among => decide_eq_true (plain c among)) fun c isFirst => ?_
    rw [← Option.some.inj isFirst]
    exact decide_eq_false (not_not.mpr rfl)
  unfold literalOf
  dsimp only
  rw [cut, drop_left]
  dsimp only
  rw [if_neg (by rintro (none_ | wrong); exacts [some_ none_, by rw [shaped] at wrong; cases wrong])]
  cases port with
  | none => rfl
  | some digits => exact if_pos rfl

theorem hex_plain : ∀ c : Byte, urlHex c ≠ none ∨ c = colon ∨ c = dot → inAuthority c = true ∧ c ≠ atSign ∧ c ≠ openBracket ∧
    c ≠ closeBracket := by
  decide +kernel

theorem zone_plain : ∀ c : Byte, isZoneByte c = true → inAuthority c = true ∧ c ≠ atSign ∧ c ≠ openBracket ∧ c ≠ closeBracket := by
  decide +kernel

theorem zone_shape_plain (shaped : zoneShape text = true) : ∀ c ∈ text, c ≠ atSign ∧ c ≠ openBracket ∧ c ≠ closeBracket := by
  induction text with
  | nil => exact fun c among => (by cases among)
  | cons b rest ih =>
    rw [zoneShape] at shaped
    by_cases address : urlHex b ≠ none ∨ b = colon ∨ b = dot
    · rw [if_pos address] at shaped
      exact forall_mem_cons.mpr ⟨(hex_plain b address).2, ih shaped⟩
    rw [if_neg address, Bool.and_eq_true, decide_eq_true_eq] at shaped
    obtain ⟨isPercent, follows⟩ := shaped
    refine forall_mem_cons.mpr ⟨by rw [isPercent]; decide, ?_⟩
    cases rest with
    | nil => exact fun c among => (by cases among)
    | cons first more =>
      cases more with
      | nil => cases follows
      | cons second zone =>
        rw [zoneFollows, Bool.and_eq_true, decide_eq_true_eq] at follows
        obtain ⟨⟨isTwo, isFive, _⟩, all⟩ := follows
        refine forall_mem_cons.mpr ⟨by rw [isTwo]; decide, forall_mem_cons.mpr ⟨by rw [isFive]; decide, ?_⟩⟩
        exact fun c among => (zone_plain c (all_eq_true.mp all c among)).2

theorem authority_of_read {found : Authority} (read : authorityOf text = some found) (inside : ∀ c ∈ text, inAuthority c = true) :
    found.text = text ∧ found.Valid := by
  obtain ⟨front, back, whole⟩ := authority_read read
  refine ⟨whole, ?_⟩
  have noAt : atSign ∉ found.hostText ++ found.portText := back ▸ (user_cut text).1
  have among : ∀ c, c ∈ found.user ∨ c ∈ found.hostText ∨ c ∈ found.portText → inAuthority c = true := by
    intro c member
    refine inside c ?_
    rw [← whole]
    unfold Authority.text
    rw [mem_append, mem_append, or_assoc]
    exact member
  cases parts : (if decide ((text.rtakeWhile (· ≠ atSign)).head? = some openBracket) = true
      then literalOf (text.rtakeWhile (· ≠ atSign)).tail else hostOf (text.rtakeWhile (· ≠ atSign))) with
  | none =>
    unfold authorityOf at read
    dsimp only at read
    rw [parts] at read
    cases read
  | some hostPort =>
    obtain ⟨host, port⟩ := hostPort
    rw [authority_of parts] at read
    cases value : portOf 0 (port.getD []) with
    | none =>
      rw [value] at read
      cases read
    | some number =>
      rw [value] at read
      dsimp only at read
      by_cases nowhere : host = [] ∧ (port.getD [] ≠ [] ∨ (userOf text).isSome = true)
      · rw [if_pos nowhere] at read
        cases read
      rw [if_neg nowhere] at read
      obtain ⟨digits, same, small⟩ := port_decimal.mp value
      have shape : ∀ c ∈ host, c ≠ openBracket ∧ c ≠ closeBracket := by
        intro c member
        split_ifs at parts
        · exact (zone_shape_plain (literal_of_port parts).2.2 c member).2
        · exact (host_of_plain parts c member).2
      cases read
      have inHost : ∀ c ∈ host, c ∈ Authority.hostText
          { userinfo := userOf text, host := host,
            bracketed := decide ((text.rtakeWhile (· ≠ atSign)).head? = some openBracket), port := port } := by
        intro c member
        unfold Authority.hostText
        split_ifs
        · exact mem_cons_of_mem _ (mem_append_left _ member)
        · exact member
      refine ⟨fun u isUser c member => among c (.inl ?_), fun c member => ⟨among c (.inr (.inl (inHost c member))), ?_, shape c member⟩,
        fun isPlain => ?_, fun isLiteral => ?_, fun some_ isPort => ?_, fun none_ => ⟨?_, fun some_ isPort => ?_⟩⟩
      · unfold Authority.user
        rw [show userOf text = some u from isUser]
        exact mem_append_left _ member
      · exact fun is => noAt (mem_append_left _ (is ▸ inHost c member))
      · have isPlain' : decide ((text.rtakeWhile (· ≠ atSign)).head? = some openBracket) = false := isPlain
        rw [isPlain', if_neg Bool.false_ne_true] at parts
        exact fun member => (host_of_plain parts colon member).1 rfl
      · have isLiteral' : decide ((text.rtakeWhile (· ≠ atSign)).head? = some openBracket) = true := isLiteral
        rw [isLiteral', if_pos rfl] at parts
        exact (literal_of_port parts).2
      · have isPort' : port = some some_ := isPort
        rw [isPort', Option.getD_some] at digits same
        exact ⟨digits, same ▸ small⟩
      · have none' : host = [] := none_
        exact Option.eq_none_iff_forall_not_mem.mpr fun u isUser =>
          nowhere ⟨none', .inr (Option.isSome_iff_exists.mpr ⟨u, isUser⟩)⟩
      have none' : host = [] := none_
      have isPort' : port = some some_ := isPort
      by_contra more
      exact nowhere ⟨none', .inl (by rw [isPort']; exact more)⟩

theorem digit_plain : ∀ c : Byte, urlIsDigit c = true → inAuthority c = true ∧ c ≠ atSign := by
  decide +kernel

theorem port_text_marked (a : Authority) : a.portText = marked colon a.port := by
  unfold Authority.portText
  cases a.port <;> rfl

theorem address_no_at {a : Authority} (valid : a.Valid) : ∀ c ∈ a.hostText ++ a.portText, c ≠ atSign := by
  intro c member
  rcases mem_append.mp member with inHost | inPort
  · unfold Authority.hostText at inHost
    split_ifs at inHost
    · rcases mem_cons.mp inHost with rfl | later
      · decide
      rcases mem_append.mp later with inside | last
      · exact (valid.host c inside).2.1
      rw [mem_singleton.mp last]
      decide
    · exact (valid.host c inHost).2.1
  rw [port_text_marked] at inPort
  cases port : a.port with
  | none =>
    rw [port] at inPort
    cases inPort
  | some digits =>
    rw [port] at inPort
    rcases mem_cons.mp inPort with rfl | later
    · decide
    · exact (digit_plain c ((valid.port digits port).1 c later)).2

theorem authority_of_made {a : Authority} (valid : a.Valid) : authorityOf a.text = some a := by
  have noAt : ∀ c ∈ a.hostText ++ a.portText, decide (c ≠ atSign) = true := fun c member =>
    decide_eq_true (address_no_at valid c member)
  have userEnds : ∀ c ∈ a.user.getLast?, decide (c ≠ atSign) = false := by
    intro c isLast
    unfold Authority.user at isLast
    cases user : a.userinfo with
    | none =>
      rw [user] at isLast
      cases isLast
    | some u =>
      rw [user] at isLast
      dsimp only at isLast
      rw [List.getLast?_append] at isLast
      rw [← Option.some.inj isLast]
      decide
  have cut := cut_last noAt userEnds
  rw [← append_assoc] at cut
  obtain ⟨front, back⟩ := cut
  have isUser : userOf a.text = a.userinfo := by
    unfold userOf Authority.text
    rw [front]
    unfold Authority.user
    cases user : a.userinfo with
    | none =>
      rw [if_neg]
      intro member
      rw [nil_append] at member
      exact of_decide_eq_true (noAt atSign member) rfl
    | some u =>
      rw [if_pos (mem_append_left _ (mem_append_left _ (mem_append_right _ (mem_singleton_self _)))), dropLast_concat]
  have bracket : decide ((a.hostText ++ a.portText).head? = some openBracket) = a.bracketed := by
    unfold Authority.hostText
    cases bracketed : a.bracketed with
    | true => exact decide_eq_true rfl
    | false =>
      refine decide_eq_false fun isFirst => ?_
      rw [if_neg Bool.false_ne_true] at isFirst
      cases host : a.host with
      | nil =>
        rw [host, nil_append, port_text_marked] at isFirst
        cases port : a.port with
        | none => rw [port] at isFirst; cases isFirst
        | some digits =>
          rw [port] at isFirst
          exact absurd (Option.some.inj isFirst) (by decide)
      | cons c rest =>
        rw [host] at isFirst
        exact (valid.host c (host ▸ mem_cons_self ..)).2.2.1 (Option.some.inj isFirst)
  have parts : (if decide ((a.text.rtakeWhile (· ≠ atSign)).head? = some openBracket) = true
      then literalOf (a.text.rtakeWhile (· ≠ atSign)).tail else hostOf (a.text.rtakeWhile (· ≠ atSign))) = some (a.host, a.port) := by
    unfold Authority.text
    rw [back, bracket, port_text_marked]
    unfold Authority.hostText
    cases bracketed : a.bracketed with
    | true =>
      obtain ⟨some_, shaped⟩ := valid.literal bracketed
      rw [if_pos rfl, if_pos rfl, cons_append, tail_cons, append_assoc]
      exact literal_of_made a.port some_ shaped fun c member => (valid.host c member).2.2.2
    | false =>
      rw [if_neg Bool.false_ne_true, if_neg Bool.false_ne_true]
      exact host_of_made a.port fun c member =>
        ⟨fun is => valid.plain bracketed (is ▸ member), (valid.host c member).2.2⟩
  have value : portOf 0 (a.port.getD []) = some (decimal (a.port.getD [])) := by
    refine port_decimal.mpr ?_
    cases port : a.port with
    | none => exact ⟨fun c among => (by cases among), rfl, Nat.zero_le _⟩
    | some digits => exact ⟨(valid.port digits port).1, rfl, (valid.port digits port).2⟩
  rw [authority_of parts, value, isUser]
  rw [if_neg]
  · have sameBracket : decide ((a.text.rtakeWhile (· ≠ atSign)).head? = some openBracket) = a.bracketed := by
      unfold Authority.text
      rw [back, bracket]
    rw [sameBracket]
  rintro ⟨none_, digits | user⟩
  · cases port : a.port with
    | none => rw [port] at digits; exact digits rfl
    | some some_ =>
      rw [port] at digits
      exact digits ((valid.somewhere none_).2 some_ port)
  rw [(valid.somewhere none_).1] at user
  cases user

theorem authority_plain {a : Authority} (valid : a.Valid) : ∀ c ∈ a.text, inAuthority c = true := by
  have digitPlain : ∀ c ∈ a.portText, inAuthority c = true := by
    intro c inPort
    rw [port_text_marked] at inPort
    cases port : a.port with
    | none =>
      rw [port] at inPort
      cases inPort
    | some digits =>
      rw [port] at inPort
      rcases mem_cons.mp inPort with rfl | later
      · decide
      · exact (digit_plain c ((valid.port digits port).1 c later)).1
  have hostPlain : ∀ c ∈ a.hostText, inAuthority c = true := by
    intro c inHost
    unfold Authority.hostText at inHost
    split_ifs at inHost
    · rcases mem_cons.mp inHost with rfl | later
      · decide
      rcases mem_append.mp later with inside | last
      · exact (valid.host c inside).1
      rw [mem_singleton.mp last]
      decide
    · exact (valid.host c inHost).1
  have userPlain : ∀ c ∈ a.user, inAuthority c = true := by
    intro c inUser
    unfold Authority.user at inUser
    cases user : a.userinfo with
    | none =>
      rw [user] at inUser
      cases inUser
    | some u =>
      rw [user] at inUser
      rcases mem_append.mp inUser with inside | last
      · exact valid.userinfo u user c inside
      rw [mem_singleton.mp last]
      decide
  intro c member
  unfold Authority.text at member
  rcases mem_append.mp member with before | inPort
  · rcases mem_append.mp before with inUser | inHost
    · exact userPlain c inUser
    · exact hostPlain c inHost
  · exact digitPlain c inPort

theorem marked_head (mark : Byte) (text : List Byte) (stops : ∀ c ∈ text.head?, c = mark) :
    text = marked mark (if text.head? = some mark then some text.tail else none) := by
  cases text with
  | nil => rfl
  | cons c rest =>
    rw [stops c rfl, List.head?_cons, if_pos rfl]
    rfl

theorem take_while_goes (such : Byte → Bool) (text : List Byte) : ∀ c ∈ text.takeWhile such, such c = true :=
  fun _ among => mem_takeWhile_imp among

theorem tail_of_text (text : List Byte) :
    text = (tailOf text).1 ++ marked questionMark (tailOf text).2.1 ++ marked numberSign (tailOf text).2.2 ∧
      (∀ c ∈ (tailOf text).1, inPath c = true) ∧ ∀ q ∈ (tailOf text).2.1, numberSign ∉ q := by
  obtain ⟨whole, stops⟩ := cut_while inPath text
  have plain := take_while_goes inPath text
  unfold tailOf
  dsimp only
  generalize text.takeWhile inPath = path at whole stops plain
  generalize text.drop path.length = later at whole stops
  cases isQuery : decide (later.head? = some questionMark) with
  | true =>
    have head := of_decide_eq_true isQuery
    cases later with
    | nil => cases head
    | cons c rest =>
      cases head
      obtain ⟨restWhole, restStops⟩ := cut_while (· ≠ numberSign) rest
      have restPlain := take_while_goes (· ≠ numberSign) rest
      rw [if_pos rfl, if_pos rfl, tail_cons]
      generalize rest.takeWhile (· ≠ numberSign) = query at restWhole restStops restPlain
      refine ⟨?_, plain, fun q isQ => ?_⟩
      · have last := marked_head numberSign (rest.drop query.length) fun c isFirst => by simpa using restStops c isFirst
        rw [← last, append_assoc, whole]
        exact congrArg (path ++ questionMark :: ·) restWhole
      rw [← Option.some.inj isQ]
      exact fun among => of_decide_eq_true (restPlain numberSign among) rfl
  | false =>
    rw [if_neg Bool.false_ne_true, if_neg Bool.false_ne_true]
    refine ⟨?_, plain, fun q isQ => (by cases isQ)⟩
    have last := marked_head numberSign later fun c isFirst => by
      have notPath := stops c isFirst
      have notQuery : c ≠ questionMark := fun same => of_decide_eq_false isQuery (same ▸ isFirst)
      unfold inPath at notPath
      rw [decide_eq_true notQuery, Bool.true_and] at notPath
      simpa using notPath
    rw [← last, marked, append_nil]
    exact whole

theorem tail_of_made {path : List Byte} {query fragment : Option (List Byte)} (plain : ∀ c ∈ path, inPath c = true)
    (queryPlain : ∀ q ∈ query, numberSign ∉ q) :
    tailOf (path ++ marked questionMark query ++ marked numberSign fragment) = (path, query, fragment) := by
  have fragmentFirst : ∀ c ∈ (marked numberSign fragment).head?, c = numberSign := by
    intro c isFirst
    cases fragment with
    | none => cases isFirst
    | some f => exact (Option.some.inj isFirst).symm
  have cut : (path ++ marked questionMark query ++ marked numberSign fragment).takeWhile inPath = path := by
    rw [append_assoc]
    refine take_while_cut plain fun c isFirst => ?_
    cases query with
    | none =>
      rw [fragmentFirst c isFirst]
      decide
    | some q =>
      rw [← Option.some.inj isFirst]
      decide
  have last : (if (marked numberSign fragment).head? = some numberSign then some (marked numberSign fragment).tail else none) = fragment := by
    cases fragment with
    | none => rfl
    | some f => exact if_pos rfl
  unfold tailOf
  dsimp only
  rw [cut, append_assoc, drop_left]
  cases query with
  | none =>
    have none_ : decide ((marked numberSign fragment).head? = some questionMark) = false := by
      refine decide_eq_false fun isFirst => ?_
      exact absurd (fragmentFirst questionMark isFirst) (by decide)
    rw [marked, nil_append, none_, if_neg Bool.false_ne_true, if_neg Bool.false_ne_true, last]
  | some q =>
    have queryCut : (q ++ marked numberSign fragment).takeWhile (· ≠ numberSign) = q := by
      refine take_while_cut (fun c among => decide_eq_true fun same => queryPlain q rfl (same ▸ among)) fun c isFirst => ?_
      rw [fragmentFirst c isFirst]
      decide
    rw [marked, cons_append, tail_cons, queryCut, drop_left, List.head?_cons, decide_eq_true rfl, if_pos rfl,
      if_pos rfl, last]

variable {parts : UrlParts}

theorem split_read (read : urlSplit text = some parts) : parts.Valid ∧ textOk text = true ∧ text = parts.text := by
  unfold urlSplit at read
  by_cases refused : text = [] ∨ textOk text = false
  · rw [if_pos refused] at read
    cases read
  rw [if_neg refused] at read
  by_cases alpha : text.head?.any urlIsAlpha = true
  · rw [if_neg (not_not.mpr alpha)] at read
    dsimp only at read
    obtain ⟨whole, _⟩ := cut_while isSchemeByte text
    have schemePlain := take_while_goes isSchemeByte text
    have begins : ∃ first ∈ (text.takeWhile isSchemeByte).head?, urlIsAlpha first = true := by
      cases text with
      | nil => cases alpha
      | cons c rest =>
        have isAlpha : urlIsAlpha c = true := alpha
        refine ⟨c, ?_, isAlpha⟩
        rw [takeWhile_cons, if_pos (by unfold isSchemeByte; rw [isAlpha]; rfl)]
        rfl
    generalize text.takeWhile isSchemeByte = scheme at whole schemePlain begins read
    by_cases mark : schemeMark <+: text.drop scheme.length
    · rw [if_neg (not_not.mpr mark)] at read
      obtain ⟨later, split⟩ := mark
      have dropped : (text.drop scheme.length).drop 3 = later := by
        rw [← split]
        rfl
      rw [dropped] at read
      obtain ⟨laterWhole, stops⟩ := cut_while inAuthority later
      have plain := take_while_goes inAuthority later
      generalize later.takeWhile inAuthority = authority at laterWhole stops plain read
      cases found : authorityOf authority with
      | none =>
        rw [found] at read
        cases read
      | some fields =>
        rw [found] at read
        dsimp only at read
        obtain ⟨fieldsText, fieldsValid⟩ := authority_of_read found plain
        obtain ⟨tailWhole, pathPlain, queryPlain⟩ := tail_of_text (later.drop authority.length)
        generalize tail : tailOf (later.drop authority.length) = tailParts at tailWhole pathPlain queryPlain read
        obtain ⟨path, query, fragment⟩ := tailParts
        dsimp only at tailWhole pathPlain queryPlain read
        cases read
        refine ⟨⟨begins, schemePlain, fieldsValid, ?_, pathPlain, queryPlain⟩, ?_, ?_⟩
        · show path = [] ∨ path.head? = some slash
          cases path with
          | nil => exact .inl rfl
          | cons c rest =>
            refine .inr (congrArg some ?_)
            have outside := stops c (by rw [tailWhole]; rfl)
            have inside := pathPlain c (mem_cons_self ..)
            unfold inAuthority at outside
            unfold inPath at inside
            rw [Bool.and_assoc, inside, Bool.and_true] at outside
            simpa using outside
        · cases ok : textOk text with
          | true => rfl
          | false => exact absurd (.inr ok) refused
        unfold UrlParts.text
        rw [fieldsText, append_assoc, append_assoc, append_assoc, append_assoc]
        rw [append_assoc] at tailWhole
        rw [← tailWhole, ← laterWhole, split]
        exact whole
    rw [if_pos mark] at read
    cases read
  rw [if_pos alpha] at read
  cases read

theorem authority_cut (valid : parts.Valid) : (parts.authority.text ++ (parts.path ++ marked questionMark parts.query ++
      marked numberSign parts.fragment)).takeWhile inAuthority = parts.authority.text := by
  refine take_while_cut (authority_plain valid.authority) fun c isNext => ?_
  rcases valid.rooted with none_ | isSlash
  · rw [none_, nil_append] at isNext
    cases query : parts.query with
    | none =>
      rw [query] at isNext
      cases fragment : parts.fragment with
      | none =>
        rw [fragment] at isNext
        cases isNext
      | some f =>
        rw [fragment] at isNext
        rw [← Option.some.inj isNext]
        decide
    | some q =>
      rw [query] at isNext
      rw [← Option.some.inj isNext]
      decide
  rw [append_assoc, List.head?_append, isSlash] at isNext
  rw [← Option.some.inj isNext]
  decide

theorem split_made (valid : parts.Valid) (ok : textOk parts.text = true) : urlSplit parts.text = some parts := by
  obtain ⟨first, isFirst, isAlpha⟩ := valid.begins
  have some_ : parts.scheme ≠ [] := by
    intro nothing
    rw [nothing] at isFirst
    cases isFirst
  have order : parts.text = parts.scheme ++ (schemeMark ++ (parts.authority.text ++
      (parts.path ++ marked questionMark parts.query ++ marked numberSign parts.fragment))) := by
    unfold UrlParts.text
    simp only [append_assoc]
  have head : parts.text.head?.any urlIsAlpha = true := by
    rw [order, List.head?_append, isFirst]
    exact isAlpha
  have scheme : parts.text.takeWhile isSchemeByte = parts.scheme := by
    rw [order]
    refine take_while_cut valid.scheme fun c isColon => ?_
    rw [← Option.some.inj isColon]
    decide
  unfold urlSplit
  rw [if_neg (by
    rintro (nothing | wrong)
    · rw [nothing] at head
      cases head
    rw [ok] at wrong
    cases wrong), if_neg (not_not.mpr head)]
  dsimp only
  have later : parts.text.drop parts.scheme.length = schemeMark ++ (parts.authority.text ++
      (parts.path ++ marked questionMark parts.query ++ marked numberSign parts.fragment)) := by
    rw [order, drop_left]
  rw [scheme, later, if_neg (not_not.mpr (prefix_append _ _))]
  have dropped : (schemeMark ++ (parts.authority.text ++ (parts.path ++ marked questionMark parts.query ++
      marked numberSign parts.fragment))).drop 3 = parts.authority.text ++ (parts.path ++ marked questionMark parts.query ++
        marked numberSign parts.fragment) := rfl
  rw [dropped, authority_cut valid, authority_of_made valid.authority, drop_left, tail_of_made valid.path valid.query]

theorem split_iff : urlSplit text = some parts ↔ parts.Valid ∧ textOk text = true ∧ text = parts.text := by
  constructor
  · exact split_read
  rintro ⟨valid, ok, rfl⟩
  exact split_made valid ok

theorem view_of (front back : List Byte) {middle : List Byte} {start : Nat} (at_ : start = front.length)
    (whole : text = front ++ middle ++ back) : (View.mk start middle.length).bytes text = middle := by
  unfold View.bytes
  rw [at_, whole, append_assoc, drop_left, take_left]

structure Shown (parts : UrlParts) (u : ProvenUrl) (text : List Byte) : Prop where
  scheme : u.scheme.bytes text = parts.scheme
  userinfo : ∀ user ∈ parts.authority.userinfo, u.userinfo.bytes text = user
  host : u.host.bytes text = parts.authority.host
  path : u.path.bytes text = parts.path
  query : ∀ query ∈ parts.query, u.query.bytes text = query
  fragment : ∀ fragment ∈ parts.fragment, u.fragment.bytes text = fragment

theorem views_shown (parts : UrlParts) : Shown parts parts.views parts.text := by
  have three : schemeMark.length = 3 := rfl
  refine ⟨?_, fun user isUser => ?_, ?_, ?_, fun query isQuery => ?_, fun fragment isFragment => ?_⟩
  · refine view_of [] (schemeMark ++ parts.authority.text ++ parts.path ++ marked questionMark parts.query ++
      marked numberSign parts.fragment) rfl ?_
    unfold UrlParts.text
    simp only [append_assoc, nil_append]
  · unfold UrlParts.views
    rw [isUser]
    refine view_of (parts.scheme ++ schemeMark) ([atSign] ++ parts.authority.hostText ++ parts.authority.portText ++ parts.path ++
      marked questionMark parts.query ++ marked numberSign parts.fragment) ?_ ?_
    · rw [length_append, three]
    unfold UrlParts.text Authority.text Authority.user
    rw [isUser]
    simp only [append_assoc]
  · refine view_of (parts.scheme ++ schemeMark ++ parts.authority.user ++ (if parts.authority.bracketed then [openBracket] else []))
      ((if parts.authority.bracketed then [closeBracket] else []) ++ parts.authority.portText ++ parts.path ++
        marked questionMark parts.query ++ marked numberSign parts.fragment) ?_ ?_
    · simp only [length_append, three]
      cases parts.authority.bracketed <;> rfl
    unfold UrlParts.text Authority.text Authority.hostText
    cases parts.authority.bracketed with
    | true =>
      rw [if_pos rfl, if_pos rfl, if_pos rfl]
      simp only [append_assoc, cons_append, nil_append]
    | false =>
      rw [if_neg Bool.false_ne_true, if_neg Bool.false_ne_true, if_neg Bool.false_ne_true]
      simp only [append_assoc, nil_append]
  · refine view_of (parts.scheme ++ schemeMark ++ parts.authority.text)
      (marked questionMark parts.query ++ marked numberSign parts.fragment) ?_ ?_
    · simp only [length_append, three]
    unfold UrlParts.text
    simp only [append_assoc]
  · unfold UrlParts.views
    rw [isQuery]
    refine view_of (parts.scheme ++ schemeMark ++ parts.authority.text ++ parts.path ++ [questionMark])
      (marked numberSign parts.fragment) ?_ ?_
    · simp only [length_append, three, length_singleton]
    unfold UrlParts.text
    rw [isQuery]
    simp only [marked, append_assoc, cons_append, nil_append]
  unfold UrlParts.views
  rw [isFragment]
  refine view_of (parts.scheme ++ schemeMark ++ parts.authority.text ++ parts.path ++ marked questionMark parts.query ++ [numberSign])
    [] ?_ ?_
  · simp only [length_append, three, length_singleton]
  unfold UrlParts.text
  rw [isFragment]
  simp only [marked, append_assoc, cons_append, nil_append, append_nil]

def spelledAuthority (text : List Byte) (u : ProvenUrl) (portText : List Byte) : List Byte :=
  (if u.hasUserinfo then u.userinfo.bytes text ++ [atSign] else []) ++
    (if u.hostIsIpv6 then openBracket :: (u.host.bytes text ++ [closeBracket]) else u.host.bytes text) ++ portText

def spelled (text : List Byte) (u : ProvenUrl) (portText : List Byte) : List Byte :=
  u.scheme.bytes text ++ schemeMark ++ spelledAuthority text u portText ++ u.path.bytes text ++
    (if u.hasQuery then questionMark :: u.query.bytes text else []) ++
    (if u.hasFragment then numberSign :: u.fragment.bytes text else [])

structure Consecutive (text : List Byte) (u : ProvenUrl) (portText : List Byte) : Prop where
  scheme : u.scheme.start = 0
  userinfo : u.hasUserinfo = true → u.userinfo.start = u.scheme.size + 3
  host : u.host.start = u.scheme.size + 3 + (if u.hasUserinfo then u.userinfo.size + 1 else 0) + (if u.hostIsIpv6 then 1 else 0)
  path : u.path.start = u.host.start + u.host.size + (if u.hostIsIpv6 then 1 else 0) + portText.length
  query : u.hasQuery = true → u.query.start = u.path.start + u.path.size + 1
  fragment : u.hasFragment = true →
    u.fragment.start = u.path.start + u.path.size + (if u.hasQuery then u.query.size + 1 else 0) + 1
  last : text.length = u.path.start + u.path.size + (if u.hasQuery then u.query.size + 1 else 0) +
    (if u.hasFragment then u.fragment.size + 1 else 0)

theorem authority_spelled (parts : UrlParts) :
    spelledAuthority parts.text parts.views parts.authority.portText = parts.authority.text := by
  have shown := views_shown parts
  have user : (if parts.views.hasUserinfo then parts.views.userinfo.bytes parts.text ++ [atSign] else []) = parts.authority.user := by
    unfold Authority.user
    cases isUser : parts.authority.userinfo with
    | none => exact if_neg (by unfold UrlParts.views; rw [isUser]; exact Bool.false_ne_true)
    | some user =>
      rw [if_pos (by unfold UrlParts.views; rw [isUser]; rfl), shown.userinfo user isUser]
  unfold spelledAuthority
  rw [user, shown.host]
  rfl

theorem views_spelled (parts : UrlParts) : spelled parts.text parts.views parts.authority.portText = parts.text := by
  have shown := views_shown parts
  have query : (if parts.views.hasQuery then questionMark :: parts.views.query.bytes parts.text else []) =
      marked questionMark parts.query := by
    cases isQuery : parts.query with
    | none => exact if_neg (by unfold UrlParts.views; rw [isQuery]; exact Bool.false_ne_true)
    | some query =>
      rw [if_pos (by unfold UrlParts.views; rw [isQuery]; rfl), shown.query query isQuery]
      rfl
  have fragment : (if parts.views.hasFragment then numberSign :: parts.views.fragment.bytes parts.text else []) =
      marked numberSign parts.fragment := by
    cases isFragment : parts.fragment with
    | none => exact if_neg (by unfold UrlParts.views; rw [isFragment]; exact Bool.false_ne_true)
    | some fragment =>
      rw [if_pos (by unfold UrlParts.views; rw [isFragment]; rfl), shown.fragment fragment isFragment]
      rfl
  unfold spelled
  rw [authority_spelled, query, fragment, shown.scheme, shown.path]
  rfl

theorem views_consecutive (parts : UrlParts) : Consecutive parts.text parts.views parts.authority.portText := by
  have three : schemeMark.length = 3 := rfl
  have userSize : parts.authority.user.length = if parts.views.hasUserinfo then parts.views.userinfo.size + 1 else 0 := by
    unfold Authority.user UrlParts.views
    cases parts.authority.userinfo with
    | none => rfl
    | some user => exact length_append.trans (if_pos rfl).symm
  have querySize : (marked questionMark parts.query).length = if parts.views.hasQuery then parts.views.query.size + 1 else 0 := by
    unfold UrlParts.views
    cases parts.query with
    | none => rfl
    | some query => exact (if_pos rfl).symm
  have fragmentSize : (marked numberSign parts.fragment).length =
      if parts.views.hasFragment then parts.views.fragment.size + 1 else 0 := by
    unfold UrlParts.views
    cases parts.fragment with
    | none => rfl
    | some fragment => exact (if_pos rfl).symm
  have hostSize : parts.authority.hostText.length =
      (if parts.views.hostIsIpv6 then 1 else 0) + parts.authority.host.length + (if parts.views.hostIsIpv6 then 1 else 0) := by
    unfold Authority.hostText
    show _ = (if parts.authority.bracketed then 1 else 0) + _ + (if parts.authority.bracketed then 1 else 0)
    cases parts.authority.bracketed with
    | true =>
      rw [if_pos rfl, if_pos rfl, length_cons, length_append, length_singleton]
      omega
    | false =>
      rw [if_neg Bool.false_ne_true, if_neg Bool.false_ne_true]
      omega
  have pathStart : parts.views.path.start = parts.scheme.length + 3 + parts.authority.text.length := rfl
  have authSize : parts.authority.text.length =
      parts.authority.user.length + parts.authority.hostText.length + parts.authority.portText.length := by
    unfold Authority.text
    rw [length_append, length_append]
  have hostStart : parts.views.host.start = parts.scheme.length + 3 + parts.authority.user.length +
      (if parts.views.hostIsIpv6 then 1 else 0) := rfl
  have schemeSize : parts.views.scheme.size = parts.scheme.length := rfl
  have pathSize : parts.views.path.size = parts.path.length := rfl
  have hostLength : parts.views.host.size = parts.authority.host.length := rfl
  refine ⟨rfl, fun isUser => ?_, ?_, ?_, fun isQuery => ?_, fun isFragment => ?_, ?_⟩
  · unfold UrlParts.views at isUser ⊢
    cases user : parts.authority.userinfo with
    | none => rw [user] at isUser; cases isUser
    | some u => rfl
  · rw [hostStart, userSize, schemeSize]
  · rw [pathStart, hostStart, authSize, hostSize, hostLength]
    omega
  · unfold UrlParts.views at isQuery ⊢
    cases query : parts.query with
    | none => rw [query] at isQuery; cases isQuery
    | some q => rfl
  · rw [← querySize]
    unfold UrlParts.views at isFragment ⊢
    cases fragment : parts.fragment with
    | none => rw [fragment] at isFragment; cases isFragment
    | some f => rfl
  rw [← querySize, ← fragmentSize, pathStart, pathSize]
  unfold UrlParts.text
  simp only [length_append, three]

/-- Whatever text is given, the parser reads inside it. -/
theorem url_parse_lossless (text : List Byte) : ∃ result, urlParse text = some result ∧ ∀ u, result = .ok u →
      ∃ digits portText, (portText = colon :: digits ∨ (portText = [] ∧ digits = [])) ∧
        (∀ c ∈ digits, urlIsDigit c = true) ∧ u.hasPort = decide (digits ≠ []) ∧ u.port = decimal digits ∧ u.port < 65536 ∧
        spelled text u portText = text ∧ Consecutive text u portText ∧
        (∀ c ∈ u.host.bytes text, c ≠ slash ∧ c ≠ questionMark ∧ c ≠ numberSign ∧ c ≠ atSign ∧ c ≠ openBracket ∧
          c ≠ closeBracket ∧ (u.hostIsIpv6 = false → c ≠ colon)) ∧
        (∀ c ∈ spelledAuthority text u portText, c ≠ slash ∧ c ≠ questionMark ∧ c ≠ numberSign) ∧
        (u.path.bytes text = [] ∨ (u.path.bytes text).head? = some slash) ∧
        (∀ c ∈ (if u.hostIsIpv6 then openBracket :: (u.host.bytes text ++ [closeBracket]) else u.host.bytes text) ++ portText,
          c ≠ atSign) ∧ ∀ other : UrlParts, other.Valid → other.text = text → other.views = u := by
  refine ⟨_, parse_split text, fun u accepted => ?_⟩
  cases read : urlSplit text with
  | none =>
    rw [read] at accepted
    cases accepted
  | some parts =>
    rw [read] at accepted
    cases accepted
    obtain ⟨valid, ok, rfl⟩ := split_iff.mp read
    have shown := views_shown parts
    have portCases : parts.authority.portText = colon :: parts.authority.port.getD [] ∨
        (parts.authority.portText = [] ∧ parts.authority.port.getD [] = []) := by
      unfold Authority.portText
      cases parts.authority.port with
      | none => exact Or.inr ⟨rfl, rfl⟩
      | some digits => exact Or.inl rfl
    have digits : (∀ c ∈ parts.authority.port.getD [], urlIsDigit c = true) ∧ decimal (parts.authority.port.getD []) ≤ 65535 := by
      cases port : parts.authority.port with
      | none => exact ⟨fun c among => (by cases among), Nat.zero_le _⟩
      | some digits => exact valid.authority.port digits port
    have plain : ∀ c, inAuthority c = true → c ≠ slash ∧ c ≠ questionMark ∧ c ≠ numberSign := by
      intro c inside
      unfold inAuthority at inside
      simpa [and_assoc] using inside
    refine ⟨parts.authority.port.getD [], parts.authority.portText, portCases, digits.1, rfl, rfl, Nat.lt_succ_of_le digits.2,
      views_spelled parts, views_consecutive parts, ?_, ?_, ?_, ?_, ?_⟩
    · rw [shown.host]
      intro c among
      obtain ⟨inside, noAt, noOpen, noClose⟩ := valid.authority.host c among
      obtain ⟨noSlash, noQuestion, noNumber⟩ := plain c inside
      exact ⟨noSlash, noQuestion, noNumber, noAt, noOpen, noClose, fun isPlain same => valid.authority.plain isPlain (same ▸ among)⟩
    · rw [authority_spelled]
      exact fun c among => plain c (authority_plain valid.authority c among)
    · rw [shown.path]
      exact valid.rooted
    · rw [shown.host]
      exact address_no_at valid.authority
    intro other otherValid same
    have again := split_made otherValid (same.symm ▸ ok)
    rw [same, read] at again
    rw [Option.some.inj again]

/-- A colon with no port behind it is in no view. -/
theorem empty_port_not_spelled : ∃ u, urlParse (ascii "http://h:/") = some (.ok u) ∧
      ¬ ∃ digits, spelled (ascii "http://h:/") u (if u.hasPort then colon :: digits else []) = ascii "http://h:/" := by
  refine ⟨{ scheme := ⟨0, 4⟩, userinfo := noView, host := ⟨7, 1⟩, port := 0, path := ⟨9, 1⟩, query := noView,
            fragment := noView, hasUserinfo := false, hasPort := false, hasQuery := false, hasFragment := false,
            hostIsIpv6 := false }, by decide +kernel, ?_⟩
  rintro ⟨digits, same⟩
  dsimp only at same
  rw [if_neg Bool.false_ne_true] at same
  revert same
  decide +kernel

end ProvenC.Url.Lossless
