import ProvenC.Url.Path

/-!
# The decoder's loop

The loop reads the units of its input and stops at the first that is malformed, refused or does not fit.
-/

namespace ProvenC.Url.Decoding

open Bytes Lib.Cells Lib.Segments Url.Path

theorem url_hex_lt {c : Byte} {digit : Nat} (found : urlHex c = some digit) : digit < 16 := by
  have nine : '9'.toNat = 57 := rfl
  have zero : '0'.toNat = 48 := rfl
  have small : 'a'.toNat = 97 := rfl
  have small' : 'f'.toNat = 102 := rfl
  have large : 'A'.toNat = 65 := rfl
  have large' : 'F'.toNat = 70 := rfl
  unfold urlHex at found
  split_ifs at found <;> cases found <;> omega

theorem hex_slash : urlHex slash = none := by decide

theorem slash_ne_percent : slash ≠ percent := by decide

theorem hex_pair {hi lo : Nat} (small : lo < 16) : (hi <<< 4) ||| lo = hi * 16 + lo := by
  have bits : lo < 2 ^ 4 := small
  rw [← Nat.shiftLeft_add_eq_or_of_lt bits, Nat.shiftLeft_eq]

theorem decoded_units_plain {c : Byte} (plain : c ≠ percent) (rest : List Byte) :
    decodedUnits (c :: rest) = (decodedUnits rest).map ((c, false) :: ·) := by
  rw [decodedUnits.eq_def]
  exact if_neg plain

theorem decoded_units_escape (rest : List Byte) : decodedUnits (percent :: rest) = match rest with
      | a :: b :: later =>
        match urlHex a, urlHex b with
        | some hi, some lo => (decodedUnits later).map ((byteOf (hi * 16 + lo), true) :: ·)
        | _, _ => none
      | _ => none := by
  rw [decodedUnits.eq_def]
  exact if_pos rfl

theorem decoded_units_drop {input : List Byte} {fetch : Nat → Byte} {i : Nat}
    (reads : ∀ j, i ≤ j → j < input.length → fetch j = input.getD j 0) (inside : i < input.length) :
    decodedUnits (input.drop i) = (unitAt fetch input.length i).bind fun u =>
        (decodedUnits (input.drop u.2.2)).map ((u.1, u.2.1) :: ·) := by
  have at_ : ∀ j, i ≤ j → (within : j < input.length) → input.drop j = fetch j :: input.drop (j + 1) := by
    intro j later within
    rw [List.drop_eq_getElem_cons within, reads j later within, List.getD_eq_getElem _ _ within]
  unfold unitAt
  rw [at_ i (le_refl i) inside]
  by_cases escape : fetch i = percent
  · rw [if_pos escape, escape, decoded_units_escape]
    by_cases short : input.length - i < 3
    · rw [if_pos short]
      by_cases one : i + 1 < input.length
      · rw [at_ (i + 1) (Nat.le_succ i) one, List.drop_eq_nil_of_le (by omega)]
        rfl
      rw [List.drop_eq_nil_of_le (by omega)]
      rfl
    rw [if_neg short, at_ (i + 1) (by omega) (by omega), at_ (i + 2) (by omega) (by omega)]
    dsimp only
    cases first : urlHex (fetch (i + 1)) with
    | none => rfl
    | some hi =>
      cases second : urlHex (fetch (i + 2)) with
      | none => rfl
      | some lo =>
        dsimp only [Option.bind_some]
        rw [hex_pair (url_hex_lt second)]
  rw [if_neg escape, decoded_units_plain escape]
  rfl

theorem unit_at_next {fetch : Nat → Byte} {size i : Nat} {c : Byte} {escaped : Bool} {next : Nat} (inside : i < size)
    (found : unitAt fetch size i = some (c, escaped, next)) : i < next ∧ next ≤ size := by
  unfold unitAt at found
  by_cases escape : fetch i = percent
  · rw [if_pos escape] at found
    by_cases short : size - i < 3
    · rw [if_pos short] at found
      cases found
    rw [if_neg short] at found
    cases first : urlHex (fetch (i + 1)) with
    | none => rw [first] at found; cases found
    | some hi =>
      cases second : urlHex (fetch (i + 2)) with
      | none => rw [first, second] at found; cases found
      | some lo =>
        rw [first, second] at found
        cases found
        omega
  rw [if_neg escape] at found
  cases found
  omega

def accepted (accept : Byte → Bool → Option Byte) : List (Byte × Bool) → Option (List Byte)
  | [] => some []
  | u :: later => (accept u.1 u.2).bind fun c => (accepted accept later).map (c :: ·)

def Reads (source : Source) (cells : Memory) (input : List Byte) : Prop :=
  ∀ now i, (∀ j, i ≤ j → now j = cells j) → ∀ j, i ≤ j → j < input.length → source now j = input.getD j 0

theorem apart_reads (input : List Byte) (cells : Memory) : Reads (apartFrom input) cells input :=
  fun _ _ _ _ _ _ => rfl

theorem range_get (cells : Memory) {n j : Nat} (inside : j < n) : (range cells 0 n).getD j 0 = cells j := by
  unfold range
  rw [List.getD_eq_getElem _ _ (by rw [List.length_ofFn]; exact inside), List.getElem_ofFn, zero_add]

theorem in_place_reads (cells : Memory) (n : Nat) : Reads inPlace cells (range cells 0 n) := by
  intro now i unread j later inside
  rw [range_length] at inside
  rw [range_get cells inside]
  exact unread j later

variable {source : Source} {cells : Memory} {input : List Byte} {outSize : Nat} {accept : Byte → Bool → Option Byte}

theorem decode_turn_ok {size : Nat} {st next : Decoding} (inside : st.i < size)
    (turned : decodeTurn source size outSize accept st = .ok next) :
    st.i < next.i ∧ next.i ≤ size ∧ next.w = st.w + 1 ∧ ∃ c, next.cells = stored st.cells st.w c := by
  unfold decodeTurn at turned
  cases unit : unitAt (source st.cells) size st.i with
  | none => rw [unit] at turned; cases turned
  | some u =>
    obtain ⟨c, escaped, after⟩ := u
    have ahead := unit_at_next inside unit
    rw [unit] at turned
    dsimp only at turned
    cases let_ : accept c escaped with
    | none => rw [let_] at turned; cases turned
    | some c =>
      rw [let_] at turned
      dsimp only at turned
      by_cases full : outSize ≤ st.w
      · rw [if_pos full] at turned
        cases turned
      rw [if_neg full] at turned
      cases turned
      exact ⟨ahead.1, ahead.2, rfl, c, rfl⟩

def Passes (source : Source) (size outSize : Nat) (accept : Byte → Bool → Option Byte) : Decoding → Decoding → Prop :=
  Relation.ReflTransGen fun st next => st.i < size ∧ decodeTurn source size outSize accept st = .ok next

theorem decode_never_passes {size : Nat} {start st : Decoding} (behind : start.w ≤ start.i)
    (passes : Passes source size outSize accept start st) : st.w ≤ st.i ∧ ∀ j, st.i ≤ j → st.cells j = start.cells j := by
  induction passes with
  | refl => exact ⟨behind, fun _ _ => rfl⟩
  | tail _ step ih =>
    obtain ⟨inside, turned⟩ := step
    obtain ⟨low, unread⟩ := ih
    obtain ⟨ahead, _, wrote, c, written⟩ := decode_turn_ok inside turned
    refine ⟨by omega, ?_⟩
    intro j later
    rw [written, stored, Function.update_of_ne (by omega)]
    exact unread j (by omega)

theorem decode_loop_some (reads : Reads source cells input) :
    ∀ left (st : Decoding) bytes, input.length ≤ st.i + left → st.i ≤ input.length → st.w ≤ st.i → st.w ≤ outSize →
      (∀ j, st.i ≤ j → st.cells j = cells j) → (decodedUnits (input.drop st.i)).bind (accepted accept) = some bytes →
      decodeLoop source input.length outSize accept left st = if outSize < st.w + bytes.length then .error .outOfBounds
        else .ok { i := input.length, w := st.w + bytes.length, cells := storedAll st.cells st.w bytes } := by
  intro left
  induction left with
  | zero =>
    intro st bytes enough within _ fits _ decoded
    rw [List.drop_eq_nil_of_le (by omega)] at decoded
    cases decoded
    have ended : st.i = input.length := by omega
    rw [if_neg (by rw [List.length_nil]; omega), ← ended]
    rfl
  | succ left ih =>
    intro st bytes enough within behind fits unread decoded
    rw [decodeLoop]
    by_cases inside : st.i < input.length
    · rw [if_pos inside]
      have reading := reads st.cells st.i unread
      rw [decoded_units_drop reading inside] at decoded
      unfold decodeTurn
      cases unit : unitAt (source st.cells) input.length st.i with
      | none => rw [unit] at decoded; cases decoded
      | some u =>
        obtain ⟨c, escaped, after⟩ := u
        obtain ⟨ahead, bound⟩ := unit_at_next inside unit
        rw [unit] at decoded
        dsimp only [Option.bind_some] at decoded ⊢
        cases rest : decodedUnits (input.drop after) with
        | none => rw [rest] at decoded; cases decoded
        | some units =>
          rw [rest] at decoded
          dsimp only [Option.map_some, Option.bind_some, accepted] at decoded
          cases let_ : accept c escaped with
          | none => rw [let_] at decoded; cases decoded
          | some c =>
            rw [let_] at decoded
            dsimp only [Option.bind_some] at decoded ⊢
            obtain ⟨later, laterDecoded, rfl⟩ := Option.map_eq_some_iff.mp decoded
            by_cases full : outSize ≤ st.w
            · rw [if_pos full, if_pos (by rw [List.length_cons]; omega)]
            rw [if_neg full]
            dsimp only
            have further := ih { i := after, w := st.w + 1, cells := stored st.cells st.w c } later
              (by dsimp only; omega) bound (by dsimp only; omega) (by dsimp only; omega)
              (by
                intro j beyond
                dsimp only at beyond ⊢
                rw [stored, Function.update_of_ne (by omega)]
                exact unread j (by omega))
              (by dsimp only; rw [rest]; exact laterDecoded)
            rw [further]
            dsimp only
            rw [List.length_cons, storedAll, add_assoc, add_comm 1]
    have ended : st.i = input.length := by omega
    rw [if_neg inside]
    rw [List.drop_eq_nil_of_le (by omega)] at decoded
    cases decoded
    rw [if_neg (by rw [List.length_nil]; omega), ← ended]
    rfl

theorem decode_loop_none (reads : Reads source cells input) :
    ∀ left (st : Decoding), input.length ≤ st.i + left → st.w ≤ st.i → (∀ j, st.i ≤ j → st.cells j = cells j) →
      (decodedUnits (input.drop st.i)).bind (accepted accept) = none →
      ∃ err, decodeLoop source input.length outSize accept left st = .error err ∧ err ≠ .permission := by
  intro left
  induction left with
  | zero =>
    intro st enough _ _ decoded
    rw [List.drop_eq_nil_of_le (by omega)] at decoded
    cases decoded
  | succ left ih =>
    intro st enough behind unread decoded
    rw [decodeLoop]
    by_cases inside : st.i < input.length
    · rw [if_pos inside]
      have reading := reads st.cells st.i unread
      rw [decoded_units_drop reading inside] at decoded
      unfold decodeTurn
      cases unit : unitAt (source st.cells) input.length st.i with
      | none => exact ⟨_, rfl, nofun⟩
      | some u =>
        obtain ⟨c, escaped, after⟩ := u
        obtain ⟨ahead, bound⟩ := unit_at_next inside unit
        rw [unit] at decoded
        dsimp only [Option.bind_some] at decoded ⊢
        cases let_ : accept c escaped with
        | none => exact ⟨_, rfl, nofun⟩
        | some byte =>
          dsimp only
          by_cases full : outSize ≤ st.w
          · rw [if_pos full]
            exact ⟨_, rfl, nofun⟩
          rw [if_neg full]
          dsimp only
          apply ih
          · dsimp only
            omega
          · dsimp only
            omega
          · intro j beyond
            dsimp only at beyond ⊢
            rw [stored, Function.update_of_ne (by omega)]
            exact unread j (by omega)
          dsimp only
          cases rest : decodedUnits (input.drop after) with
          | none => rfl
          | some units =>
            rw [rest] at decoded
            dsimp only [Option.map_some, Option.bind_some, accepted] at decoded ⊢
            rw [let_] at decoded
            exact Option.map_eq_none_iff.mp decoded
    rw [List.drop_eq_nil_of_le (by omega)] at decoded
    cases decoded

theorem decode_loops_agree (outSize : Nat) (accept : Byte → Bool → Option Byte) {other : Source} {otherCells : Memory} (reads : Reads source cells input)
    (otherReads : Reads other otherCells input) :
    ∀ left i w (now otherNow : Memory), w ≤ i → (∀ j, i ≤ j → now j = cells j) → (∀ j, i ≤ j → otherNow j = otherCells j) →
      range now 0 w = range otherNow 0 w →
      (decodeLoop source input.length outSize accept left { i := i, w := w, cells := now }).map
          (fun st => range st.cells 0 st.w) =
        (decodeLoop other input.length outSize accept left { i := i, w := w, cells := otherNow }).map
          (fun st => range st.cells 0 st.w) := by
  intro left
  induction left with
  | zero =>
    intro i w now otherNow _ _ _ same
    rw [decodeLoop, decodeLoop, Except.map, Except.map, same]
  | succ left ih =>
    intro i w now otherNow behind unread otherUnread same
    rw [decodeLoop, decodeLoop]
    dsimp only
    by_cases inside : i < input.length
    · rw [if_pos inside, if_pos inside]
      have fetched : ∀ j, i ≤ j → j < input.length → source now j = other otherNow j := by
        intro j later within
        rw [reads now i unread j later within, otherReads otherNow i otherUnread j later within]
      have unit : unitAt (source now) input.length i = unitAt (other otherNow) input.length i := by
        unfold unitAt
        rw [fetched i (le_refl i) inside]
        by_cases short : input.length - i < 3
        · rw [if_pos short, if_pos short]
        · rw [if_neg short, if_neg short, fetched (i + 1) (by omega) (by omega), fetched (i + 2) (by omega) (by omega)]
      unfold decodeTurn
      rw [unit]
      dsimp only
      cases found : unitAt (other otherNow) input.length i with
      | none => rfl
      | some u =>
        obtain ⟨c, escaped, after⟩ := u
        have ahead := unit_at_next inside found
        dsimp only
        cases accept c escaped with
        | none => rfl
        | some byte =>
          dsimp only
          by_cases full : outSize ≤ w
          · rw [if_pos full, if_pos full]
          rw [if_neg full, if_neg full]
          dsimp only
          apply ih
          · omega
          · intro j beyond
            rw [stored, Function.update_of_ne (by omega)]
            exact unread j (by omega)
          · intro j beyond
            rw [stored, Function.update_of_ne (by omega)]
            exact otherUnread j (by omega)
          · rw [range_stored, range_stored, same]
    · rw [if_neg inside, if_neg inside, Except.map, Except.map, same]

variable {part : List Byte}

theorem decoded_units_split (rest : List Byte) (unmarked : slash ∉ part) : decodedUnits (part ++ slash :: rest) =
      (decodedUnits part).bind fun units => (decodedUnits rest).map fun later => units ++ (slash, false) :: later := by
  have bounded : ∀ n (part : List Byte), part.length ≤ n → slash ∉ part → decodedUnits (part ++ slash :: rest) =
        (decodedUnits part).bind fun units => (decodedUnits rest).map fun later => units ++ (slash, false) :: later := by
    intro n
    induction n with
    | zero =>
      intro part short _
      rw [List.eq_nil_of_length_eq_zero (Nat.le_zero.mp short), List.nil_append, decoded_units_plain slash_ne_percent]
      rfl
    | succ n ih =>
      intro part short unmarked
      cases part with
      | nil =>
        rw [List.nil_append, decoded_units_plain slash_ne_percent]
        rfl
      | cons c part =>
        rw [List.length_cons] at short
        by_cases escape : c = percent
        · subst escape
          rw [List.cons_append, decoded_units_escape, decoded_units_escape]
          match part, unmarked, short with
          | [], _, _ =>
            cases rest with
            | nil => rfl
            | cons b later =>
              rw [List.nil_append]
              dsimp only
              rw [hex_slash]
              rfl
          | [a], _, _ =>
            rw [List.singleton_append]
            dsimp only
            cases urlHex a with
            | none => rfl
            | some hi =>
              rw [hex_slash]
              rfl
          | a :: b :: later, unmarked, short =>
            rw [List.cons_append, List.cons_append]
            dsimp only
            cases urlHex a with
            | none => rfl
            | some hi =>
              cases urlHex b with
              | none => rfl
              | some lo =>
                dsimp only
                rw [List.length_cons, List.length_cons] at short
                have laterUnmarked : slash ∉ later := by
                  intro among
                  exact unmarked (List.mem_cons_of_mem _ (List.mem_cons_of_mem _ (List.mem_cons_of_mem _ among)))
                rw [ih later (by omega) laterUnmarked]
                cases decodedUnits later with
                | none => rfl
                | some units =>
                  cases decodedUnits rest with
                  | none => rfl
                  | some _ => rfl
        rw [List.cons_append, decoded_units_plain escape, decoded_units_plain escape,
          ih part (by omega) fun among => unmarked (List.mem_cons_of_mem c among)]
        cases decodedUnits part with
        | none => rfl
        | some units =>
          cases decodedUnits rest with
          | none => rfl
          | some _ => rfl
  exact bounded part.length part (le_refl _) unmarked

theorem slashes_escaped (unmarked : slash ∉ part) {units : List (Byte × Bool)}
    (decoded : decodedUnits part = some units) : ∀ u ∈ units, u.1 = slash → u.2 = true := by
  have bounded : ∀ n (part : List Byte) units, part.length ≤ n → slash ∉ part → decodedUnits part = some units →
      ∀ u ∈ units, u.1 = slash → u.2 = true := by
    intro n
    induction n with
    | zero =>
      intro part units short _ decoded
      rw [List.eq_nil_of_length_eq_zero (Nat.le_zero.mp short)] at decoded
      cases decoded
      exact fun _ among => absurd among List.not_mem_nil
    | succ n ih =>
      intro part units short unmarked decoded
      cases part with
      | nil =>
        cases decoded
        exact fun _ among => absurd among List.not_mem_nil
      | cons c part =>
        rw [List.length_cons] at short
        by_cases escape : c = percent
        · subst escape
          rw [decoded_units_escape] at decoded
          match part, unmarked, short, decoded with
          | a :: b :: later, unmarked, short, decoded =>
            dsimp only at decoded
            cases first : urlHex a with
            | none => rw [first] at decoded; cases decoded
            | some hi =>
              cases second : urlHex b with
              | none => rw [first, second] at decoded; cases decoded
              | some lo =>
                rw [first, second] at decoded
                obtain ⟨more, laterDecoded, rfl⟩ := Option.map_eq_some_iff.mp decoded
                rw [List.length_cons, List.length_cons] at short
                refine List.forall_mem_cons.mpr ⟨fun _ => rfl, ih later more (by omega) ?_ laterDecoded⟩
                intro among
                exact unmarked (List.mem_cons_of_mem _ (List.mem_cons_of_mem _ (List.mem_cons_of_mem _ among)))
        rw [decoded_units_plain escape] at decoded
        obtain ⟨more, laterDecoded, rfl⟩ := Option.map_eq_some_iff.mp decoded
        refine List.forall_mem_cons.mpr ⟨?_, ih part more (by omega) ?_ laterDecoded⟩
        · intro isSlash
          exact absurd (List.mem_cons.mpr (.inl isSlash.symm)) unmarked
        · exact fun among => unmarked (List.mem_cons_of_mem c among)
  exact bounded part.length part units (le_refl _) unmarked decoded

theorem accepted_append (front back : List (Byte × Bool)) : accepted accept (front ++ back) =
      (accepted accept front).bind fun text => (accepted accept back).map fun later => text ++ later := by
  induction front with
  | nil =>
    rw [List.nil_append, accepted, Option.bind_some]
    exact (congrFun Option.map_id (accepted accept back)).symm
  | cons u front ih =>
    rw [List.cons_append, accepted, accepted, ih]
    cases accept u.1 u.2 with
    | none => rfl
    | some c =>
      cases accepted accept front with
      | none => rfl
      | some text =>
        cases accepted accept back with
        | none => rfl
        | some later => rfl

theorem path_byte_some {c byte : Byte} {escaped : Bool} :
    pathByte c escaped = some byte ↔ byte = c ∧ (c = slash → escaped = false) ∧ 0x20 ≤ c.val ∧ c.val ≠ 0x7F ∧ c ≠ backslash := by
  unfold pathByte
  by_cases coded : escaped = true ∧ c = slash
  · rw [if_pos coded]
    apply iff_of_false nofun
    intro wrong
    rw [wrong.2.1 coded.2] at coded
    exact absurd coded.1 nofun
  rw [if_neg coded]
  by_cases refused : c.val < 0x20 ∨ c.val = 0x7F ∨ c = backslash
  · rw [if_pos refused]
    apply iff_of_false nofun
    intro wrong
    obtain ⟨_, _, control, delete_, back⟩ := wrong
    rcases refused with low | same | same
    · omega
    · exact delete_ same
    · exact back same
  rw [if_neg refused]
  obtain ⟨control, refused⟩ := not_or.mp refused
  obtain ⟨delete_, back⟩ := not_or.mp refused
  constructor
  · intro same
    refine ⟨(Option.some.inj same).symm, ?_, by omega, delete_, back⟩
    intro isSlash
    exact Bool.eq_false_iff.mpr fun isEscaped => coded ⟨isEscaped, isSlash⟩
  intro found
  rw [found.1]

theorem accepted_part {text : List Byte} (unmarked : slash ∉ part) :
    (decodedUnits part).bind (accepted pathByte) = some text ↔
      percentDecoded part = some text ∧ ∀ c ∈ text, IsPathByte c := by
  unfold percentDecoded
  cases decoded : decodedUnits part with
  | none => exact iff_of_false nofun fun wrong => nomatch wrong.1
  | some units =>
    have escaped := slashes_escaped unmarked decoded
    rw [Option.bind_some, Option.map_some]
    clear decoded
    induction units generalizing text with
    | nil =>
      rw [accepted, List.map_nil]
      constructor
      · intro same
        refine ⟨same, ?_⟩
        cases same
        exact fun _ among => absurd among List.not_mem_nil
      · exact fun found => found.1
    | cons u units ih =>
      obtain ⟨first, later⟩ := List.forall_mem_cons.mp escaped
      rw [accepted, List.map_cons]
      constructor
      all_goals intro found
      · obtain ⟨c, let_, rest⟩ := Option.bind_eq_some_iff.mp found
        obtain ⟨tail_, tailFound, rfl⟩ := Option.map_eq_some_iff.mp rest
        obtain ⟨rfl, coded, low, delete_, back⟩ := path_byte_some.mp let_
        obtain ⟨same, bytes⟩ := (ih later).mp tailFound
        refine ⟨by rw [Option.some.inj same], List.forall_mem_cons.mpr ⟨⟨?_, low, delete_, back⟩, bytes⟩⟩
        intro isSlash
        exact absurd (first isSlash) (by rw [coded isSlash]; exact nofun)
      obtain ⟨same, bytes⟩ := found
      cases same
      obtain ⟨⟨plain, low, delete_, back⟩, rest⟩ := List.forall_mem_cons.mp bytes
      have let_ : pathByte u.1 u.2 = some u.1 :=
        path_byte_some.mpr ⟨rfl, fun isSlash => absurd isSlash plain, low, delete_, back⟩
      rw [let_, Option.bind_some, (ih later).mpr ⟨rfl, rest⟩]
      rfl

theorem accepted_parts {parts : List (List Byte)} (some_ : parts ≠ []) (unmarked : ∀ part ∈ parts, slash ∉ part) (text : List Byte) :
    (decodedUnits (List.intercalate [slash] parts)).bind (accepted pathByte) = some text ↔
      ∃ segments, parts.map percentDecoded = segments.map some ∧ (∀ segment ∈ segments, ∀ c ∈ segment, IsPathByte c) ∧
        text = List.intercalate [slash] segments := by
  induction parts generalizing text with
  | nil => exact absurd rfl some_
  | cons part parts ih =>
    obtain ⟨first, later⟩ := List.forall_mem_cons.mp unmarked
    cases parts with
    | nil =>
      rw [List.intercalate_singleton, accepted_part first]
      constructor
      all_goals intro found
      · refine ⟨[text], by rw [List.map_singleton, List.map_singleton, found.1], ?_, List.intercalate_singleton.symm⟩
        exact List.forall_mem_singleton.mpr found.2
      obtain ⟨segments, decoded, bytes, rfl⟩ := found
      cases segments with
      | nil => cases decoded
      | cons segment segments =>
        obtain ⟨same, none_⟩ := List.cons.inj decoded
        rw [List.map_eq_nil_iff.mp none_.symm] at bytes ⊢
        rw [List.intercalate_singleton]
        exact ⟨same, bytes segment List.mem_cons_self⟩
    | cons next parts =>
      have slashed : accepted pathByte [(slash, false)] = some [slash] := by decide
      have joined : ∀ units more, accepted pathByte (units ++ (slash, false) :: more) =
          (accepted pathByte units).bind fun front => (accepted pathByte more).map fun back => front ++ slash :: back := by
        intro units more
        have single : (slash, false) :: more = [(slash, false)] ++ more := rfl
        rw [accepted_append, single, accepted_append, slashed]
        cases accepted pathByte units with
        | none => rfl
        | some front =>
          cases accepted pathByte more with
          | none => rfl
          | some back => rfl
      rw [intercalate_cons_mark slash part (List.cons_ne_nil next parts), decoded_units_split _ first]
      constructor
      all_goals intro found
      · obtain ⟨units, both, let_⟩ := Option.bind_eq_some_iff.mp found
        obtain ⟨front, frontUnits, rest⟩ := Option.bind_eq_some_iff.mp both
        obtain ⟨back, backUnits, rfl⟩ := Option.map_eq_some_iff.mp rest
        rw [joined] at let_
        obtain ⟨frontText, frontLet, rest⟩ := Option.bind_eq_some_iff.mp let_
        obtain ⟨backText, backLet, rfl⟩ := Option.map_eq_some_iff.mp rest
        have frontPart : percentDecoded part = some frontText ∧ ∀ c ∈ frontText, IsPathByte c :=
          (accepted_part first).mp (by rw [frontUnits]; exact frontLet)
        have backParts := (ih (List.cons_ne_nil _ _) later backText).mp (by rw [backUnits]; exact backLet)
        obtain ⟨segments, decoded, bytes, rfl⟩ := backParts
        have someSegments : segments ≠ [] := by
          intro none_
          rw [none_] at decoded
          cases decoded
        refine ⟨frontText :: segments, ?_, List.forall_mem_cons.mpr ⟨frontPart.2, bytes⟩,
          (intercalate_cons_mark slash frontText someSegments).symm⟩
        rw [List.map_cons, frontPart.1, decoded, List.map_cons]
      obtain ⟨segments, decoded, bytes, rfl⟩ := found
      cases segments with
      | nil => cases decoded
      | cons segment segments =>
        obtain ⟨same, rest⟩ := List.cons.inj decoded
        obtain ⟨firstBytes, laterBytes⟩ := List.forall_mem_cons.mp bytes
        have someSegments : segments ≠ [] := by
          intro none_
          rw [none_] at rest
          cases rest
        obtain ⟨front, frontUnits, frontLet⟩ := Option.bind_eq_some_iff.mp ((accepted_part first).mpr ⟨same, firstBytes⟩)
        obtain ⟨back, backUnits, backLet⟩ := Option.bind_eq_some_iff.mp
          ((ih (List.cons_ne_nil _ _) later _).mpr ⟨segments, rest, laterBytes, rfl⟩)
        rw [frontUnits, backUnits, intercalate_cons_mark slash segment someSegments]
        dsimp only [Option.bind_some, Option.map_some]
        rw [joined, frontLet, backLet]
        rfl

end ProvenC.Url.Decoding
