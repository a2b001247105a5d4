import ProvenC.Memory.Arena

/-!
# Runs of an arena

What holds over any sequence of requests on one arena: the live blocks are inside its buffer,
aligned, and have no byte in common; and every request leaves the blocks it is not about as they
were.
-/

namespace ProvenC.Memory.Discipline

open Function Bytes Lib.Cells Map.Table Memory.Arena

structure World where
  arena : Arena
  memory : Memory
  live : Nat → Option Live
  next : Nat

inductive Request where
  | alloc (size : Nat)
  | allocAligned (size align : Nat)
  | realloc (handle newSize : Nat)
  | reallocNull (newSize align : Nat)
  | reset
  | write (handle place : Nat) (byte : Byte)
  deriving DecidableEq, Repr

def created (backing : Backing) (memory : Memory) : World :=
  { arena := arenaCreate backing, memory := memory, live := fun _ => none, next := 0 }

def granted (world : World) (align : Nat) (answer : Except ProvenErr Block × Arena) : World :=
  match answer with
  | (.error _, arena) => { world with arena := arena }
  | (.ok block, arena) =>
    { world with
      arena := arena
      live := Function.update world.live world.next (some ⟨block.ptr, block.size, align⟩)
      next := world.next + 1 }

def serve (world : World) : Request → World
  | .alloc size => granted world defaultAlignment (arenaAlloc world.arena size)
  | .allocAligned size align => granted world align (arenaAllocAligned world.arena size align)
  | .realloc handle newSize =>
    match world.live handle with
    | none => world
    | some block =>
      match arenaReallocAligned world.arena world.memory block.start block.size newSize block.align with
      | (.error _, arena, memory) => { world with arena := arena, memory := memory }
      | (.ok fresh, arena, memory) =>
        { world with
          arena := arena
          memory := memory
          live := Function.update world.live handle
            (if newSize = 0 then none else some ⟨fresh.ptr, fresh.size, block.align⟩) }
  | .reallocNull newSize align =>
    match arenaReallocAligned world.arena world.memory 0 0 newSize align with
    | (answer, arena, memory) =>
      if newSize = 0 then { world with arena := arena, memory := memory }
      else granted { world with memory := memory } align (answer, arena)
  | .reset => { world with arena := arenaReset world.arena, live := fun _ => none }
  | .write handle place byte =>
    match world.live handle with
    | none => world
    | some block =>
      if place < block.size then { world with memory := stored world.memory (block.start + place) byte } else world

def run (world : World) (requests : List Request) : World := requests.foldl serve world

structure Disciplined (world : World) : Prop where
  inside : world.arena.offset ≤ world.arena.backing.size
  within : ∀ handle block, world.live handle = some block → Within world.arena block
  apart : ∀ handle other block block', handle ≠ other → world.live handle = some block →
    world.live other = some block' → Apart block.start block.size block'.start block'.size
  fresh : ∀ handle, world.next ≤ handle → world.live handle = none

def Keeps (before after : World) (handle : Nat) : Prop :=
  ∀ block, before.live handle = some block → after.live handle = some block ∧
    ∀ i < block.size, after.memory (block.start + i) = before.memory (block.start + i)

def AnsweredAlloc (before : World) (size align : Nat) (answer : Except ProvenErr Block) (after : World) : Prop :=
  match answer with
  | .error _ => after = before
  | .ok block =>
    block.size = size ∧ after.live before.next = some ⟨block.ptr, size, align⟩ ∧
      before.arena.backing.ptr + before.arena.offset ≤ block.ptr ∧
      block.ptr + size = after.arena.backing.ptr + after.arena.offset ∧ ∀ handle, Keeps before after handle

def Answered (before : World) (request : Request) (after : World) : Prop :=
  match request with
  | .alloc size => AnsweredAlloc before size defaultAlignment (arenaAlloc before.arena size).1 after
  | .allocAligned size align => AnsweredAlloc before size align (arenaAllocAligned before.arena size align).1 after
  | .realloc handle newSize =>
    match before.live handle with
    | none => after = before
    | some block =>
      match (arenaReallocAligned before.arena before.memory block.start block.size newSize block.align).1 with
      | .error _ => after = before
      | .ok fresh =>
        (newSize = 0 → after.live handle = none) ∧
          (0 < newSize → after.live handle = some ⟨fresh.ptr, newSize, block.align⟩ ∧
            ∀ i < min block.size newSize, after.memory (fresh.ptr + i) = before.memory (block.start + i)) ∧
          ∀ other, other ≠ handle → Keeps before after other
  | .reallocNull newSize align =>
    if newSize = 0 then after = before
    else AnsweredAlloc before newSize align (arenaReallocAligned before.arena before.memory 0 0 newSize align).1 after
  | .reset => after.arena.offset = 0 ∧ ∀ handle, after.live handle = none
  | .write handle _ _ => after.arena = before.arena ∧ after.live = before.live ∧
      ∀ other, other ≠ handle → Keeps before after other

variable {world : World}

theorem keeps_refl (world : World) (handle : Nat) : Keeps world world handle := fun _ held => ⟨held, fun _ _ => rfl⟩

variable {block : Live} {arena : Arena}

theorem within_front {after : Arena} (within : Within arena block)
    (backing : after.backing = arena.backing) (front : arena.offset ≤ after.offset) : Within after block := by
  constructor
  · rw [backing]
    exact within.low
  · rw [backing]
    exact le_trans within.high (Nat.add_le_add_left front _)
  · exact within.positive
  · exact within.power
  · exact within.aligned

theorem taken_within {after : Arena} {size align : Nat} {block : Block} (taken : Taken arena size align block after) :
    Within after ⟨block.ptr, size, align⟩ := by
  have behind := taken.behind
  constructor
  · change after.backing.ptr ≤ block.ptr
    rw [taken.backing]
    omega
  · rw [taken.backing]
    exact le_of_eq taken.ends
  · exact taken.positive
  · exact taken.power
  · exact taken.aligned

theorem taken_front {after : Arena} {size align : Nat} {block : Block} (taken : Taken arena size align block after) :
    arena.offset ≤ after.offset := by
  have behind := taken.behind
  have ends := taken.ends
  omega

theorem taken_apart {after : Arena} {size align : Nat} {block : Block} {held : Live}
    (taken : Taken arena size align block after) (within : Within arena held) :
    Apart held.start held.size block.ptr size :=
  Or.inl (le_trans within.high taken.behind)

theorem disciplined_put {after : Arena} {memory : Memory} {handle next : Nat} (disciplined : Disciplined world)
    (inside : after.offset ≤ after.backing.size) (within : Within after block)
    (others : ∀ other held, other ≠ handle → world.live other = some held →
      Within after held ∧ Apart held.start held.size block.start block.size)
    (known : handle < next) (later : world.next ≤ next) :
    Disciplined { arena := after, memory := memory
                  live := Function.update world.live handle (some block), next := next } := by
  constructor
  · exact inside
  · intro other held here
    dsimp only at here
    by_cases same : other = handle
    · subst same
      rw [update_self] at here
      obtain rfl := Option.some.inj here
      exact within
    rw [update_of_ne same] at here
    exact (others other held same here).1
  · intro first second held held' distinct here there
    dsimp only at here there
    by_cases same : first = handle
    · subst same
      rw [update_self] at here
      rw [update_of_ne (Ne.symm distinct)] at there
      obtain rfl := Option.some.inj here
      exact apart_symm (others second held' (Ne.symm distinct) there).2
    rw [update_of_ne same] at here
    by_cases same' : second = handle
    · subst same'
      rw [update_self] at there
      obtain rfl := Option.some.inj there
      exact (others first held same here).2
    rw [update_of_ne same'] at there
    exact disciplined.apart first second held held' distinct here there
  intro other beyond
  change next ≤ other at beyond
  change Function.update world.live handle (some block) other = none
  rw [update_of_ne (by omega)]
  exact disciplined.fresh other (by omega)

theorem alloc_served (disciplined : Disciplined world) (size align : Nat) :
    Disciplined (granted world align (arenaAllocAligned world.arena size align)) ∧
      AnsweredAlloc world size align (arenaAllocAligned world.arena size align).1
        (granted world align (arenaAllocAligned world.arena size align)) := by
  rcases alloc_cases world.arena size align with ⟨err, failed⟩ | ⟨block, after, done, taken⟩
  · rw [failed]
    exact ⟨disciplined, rfl⟩
  rw [done]
  have new : world.live world.next = none := disciplined.fresh world.next (le_refl _)
  unfold granted AnsweredAlloc
  dsimp only
  rw [taken.whole]
  refine ⟨?_, rfl, update_self .., taken.behind, ?_, ?_⟩
  · apply disciplined_put disciplined
    · rw [taken.backing]
      exact taken.inside
    · exact taken_within taken
    · intro other held _ here
      have within := disciplined.within other held here
      exact ⟨within_front within taken.backing (taken_front taken), taken_apart taken within⟩
    · exact Nat.lt_succ_self _
    · exact Nat.le_succ _
  · rw [taken.backing]
    exact taken.ends
  intro handle held here
  have old : handle ≠ world.next := by
    intro same
    rw [same, new] at here
    cases here
  exact ⟨(update_of_ne old _ _).trans here, fun _ _ => rfl⟩

theorem resized_others {after : Arena} {held : Live} {newSize : Nat} (resized : Resized arena block newSize after)
    (within : Within arena block) (other : Within arena held)
    (apart : Apart held.start held.size block.start block.size) :
    Within after held ∧ Apart held.start held.size block.start newSize := by
  have high := other.high
  have positive := other.positive
  have positive' := within.positive
  rcases resized.front with ⟨tail, front⟩ | ⟨less, same⟩
  · have before : held.start + held.size ≤ block.start := by
      rcases apart with before | behind
      · exact before
      · omega
    refine ⟨⟨?_, ?_, positive, other.power, other.aligned⟩, Or.inl before⟩
    · rw [resized.backing]
      exact other.low
    rw [resized.backing, ← front]
    omega
  rw [same]
  exact ⟨other, apart_within apart (le_refl _) (le_refl _) (le_refl _) (by omega)⟩

theorem resized_within {after : Arena} {newSize : Nat} (resized : Resized arena block newSize after)
    (within : Within arena block) (positive : 0 < newSize) : Within after ⟨block.start, newSize, block.align⟩ := by
  refine ⟨?_, ?_, positive, within.power, within.aligned⟩
  · rw [resized.backing]
    exact within.low
  rw [resized.backing]
  change block.start + newSize ≤ arena.backing.ptr + after.offset
  have high := within.high
  rcases resized.front with ⟨_, front⟩ | ⟨less, same⟩
  · exact le_of_eq front
  rw [same]
  omega

theorem disciplined_drop {handle : Nat} (disciplined : Disciplined world) :
    Disciplined { world with live := Function.update world.live handle none } := by
  have kept (other : Nat) (held : Live) (here : Function.update world.live handle none other = some held) :
      world.live other = some held := by
    by_cases same : other = handle
    · rw [same, update_self] at here
      cases here
    rw [update_of_ne same] at here
    exact here
  constructor
  · exact disciplined.inside
  · exact fun other held here => disciplined.within other held (kept other held here)
  · exact fun first second held held' distinct here there =>
      disciplined.apart first second held held' distinct (kept first held here) (kept second held' there)
  intro other beyond
  by_cases same : other = handle
  · rw [same]
    exact update_self ..
  · exact (update_of_ne same _ _).trans (disciplined.fresh other beyond)

theorem realloc_served (disciplined : Disciplined world) (handle newSize : Nat) :
    Disciplined (serve world (.realloc handle newSize)) ∧
      Answered world (.realloc handle newSize) (serve world (.realloc handle newSize)) := by
  unfold serve Answered
  dsimp only
  cases here : world.live handle with
  | none => exact ⟨disciplined, rfl⟩
  | some block =>
    have within := disciplined.within handle block here
    have known : handle < world.next := by
      by_contra beyond
      rw [disciplined.fresh handle (not_lt.mp beyond)] at here
      cases here
    have apart (other : Nat) (held : Live) (distinct : other ≠ handle) (there : world.live other = some held) :
        Apart held.start held.size block.start block.size :=
      disciplined.apart other handle held block distinct there here
    dsimp only
    rcases realloc_cases within disciplined.inside world.memory newSize with
      ⟨err, failed⟩ | ⟨none_, dropped⟩ | ⟨some_, after, done, resized⟩ | ⟨more, fresh, after, done, taken⟩
    · rw [failed]
      exact ⟨disciplined, rfl⟩
    · rw [dropped]
      dsimp only
      rw [if_pos none_]
      refine ⟨disciplined_drop disciplined, fun _ => update_self .., fun some_ => by omega, ?_⟩
      intro other distinct held there
      exact ⟨(update_of_ne distinct _ _).trans there, fun _ _ => rfl⟩
    · rw [done]
      dsimp only
      rw [if_neg (by omega)]
      refine ⟨?_, fun none_ => by omega, fun _ => ⟨update_self .., fun _ _ => rfl⟩, ?_⟩
      · apply disciplined_put disciplined
        · rw [resized.backing]
          exact resized.inside
        · exact resized_within resized within some_
        · intro other held distinct there
          have others := resized_others resized within (disciplined.within other held there)
            (apart other held distinct there)
          exact others
        · exact known
        · exact le_refl _
      intro other distinct held there
      exact ⟨(update_of_ne distinct _ _).trans there, fun _ _ => rfl⟩
    rw [done]
    dsimp only
    rw [if_neg (by omega), taken.whole]
    have behind := taken.behind
    refine ⟨?_, fun none_ => by omega, fun _ => ⟨update_self .., fun i inside => ?_⟩, ?_⟩
    · apply disciplined_put disciplined
      · rw [taken.backing]
        exact taken.inside
      · exact taken_within taken
      · intro other held distinct there
        have held_ := disciplined.within other held there
        exact ⟨within_front held_ taken.backing (taken_front taken), taken_apart taken held_⟩
      · exact known
      · exact le_refl _
    · exact moved_inside (by omega)
    intro other distinct held there
    have high := (disciplined.within other held there).high
    refine ⟨(update_of_ne distinct _ _).trans there, fun i inside => ?_⟩
    exact moved_apart (Or.inr (by omega)) inside

theorem null_realloc (world : World) {newSize : Nat} (some_ : 0 < newSize) (align : Nat) :
    arenaReallocAligned world.arena world.memory 0 0 newSize align =
      ((arenaAllocAligned world.arena newSize align).1, (arenaAllocAligned world.arena newSize align).2, world.memory) := by
  have same : arenaAllocAligned world.arena newSize align =
      ((arenaAllocAligned world.arena newSize align).1, (arenaAllocAligned world.arena newSize align).2) := rfl
  unfold arenaReallocAligned
  split
  next base =>
    unfold arenaAllocAligned
    rw [if_pos base]
  rename_i base
  split
  next power =>
    unfold arenaAllocAligned
    rw [if_neg base, if_pos power]
  · rw [if_neg (by omega), if_pos rfl]

theorem served (disciplined : Disciplined world) (request : Request) :
    Disciplined (serve world request) ∧ Answered world request (serve world request) := by
  cases request with
  | alloc size => exact alloc_served disciplined size defaultAlignment
  | allocAligned size align => exact alloc_served disciplined size align
  | realloc handle newSize => exact realloc_served disciplined handle newSize
  | reallocNull newSize align =>
    unfold serve Answered
    dsimp only
    by_cases none_ : newSize = 0
    · rw [if_pos none_, if_pos none_, none_]
      have same : arenaReallocAligned world.arena world.memory 0 0 0 align = ((arenaReallocAligned world.arena
          world.memory 0 0 0 align).1, world.arena, world.memory) := by
        unfold arenaReallocAligned
        split
        · rfl
        split
        · rfl
        · rw [if_pos rfl]
      rw [same]
      exact ⟨disciplined, rfl⟩
    rw [if_neg none_, if_neg none_, null_realloc world (Nat.pos_of_ne_zero none_)]
    exact alloc_served disciplined newSize align
  | reset =>
    refine ⟨⟨Nat.zero_le _, ?_, ?_, fun _ _ => rfl⟩, rfl, fun _ => rfl⟩
    · intro handle block here
      cases here
    intro handle other block block' _ here
    cases here
  | write handle place byte =>
    unfold serve Answered
    dsimp only
    cases here : world.live handle with
    | none => exact ⟨disciplined, rfl, rfl, fun other _ => keeps_refl world other⟩
    | some block =>
      dsimp only
      split
      next inside =>
        refine ⟨⟨disciplined.inside, disciplined.within, disciplined.apart, disciplined.fresh⟩, rfl, rfl, ?_⟩
        intro other distinct held there
        refine ⟨there, fun i within => ?_⟩
        have apart := disciplined.apart other handle held block distinct there here
        apply update_of_ne
        rcases apart with before | behind
        · omega
        · omega
      · exact ⟨disciplined, rfl, rfl, fun other _ => keeps_refl world other⟩

theorem run_disciplined (backing : Backing) (memory : Memory) (requests : List Request) :
    Disciplined (run (created backing memory) requests) := by
  have kept (world : World) (disciplined : Disciplined world) : Disciplined (run world requests) := by
    induction requests generalizing world with
    | nil => exact disciplined
    | cons request requests ih => exact ih _ (served disciplined request).1
  apply kept
  constructor
  · exact Nat.zero_le _
  · intro handle block here
    cases here
  · intro handle other block block' _ here
    cases here
  · exact fun _ _ => rfl

/-- At every time of every run the live blocks are inside the buffer, aligned and apart, and the
next request, whatever it is, is answered without touching a block it is not about. -/
theorem arena_disciplined (backing : Backing) (memory : Memory) (requests : List Request) (request : Request) :
    let world := run (created backing memory) requests
    Disciplined world ∧ Disciplined (serve world request) ∧ Answered world request (serve world request) :=
  ⟨run_disciplined backing memory requests, served (run_disciplined backing memory requests) request⟩

end ProvenC.Memory.Discipline
