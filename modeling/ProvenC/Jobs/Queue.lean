import Mathlib

/-!
# The job queue

`job.c`: a bounded ring of cells shared by submitters and executors, a word that says whether
submissions are closed and how many are in progress, and workers that drain the ring each time the
semaphore lets them.
-/

namespace ProvenC.Jobs.Queue

/-- `PROVEN_JOB_SEQ_SIGN_BIT` of a `proven_size_t` of so many bits, also `PROVEN_JOB_ADMISSION_CLOSED`. -/
def signBit (bits : ℕ) : ℕ := 2 ^ (bits - 1)

def maxCapacity (bits : ℕ) : ℕ := signBit bits / 2

/-- `PROVEN_JOB_ADMISSION_ACTIVE_MASK`: every bit but the closed one. -/
def activeMask (bits : ℕ) : ℕ := 2 ^ (bits - 1) - 1

/-- `word + 1` in the counter type. -/
def up (bits word : ℕ) : ℕ := (word + 1) % 2 ^ bits

/-- `word - 1` in the counter type. -/
def down (bits word : ℕ) : ℕ := (word + 2 ^ bits - 1) % 2 ^ bits

inductive CellState where
  | ready
  | behind
  | ahead
deriving DecidableEq

def cellState (bits seq pos : ℕ) : CellState :=
  let distance := (seq + 2 ^ bits - pos) % 2 ^ bits
  if distance = 0 then .ready
  else if distance &&& signBit bits ≠ 0 then .behind
  else .ahead

structure Job where
  routine : Option ℕ
  arg : ℕ
  group : Option ℕ
deriving DecidableEq

structure Cell where
  sequence : ℕ
  job : Job

/-- Where a `job_submit` stands, a group's submission around it. -/
inductive Submit where
  | counting (group : ℕ)
  | entering
  | admitting (state : ℕ)
  | positioning
  | comparing (pos : ℕ)
  | claiming (pos : ℕ)
  | writing (pos : ℕ)
  | publishing (pos : ℕ)
  | posting
  | leaving
  | refusing
  | uncounting (group : ℕ)
deriving DecidableEq

/-- Where a `proven_job_execute_one` stands. -/
inductive Execute where
  | seeking
  | matching (pos : ℕ)
  | taking (pos : ℕ)
  | reading (pos : ℕ)
  | releasing (pos : ℕ) (job : Job)
  | running (job : Job)
  | finishing (job : Job)
deriving DecidableEq

inductive Caller where
  | outside
  | draining
  | last
deriving DecidableEq

inductive Place where
  | idle
  | submitting (job : Job) (line : Submit)
  | executing (caller : Caller) (line : Execute)
  | closing
  | awaiting (first : Bool)
  | waking (count : ℕ)
  | parked
  | asking
  | polling
  | handing
  | gone
deriving DecidableEq

/-- `pending` counts calls in progress and cells in use, which never fill the memory a word can
address, so it is a number; the positions and the admission word are words. -/
structure Sys (Thread : Type*) where
  bufferMask : ℕ
  buffer : ℕ → Cell
  enqueuePos : ℕ
  dequeuePos : ℕ
  admissionState : ℕ
  workReady : ℕ
  numThreads : ℕ
  pending : ℕ → ℕ
  place : Thread → Place

inductive Event where
  | quiet
  | began
  | counted (group : ℕ)
  | admitted
  | aimed
  | fitted
  | dropped
  | claimed (job : Job)
  | wrote (job : Job)
  | published
  | accepted (job : Job)
  | departed
  | uncounted (group : ℕ)
  | sought
  | spotted
  | took
  | read (job : Job)
  | released
  | finished (job : Job)

inductive Act where
  | go
  | weak
  | submit (job : Job)
  | execute
  | close
deriving DecidableEq

variable {Thread : Type*} [DecidableEq Thread]

namespace Sys

def moved (sys : Sys Thread) (thread : Thread) (place : Place) : Sys Thread :=
  { sys with place := Function.update sys.place thread place }

def cell (sys : Sys Thread) (pos : ℕ) : Cell := sys.buffer (pos &&& sys.bufferMask)

def storeSequence (sys : Sys Thread) (pos value : ℕ) : Sys Thread :=
  { sys with buffer := Function.update sys.buffer (pos &&& sys.bufferMask) { sys.cell pos with sequence := value } }

def storeJob (sys : Sys Thread) (pos : ℕ) (job : Job) : Sys Thread :=
  { sys with buffer := Function.update sys.buffer (pos &&& sys.bufferMask) { sys.cell pos with job := job } }

def setEnqueue (sys : Sys Thread) (pos : ℕ) : Sys Thread := { sys with enqueuePos := pos }

def setDequeue (sys : Sys Thread) (pos : ℕ) : Sys Thread := { sys with dequeuePos := pos }

def setAdmission (sys : Sys Thread) (state : ℕ) : Sys Thread := { sys with admissionState := state }

def setPending (sys : Sys Thread) (group count : ℕ) : Sys Thread :=
  { sys with pending := Function.update sys.pending group count }

def setReady (sys : Sys Thread) (permits : ℕ) : Sys Thread := { sys with workReady := permits }

end Sys

def afterRefusal (job : Job) : Place :=
  match job.group with
  | none => .idle
  | some group => .submitting job (.uncounting group)

def submitStep (bits : ℕ) (sys : Sys Thread) (thread : Thread) (weak : Bool) (job : Job) : Submit → Sys Thread × Event
  | .counting group =>
    ((sys.setPending group (sys.pending group + 1)).moved thread (.submitting job .entering), .counted group)
  -- proven_job_begin_submit
  | .entering => (sys.moved thread (.submitting job (.admitting sys.admissionState)), .quiet)
  | .admitting state =>
    if state &&& signBit bits ≠ 0 then (sys.moved thread (afterRefusal job), .quiet)
    else if state &&& activeMask bits = activeMask bits then (sys.moved thread (afterRefusal job), .quiet)
    else if weak = false ∧ sys.admissionState = state then
      ((sys.setAdmission (up bits state)).moved thread (.submitting job .positioning), .admitted)
    else (sys.moved thread (.submitting job (.admitting sys.admissionState)), .quiet)
  | .positioning => (sys.moved thread (.submitting job (.comparing sys.enqueuePos)), .aimed)
  | .comparing pos =>
    match cellState bits (sys.cell pos).sequence pos with
    | .ready => (sys.moved thread (.submitting job (.claiming pos)), .fitted)
    | .behind => (sys.moved thread (.submitting job .refusing), .dropped)
    | .ahead => (sys.moved thread (.submitting job .positioning), .dropped)
  | .claiming pos =>
    if weak = false ∧ sys.enqueuePos = pos then
      ((sys.setEnqueue (up bits pos)).moved thread (.submitting job (.writing pos)), .claimed job)
    else (sys.moved thread (.submitting job (.comparing sys.enqueuePos)), .aimed)
  -- the plain stores of the routine, the argument and the group
  | .writing pos => ((sys.storeJob pos job).moved thread (.submitting job (.publishing pos)), .wrote job)
  | .publishing pos =>
    ((sys.storeSequence pos (up bits pos)).moved thread (.submitting job .posting), .published)
  | .posting => ((sys.setReady (sys.workReady + 1)).moved thread (.submitting job .leaving), .quiet)
  -- proven_job_end_submit, and PROVEN_OK
  | .leaving => ((sys.setAdmission (down bits sys.admissionState)).moved thread .idle, .accepted job)
  -- proven_job_end_submit, and PROVEN_ERR_AGAIN
  | .refusing => ((sys.setAdmission (down bits sys.admissionState)).moved thread (afterRefusal job), .departed)
  | .uncounting group => ((sys.setPending group (sys.pending group - 1)).moved thread .idle, .uncounted group)

/-- Where the caller of `proven_job_execute_one` goes on. -/
def afterExecute : Caller → Bool → Place
  | .outside, _ => .idle
  | .draining, true => .executing .draining .seeking
  | .draining, false => .asking
  | .last, true => .parked
  | .last, false => .handing

def executeStep (bits : ℕ) (sys : Sys Thread) (thread : Thread) (weak : Bool) (caller : Caller) :
    Execute → Sys Thread × Event
  | .seeking => (sys.moved thread (.executing caller (.matching sys.dequeuePos)), .sought)
  | .matching pos =>
    match cellState bits (sys.cell pos).sequence (up bits pos) with
    | .ready => (sys.moved thread (.executing caller (.taking pos)), .spotted)
    | .behind => (sys.moved thread (afterExecute caller false), .dropped)
    | .ahead => (sys.moved thread (.executing caller .seeking), .dropped)
  | .taking pos =>
    if weak = false ∧ sys.dequeuePos = pos then
      ((sys.setDequeue (up bits pos)).moved thread (.executing caller (.reading pos)), .took)
    else (sys.moved thread (.executing caller (.matching sys.dequeuePos)), .sought)
  | .reading pos =>
    (sys.moved thread (.executing caller (.releasing pos (sys.cell pos).job)), .read (sys.cell pos).job)
  | .releasing pos job =>
    ((sys.storeSequence pos ((pos + sys.bufferMask + 1) % 2 ^ bits)).moved thread
      (.executing caller (.running job)), .released)
  -- the routine runs, if there is one
  | .running job => (sys.moved thread (.executing caller (.finishing job)), .quiet)
  | .finishing job =>
    match job.group with
    | none => (sys.moved thread (afterExecute caller true), .finished job)
    | some group =>
      ((sys.setPending group (sys.pending group - 1)).moved thread (afterExecute caller true), .finished job)

def closeStep (bits : ℕ) (sys : Sys Thread) (thread : Thread) : Sys Thread :=
  (sys.setAdmission (sys.admissionState ||| signBit bits)).moved thread
    (.awaiting (sys.admissionState &&& signBit bits = 0))

def awaitStep (bits : ℕ) (sys : Sys Thread) (thread : Thread) (first : Bool) : Sys Thread :=
  if sys.admissionState &&& activeMask bits ≠ 0 then sys
  else if first then sys.moved thread (.waking 0)
  else sys.moved thread .idle

def wakeStep (sys : Sys Thread) (thread : Thread) (count : ℕ) : Sys Thread :=
  if count < sys.numThreads then (sys.setReady (sys.workReady + 1)).moved thread (.waking (count + 1))
  else sys.moved thread .idle

/-- `proven_sys_semaphore_wait`: a worker stays parked while there is no permit. -/
def parkStep (sys : Sys Thread) (thread : Thread) : Sys Thread × Event :=
  if 0 < sys.workReady then
    ((sys.setReady (sys.workReady - 1)).moved thread (.executing .draining .seeking), .began)
  else (sys, .quiet)

/-- `proven_job_is_closed` after the drain. -/
def askStep (bits : ℕ) (sys : Sys Thread) (thread : Thread) : Sys Thread :=
  if sys.admissionState &&& signBit bits ≠ 0 then sys.moved thread .polling else sys.moved thread .parked

/-- `proven_job_active_submitters`, and the last look if there is none. -/
def pollStep (bits : ℕ) (sys : Sys Thread) (thread : Thread) : Sys Thread × Event :=
  if sys.admissionState &&& activeMask bits = 0 then (sys.moved thread (.executing .last .seeking), .began)
  else (sys.moved thread .parked, .quiet)

def callStep (sys : Sys Thread) (thread : Thread) : Act → Sys Thread × Event
  | .submit job =>
    match job.group with
    | none => (sys.moved thread (.submitting job .entering), .began)
    | some group => (sys.moved thread (.submitting job (.counting group)), .began)
  | .execute => (sys.moved thread (.executing .outside .seeking), .began)
  | .close => (sys.moved thread .closing, .quiet)
  | .go | .weak => (sys, .quiet)

def step (bits : ℕ) (sys : Sys Thread) (thread : Thread) (act : Act) : Sys Thread × Event :=
  match sys.place thread with
  | .idle => callStep sys thread act
  | .submitting job line => submitStep bits sys thread (act = .weak) job line
  | .executing caller line => executeStep bits sys thread (act = .weak) caller line
  | .closing => (closeStep bits sys thread, .quiet)
  | .awaiting first => (awaitStep bits sys thread first, .quiet)
  | .waking count => (wakeStep sys thread count, .quiet)
  | .parked => parkStep sys thread
  | .asking => (askStep bits sys thread, .quiet)
  | .polling => pollStep bits sys thread
  | .handing => ((sys.setReady (sys.workReady + 1)).moved thread .gone, .quiet)
  | .gone => (sys, .quiet)

def newSys (workers : Finset Thread) (capacity : ℕ) : Sys Thread where
  bufferMask := capacity - 1
  buffer := fun i => { sequence := i, job := { routine := none, arg := 0, group := none } }
  enqueuePos := 0
  dequeuePos := 0
  admissionState := 0
  workReady := 0
  numThreads := workers.card
  pending := fun _ => 0
  place := fun thread => if thread ∈ workers then .parked else .idle

/-- `proven_job_system_init`, given the memory and the threads it asks for. -/
def jobSystemInit (bits : ℕ) (workers : Finset Thread) (capacity : ℕ) : Option (Sys Thread) :=
  if capacity < 2 ∨ capacity &&& (capacity - 1) ≠ 0 ∨ workers.card = 0 then none
  else if capacity > maxCapacity bits then none
  else some (newSys workers capacity)

end ProvenC.Jobs.Queue
