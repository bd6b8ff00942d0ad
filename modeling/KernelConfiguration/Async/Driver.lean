import Mathlib.Data.Int.Notation
import Mathlib.Data.List.Basic
import KernelConfiguration.Async.Modules
import KernelConfiguration.Runs

/-!
# The driver: one thread and any number of readers

`drivers/async.c` splits the initcalls of the registration table between two
consumers. The thread `do_asynchronized`, started by `async_init`, walks the
table once and calls the entries of type `asynchronized`. The device
`/proc/deferred_initcalls` lets user clients call the others: the first
`device_open` latches `init_done` and gets a cursor at the start of the table,
and each `device_read` moves the cursor to the next entry of type `deferred`,
calls it, and answers its name.

The model is a system in the sense of `KernelConfiguration.Reach`. Its state
holds the two atomic variables of the source, the program counter of the thread,
the open files with their `private_data`, and one activation record for every
call of `device_read` ever made. An action moves one party by one step, and a
step is a piece of the source between two points where another party can come in
between: the start and the return of an initcall are different steps, and so are
the decrement of `free_init_ref` and the call of `free_initmem` it leads to.
Nothing serialises the reads of one file, since the driver does not.

Every step that reads a field of a table entry, starts or finishes an initcall,
or touches the init memory leaves an event in the history, latest first.
-/

namespace KernelConfiguration

/-! ### The registration table -/

/-- An entry of the registration table (`init_fn_t_4`). -/
structure InitFn where
  /-- The module that registered. -/
  id : ModulesE
  /-- The address of its initcall. -/
  fnc : ℕ
  deriving DecidableEq, Repr

/-- **The registration table**: the array between `__async_initcall_start` and
`__async_initcall_end`, in link order. -/
abbrev Table := List InitFn

/-- A table of three entries: an asynchronized one, a deferred one that names it
as its parent, and a disabled one. -/
def acpiTable : Table := [⟨.acpiAcInit, 1⟩, ⟨.acpiPccDriver, 2⟩, ⟨.alsaSoundLastInit, 3⟩]

/-- The task type of the entry at position `i`, if the table is that long. -/
def typeAt (T : Table) (i : ℕ) : Option TaskType := T[i]?.map fun e => (initInfo e.id).type

/-! ### The state -/

/-- What a step leaves in the history. -/
inductive Event where
  /-- The `id` field of entry `i` is read. -/
  | loadId (i : ℕ)
  /-- The `fnc` field of entry `i` is read and the initcall starts. -/
  | callStart (i : ℕ)
  /-- The initcall of entry `i` returns. -/
  | callReturn (i : ℕ)
  /-- `do_asynchronized` returns. -/
  | threadReturn
  /-- `free_init_ref` is decremented. -/
  | decRef
  /-- `free_initmem` is called. -/
  | freeInitmem
  deriving DecidableEq, Repr

/-- Where the thread is in `do_asynchronized`. -/
inductive ThreadPc where
  /-- The thread has not been created. -/
  | absent
  /-- At the test of the `for` loop, with `it_init_fnc` at position `i`. -/
  | loop (i : ℕ)
  /-- About to call the initcall of entry `i`. -/
  | call (i : ℕ)
  /-- Inside the initcall of entry `i`. -/
  | inCall (i : ℕ)
  /-- The thread function has returned. -/
  | returned
  deriving DecidableEq, Repr

/-- Where a call of `device_read` is. -/
inductive ReadPc where
  /-- At the test of the `while` loop, with `it_init_fnc` at position `i`. -/
  | scan (i : ℕ)
  /-- About to call the initcall of entry `i`. -/
  | call (i : ℕ)
  /-- Inside the initcall of entry `i`. -/
  | inCall (i : ℕ)
  /-- Back from the initcall of entry `i`; the cursor is still to be stored. -/
  | store (i : ℕ)
  /-- At the decrement of the end-of-list branch. -/
  | decRef
  /-- The decrement gave zero; about to call `free_initmem`. -/
  | free
  /-- The call has returned, with these bytes in the buffer of the client. -/
  | done (text : List Char)
  deriving DecidableEq, Repr

/-- An activation of `device_read`. -/
structure Read where
  /-- The index of the file read. -/
  file : ℕ
  /-- The size of the client's buffer. -/
  nbytes : ℕ
  /-- Where the call is. -/
  pc : ReadPc
  deriving DecidableEq, Repr

/-- A file whose `open` succeeded. -/
structure File where
  /-- The position `private_data` points at. -/
  privateData : ℕ
  /-- Whether a client still holds the file. -/
  isOpen : Bool
  deriving DecidableEq, Repr

/-- The state of the driver and of its clients. -/
structure State where
  /-- The latch `init_done`. -/
  initDone : ℕ
  /-- The reference count `free_init_ref`. -/
  freeInitRef : BitVec 32
  /-- The thread of `async_init`. -/
  thread : ThreadPc
  /-- The files ever opened successfully. -/
  files : List File
  /-- The calls of `device_read` ever made. -/
  reads : List Read
  /-- What has happened, latest first. -/
  log : List Event
  deriving DecidableEq, Repr

/-- The state in which the kernel reaches `async_init`: the patch to
`init/main.c` starts `free_init_ref` at one and no longer frees. -/
def bootState : State where
  initDone := 0
  freeInitRef := 1
  thread := .absent
  files := []
  reads := []
  log := []

/-- **The entry point of the driver** (`async_init`), with the thread created:
two references are taken, the thread is woken, and the device is registered. -/
def asyncInit (s : State) : State :=
  { s with freeInitRef := s.freeInitRef + 1 + 1, thread := .loop 0 }

/-! ### Opening and reading the device -/

/-- The error number of an invalid argument. -/
def einval : ℤ := 22

/-- **Opening the device** (`device_open`): the latch is exchanged for one, and
only the call that finds it clear gets a file, with its cursor at the start of
the table. -/
def deviceOpen (s : State) : State × ℤ :=
  let old := s.initDone
  let s := { s with initDone := 1 }
  if old = 1 then (s, -einval) else ({ s with files := s.files ++ [⟨0, true⟩] }, 0)

/-- **What a read leaves in the buffer of the client**: the name with its
terminator, cut at the size of the buffer, the last byte overwritten by a newline
when there is more than one. An empty name is answered as a dot. -/
def readText (initcallName : List Char) (nbytes : ℕ) : List Char :=
  let initcallName := if initcallName = [] then ['.'] else initcallName
  if nbytes ≠ 0 then
    let count := min (initcallName.length + 1) nbytes
    let buf := (initcallName ++ ['\x00']).take count
    if count > 1 then buf.set (count - 1) '\n' else buf
  else []

/-! ### The steps -/

/-- What an action asks of which party. -/
inductive Action where
  /-- The thread takes its next step. -/
  | thread
  /-- Some client calls `device_open`. -/
  | openDevice
  /-- Some client calls `device_read` on the file `f` with a buffer of `nbytes`. -/
  | read (f nbytes : ℕ)
  /-- The call number `r` of `device_read` takes its next step. -/
  | resume (r : ℕ)
  /-- The last holder of the file `f` closes it. -/
  | close (f : ℕ)
  deriving DecidableEq, Repr

/-- One step of `do_asynchronized`. -/
def stepThread (T : Table) (s : State) : Option State :=
  match s.thread with
  | .absent => none
  | .loop i =>
    match T[i]? with
    | none => some { s with thread := .returned, log := .threadReturn :: s.log }
    | some e =>
      if (initInfo e.id).type = .asynchronized then
        some { s with thread := .call i, log := .loadId i :: s.log }
      else some { s with thread := .loop (i + 1), log := .loadId i :: s.log }
  | .call i => some { s with thread := .inCall i, log := .callStart i :: s.log }
  | .inCall i => some { s with thread := .loop (i + 1), log := .callReturn i :: s.log }
  | .returned => none

/-- The call number `r` of `device_read`, now `a`, goes on at `pc`. -/
def State.goto (s : State) (r : ℕ) (a : Read) (pc : ReadPc) : State :=
  { s with reads := s.reads.set r { a with pc := pc } }

/-- The event `e` happens. -/
def State.emit (s : State) (e : Event) : State := { s with log := e :: s.log }

/-- One step of a call of `device_read`. -/
def stepRead (T : Table) (s : State) (r : ℕ) (a : Read) : Option State :=
  match a.pc with
  | .scan i =>
    match T[i]? with
    | some e =>
      if (initInfo e.id).type ≠ .deferred then some ((s.emit (.loadId i)).goto r a (.scan (i + 1)))
      else some ((s.emit (.loadId i)).goto r a (.call i))
    -- the loop has ended at or past the end of the table
    | none => if i ≠ T.length then some (s.goto r a (.call i)) else some (s.goto r a .decRef)
  | .call i => some ((s.emit (.callStart i)).goto r a (.inCall i))
  | .inCall i => some ((s.emit (.callReturn i)).goto r a (.store i))
  | .store i =>
    -- the name is looked up through the `id` field, and the advanced cursor is stored
    (T[i]?).map fun e =>
      { (s.emit (.loadId i)).goto r a (.done (readText (getName e.id).toList a.nbytes)) with
        files := s.files.modify a.file fun f => { f with privateData := i + 1 } }
  | .decRef =>
    let s' : State := { s.emit .decRef with freeInitRef := s.freeInitRef - 1 }
    if s'.freeInitRef = 0 then some (s'.goto r a .free) else some (s'.goto r a (.done []))
  | .free => some ((s.emit .freeInitmem).goto r a (.done []))
  | .done _ => none

/-- Whether the call has returned. -/
def Read.isDone (a : Read) : Bool :=
  match a.pc with
  | .done _ => true
  | _ => false

/-- **One step of the system.** A file can be read while some client holds it,
and its last holder can only let it go when no read of it is under way. The
driver has no release handler, so closing changes nothing else. -/
def step (T : Table) (s : State) : Action → Option State
  | .thread => stepThread T s
  | .openDevice => some (deviceOpen s).1
  | .read f nbytes =>
    match s.files[f]? with
    | some file =>
      if file.isOpen then some { s with reads := s.reads ++ [⟨f, nbytes, .scan file.privateData⟩] }
      else none
    | none => none
  | .resume r =>
    match s.reads[r]? with
    | some a => stepRead T s r a
    | none => none
  | .close f =>
    match s.files[f]? with
    | some file =>
      if file.isOpen ∧ ∀ a ∈ s.reads, a.file = f → a.isDone then
        some { s with files := s.files.modify f fun file => { file with isOpen := false } }
      else none
    | none => none

/-- **The reachable states**: those of all runs that start behind `async_init`,
under a guard on their steps. -/
abbrev Reachable (T : Table) (ok : State → Action → Prop) : State → Prop :=
  Reach (step T) ok (asyncInit bootState)

/-- The guard of all runs. -/
abbrev anyStep : State → Action → Prop := fun _ _ => True

end KernelConfiguration
