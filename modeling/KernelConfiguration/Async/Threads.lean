import Mathlib.Data.List.Basic

/-!
# Starting the threads

`start_threads` starts one working thread per processor, and calls the thread
function itself when a thread cannot be created. `async_init` starts the one thread
that the driver needs.

`kthread_create` answers a pointer to a thread, or an error number that is encoded
in the pointer, and what is done with such a pointer is up to the caller.
`start_threads` compares it with the encoding of one error number only, and
`async_init` with none, so that either binds and wakes up what is not a thread. The
work is done in the end exactly when `start_threads` meets no other error
(`KernelConfiguration.startThreads_iff`) and `async_init` meets none at all.
-/

namespace KernelConfiguration

/-! ### Pointers that carry errors -/

/-- **An error number that a pointer can carry**, which is at most `MAX_ERRNO`. -/
structure Errno where
  /-- The number. -/
  val : ℕ
  /-- It is not zero. -/
  pos : 0 < val
  /-- It does not reach into the addresses that are in use. -/
  le_max : val ≤ 4095
  deriving DecidableEq

/-- Out of memory. -/
def enomem : Errno := ⟨12, by decide, by decide⟩

/-- Interrupted, which `kthread_create` answers when the caller is killed. -/
def eintr : Errno := ⟨4, by decide, by decide⟩

/-- **What `kthread_create` answers**: a pointer to a thread, or an error
pointer. -/
inductive TaskPtr where
  /-- A pointer to a thread. -/
  | thread (k : ℕ)
  /-- The negative of an error number, as a pointer (`ERR_PTR`). -/
  | errPtr (e : Errno)
  deriving DecidableEq

/-- **What is done about threads.** -/
inductive ThreadOp where
  /-- `kthread_create` is called for a slot, with this answer. -/
  | create (it : ℕ) (thr : TaskPtr)
  /-- `kthread_bind` is called. -/
  | bind (thr : TaskPtr) (cpu : ℕ)
  /-- `wake_up_process` is called. -/
  | wakeUp (thr : TaskPtr)
  /-- The thread function is called by the caller itself. -/
  | call
  deriving DecidableEq

/-- A thread operation is applied to an error pointer. -/
def ThreadOp.onError : ThreadOp → Bool
  | .bind (.errPtr _) _ | .wakeUp (.errPtr _) => true
  | _ => false

/-- The thread function runs. -/
def ThreadOp.runs : ThreadOp → Bool
  | .wakeUp (.thread _) | .call => true
  | _ => false

/-! ### Starting threads -/

/-- The number of slots: the number of processors up to the limit that is
configured, at least one, with one left free if there is more than one. -/
def maxCpus (online limit : ℕ) : ℕ :=
  let cpus := if online > limit then limit else online
  let cpus := if cpus = 0 then 1 else cpus
  if cpus > 1 then cpus - 1 else cpus

/-- One round of the loop of `start_threads`, with the answer of
`kthread_create`. -/
def startThread (it : ℕ) (thr : TaskPtr) : List ThreadOp :=
  .create it thr ::
    if thr ≠ .errPtr enomem then [.bind thr it, .wakeUp thr] else [.call]

/-- The loop of `start_threads`, with this many rounds to go. The answers of
`kthread_create` are those of the successive calls. -/
def startLoop (create : ℕ → TaskPtr) : ℕ → ℕ → List ThreadOp
  | 0, _ => []
  | rounds + 1, it => startThread it (create it) ++ startLoop create rounds (it + 1)

/-- **Starting one thread per processor** (`start_threads`). -/
def startThreads (online limit : ℕ) (create : ℕ → TaskPtr) : List ThreadOp :=
  startLoop create (maxCpus online limit) 0

/-- **What `async_init` does about its thread.** -/
def startDoAsynchronized (online : ℕ) (thr : TaskPtr) : List ThreadOp :=
  [.create 0 thr, .bind thr (online - 1), .wakeUp thr]

variable {online limit it rounds : ℕ} {create : ℕ → TaskPtr} {thr : TaskPtr}

/-! ### What the threads are started for -/

/-- **How many slots there are to be**: one, or one less than there are processors
up to the limit. -/
def slots (online limit : ℕ) : ℕ := if min online limit ≤ 1 then 1 else min online limit - 1

/-- **How a slot is to end**: with the thread created for it, bound to the processor
of the slot and woken, or with one call of the thread function. -/
def SlotOk (online it : ℕ) (thr : TaskPtr) (ops : List ThreadOp) : Prop :=
  (∃ k, thr = .thread k ∧ it < online ∧ ops = [.bind (.thread k) it, .wakeUp (.thread k)]) ∨
    ops = [.call]

/-- **No work is lost by `start_threads`**: it goes through the slots, each of them
ends as it should, and no error pointer is taken for a thread. -/
def StartThreadsOk (online limit : ℕ) (create : ℕ → TaskPtr) : Prop :=
  (∃ outcome : ℕ → List ThreadOp,
    startThreads online limit create =
      (List.range (slots online limit)).flatMap (fun it => .create it (create it) :: outcome it) ∧
    ∀ it < slots online limit, SlotOk online it (create it) (outcome it)) ∧
  ∀ op ∈ startThreads online limit create, op.onError = false

/-- **No work is lost by `async_init`**: `do_asynchronized` runs once, and no error
pointer is taken for a thread. -/
def AsyncInitOk (online : ℕ) (thr : TaskPtr) : Prop :=
  (startDoAsynchronized online thr).countP ThreadOp.runs = 1 ∧
    ∀ op ∈ startDoAsynchronized online thr, op.onError = false

/-! ### The slots -/

theorem maxCpus_eq : maxCpus online limit = slots online limit := by
  simp only [maxCpus, slots]
  split <;> split <;> split <;> split <;> omega

theorem slots_le (h : 1 ≤ online) : slots online limit ≤ online := by
  rw [slots]
  split <;> omega

/-- **The loop goes through its slots in order.** -/
theorem startLoop_eq_flatMap (rounds : ℕ) : ∀ it, startLoop create rounds it =
    (List.range' it rounds).flatMap fun it => startThread it (create it) := by
  induction rounds with
  | zero => exact fun _ => rfl
  | succ rounds ih =>
    intro it
    rw [startLoop, ih, List.range'_succ, List.flatMap_cons]

theorem startThreads_eq_flatMap : startThreads online limit create =
    (List.range (slots online limit)).flatMap fun it => startThread it (create it) := by
  rw [startThreads, startLoop_eq_flatMap, maxCpus_eq, List.range_eq_range']

/-- What is done in a slot once its thread is there, or not. -/
def outcome (it : ℕ) (thr : TaskPtr) : List ThreadOp := (startThread it thr).tail

/-- **A slot ends as it should**, unless an error pointer is taken for a thread. -/
theorem slotOk_outcome (hit : it < online) (hthr : ∀ e, thr = .errPtr e → e = enomem) :
    SlotOk online it thr (outcome it thr) := by
  cases thr with
  | thread k =>
    exact Or.inl ⟨k, rfl, hit, rfl⟩
  | errPtr e =>
    obtain rfl := hthr e rfl
    exact Or.inr rfl

/-- **A round takes no error pointer for a thread** exactly if it meets no other
error than the one that it looks for. -/
theorem startThread_onError : (∀ op ∈ startThread it thr, op.onError = false) ↔
    ∀ e, thr = .errPtr e → e = enomem := by
  cases thr with
  | thread k =>
    constructor
    · rintro - e h
      cases h
    · intro _ op hop
      simp only [startThread, ne_eq, reduceCtorEq, not_false_eq_true, if_true, List.mem_cons,
        List.not_mem_nil, or_false] at hop
      rcases hop with rfl | rfl | rfl <;> rfl
  | errPtr e =>
    by_cases he : e = enomem
    · subst he
      constructor
      · rintro - e h
        exact (TaskPtr.errPtr.inj h).symm
      · intro _ op hop
        simp only [startThread, ne_eq, not_true_eq_false, if_false, List.mem_cons,
          List.not_mem_nil, or_false] at hop
        rcases hop with rfl | rfl <;> rfl
    · constructor
      · intro h
        have hbind := h (.bind (.errPtr e) it) (by simp [startThread, he])
        exact nomatch hbind
      · intro h
        exact absurd (h e rfl) he

/-- **When no work is lost.** By `start_threads` exactly if the threads that it
creates meet no other error than the one that it looks for, and by `async_init`
exactly if its thread is created. -/
theorem startThreads_iff (online limit : ℕ) (create : ℕ → TaskPtr) (thr : TaskPtr)
    (h : 1 ≤ online) :
    (StartThreadsOk online limit create ↔
      ∀ it < slots online limit, ∀ e, create it = .errPtr e → e = enomem) ∧
    (AsyncInitOk online thr ↔ ∃ k, thr = .thread k) := by
  have hops : (∀ op ∈ startThreads online limit create, op.onError = false) ↔
      ∀ it < slots online limit, ∀ e, create it = .errPtr e → e = enomem := by
    rw [startThreads_eq_flatMap]
    constructor
    · intro hall it hit
      have hround : ∀ op ∈ startThread it (create it), op.onError = false := fun op hop =>
        hall op (List.mem_flatMap.mpr ⟨it, List.mem_range.mpr hit, hop⟩)
      exact startThread_onError.mp hround
    · rintro hall op hop
      obtain ⟨it, hit, hop⟩ := List.mem_flatMap.mp hop
      exact startThread_onError.mpr (hall it (List.mem_range.mp hit)) op hop
  constructor
  · constructor
    · exact fun hok => hops.mp hok.2
    · intro hall
      refine ⟨⟨fun it => outcome it (create it), startThreads_eq_flatMap, fun it hit => ?_⟩,
        hops.mpr hall⟩
      exact slotOk_outcome (Nat.lt_of_lt_of_le hit (slots_le h)) (hall it hit)
  · cases thr with
    | thread k =>
      refine ⟨fun _ => ⟨k, rfl⟩, fun _ => ⟨rfl, ?_⟩⟩
      intro op hop
      simp only [startDoAsynchronized, List.mem_cons, List.not_mem_nil, or_false] at hop
      rcases hop with rfl | rfl | rfl <;> rfl
    | errPtr e =>
      constructor
      · rintro ⟨hruns, -⟩
        exact absurd hruns Nat.zero_ne_one
      · rintro ⟨k, hk⟩
        cases hk

/-- Four processors, of which three are used; the second thread finds no memory. -/
theorem startThreadsOk_four :
    StartThreadsOk 4 4 (fun it => if it = 1 then .errPtr enomem else .thread it) ∧
      AsyncInitOk 4 (.thread 9) := by
  obtain ⟨hthreads, hinit⟩ := startThreads_iff 4 4
    (fun it => if it = 1 then .errPtr enomem else .thread it) (.thread 9) (by decide)
  refine ⟨hthreads.mpr fun it _ e he => ?_, hinit.mpr ⟨9, rfl⟩⟩
  split at he
  · exact (TaskPtr.errPtr.inj he).symm
  · cases he

/-- **An error pointer taken for a thread**, by `start_threads` when the creation is
interrupted. -/
theorem not_startThreadsOk :
    ¬∀ (online limit : ℕ) (create : ℕ → TaskPtr) (thr : TaskPtr), 1 ≤ online →
      StartThreadsOk online limit create ∧ AsyncInitOk online thr := by
  intro h
  obtain ⟨⟨-, hops⟩, -⟩ := h 1 1 (fun _ => .errPtr eintr) (.thread 0) (Nat.le_refl 1)
  exact absurd (hops (.bind (.errPtr eintr) 0) (by decide)) (by decide)

end KernelConfiguration
