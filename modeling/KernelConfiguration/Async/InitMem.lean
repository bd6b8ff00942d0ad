import Mathlib.Algebra.Ring.Nat
import Mathlib.Data.List.Basic
import KernelConfiguration.Async.Invariant

/-!
# The reference count of the init memory

The registration table lives in `.init.data`, which `free_initmem` releases, and
`free_init_ref` is to say when: it *becomes zero when all drivers are
initialised*, as the source puts it. The count starts at one, `async_init` takes
two more references, and the only thing that ever gives one up is a read that
reports the end of the list – the decrement of the thread is commented out, and
the first reference has no owner at all.

So what the count counts is end-of-list reads. The ledger of
`KernelConfiguration.Ledger` makes this exact: the memory has been freed, or is
about to be, as many times as the number of these reads has passed three modulo
`2 ^ 32`. Everything about the release follows from it and from the invariant of
`KernelConfiguration.Async.Invariant`:

* `KernelConfiguration.freedOnce` – which runs free the memory once and in time;
* `KernelConfiguration.noUseAfterFree` – which runs do not touch the table
  afterwards.

Which of the reads it is that frees the memory is the subject of
`KernelConfiguration.Async.Release`.
-/

namespace KernelConfiguration

variable {T : Table} {s s' : State} {ok : State → Action → Prop}

/-! ### The ledger -/

/-- **The number of reads that have taken the end-of-list branch.** -/
def State.endReads (s : State) : ℕ := s.log.count .decRef

/-- The number of reads that stand between the decrement to zero and the call of
`free_initmem`. -/
def State.pending (s : State) : ℕ := s.reads.countP fun a => a.pc = .free

/-- How often a count that starts at three and wraps around at `2 ^ 32` has become
zero after `n` decrements. -/
def zeroCrossings (n : ℕ) : ℕ := (n + (2 ^ 32 - 3)) / 2 ^ 32

theorem zeroCrossings_eq_zero {n : ℕ} : zeroCrossings n = 0 ↔ n < 3 := by
  rw [zeroCrossings, Nat.div_eq_zero_iff]
  omega

theorem zeroCrossings_le_one {n : ℕ} (h : n ≤ 2 ^ 32 + 2) : zeroCrossings n ≤ 1 := by
  rw [zeroCrossings]
  omega

/-- The decrement that makes the count zero is the third, modulo `2 ^ 32`. -/
theorem ref_eq_zero_iff (n : ℕ) :
    (3 : BitVec 32) - BitVec.ofNat 32 n - 1 = 0 ↔ n % 2 ^ 32 = 2 := by
  rw [← BitVec.toNat_inj]
  simp only [BitVec.toNat_sub, BitVec.toNat_ofNat, BitVec.ofNat_eq_ofNat]
  omega

/-- One more decrement makes the count zero, or does not. -/
theorem zeroCrossings_succ (n : ℕ) : zeroCrossings (n + 1) =
    zeroCrossings n + if (3 : BitVec 32) - BitVec.ofNat 32 n - 1 = 0 then 1 else 0 := by
  by_cases h : n % 2 ^ 32 = 2
  · rw [if_pos ((ref_eq_zero_iff n).mpr h), zeroCrossings, zeroCrossings]
    omega
  · rw [if_neg (fun hcon => h ((ref_eq_zero_iff n).mp hcon)), zeroCrossings, zeroCrossings]
    omega

variable (s) in
/-- **The ledger**: the count is three less the end-of-list reads, and the memory
has been freed, or is about to be, once for every time it became zero. -/
structure Ledger : Prop where
  /-- The count. -/
  ref : s.freeInitRef = 3 - BitVec.ofNat 32 s.endReads
  /-- The calls of `free_initmem`, made and to be made. -/
  frees : s.log.count .freeInitmem + s.pending = zeroCrossings s.endReads

/-- The number of pending calls when one read goes on. -/
theorem pending_set {r : ℕ} {a : Read} (ha : s.reads[r]? = some a) (pc : ReadPc) :
    (s.reads.set r { a with pc := pc }).countP (fun a => a.pc = .free) +
      (if a.pc = .free then 1 else 0) = s.pending + if pc = .free then 1 else 0 := by
  have htoNat : ∀ pc : ReadPc, (decide (pc = .free)).toNat = if pc = .free then 1 else 0 :=
    fun pc => Bool.cond_decide _ 1 0
  rw [← htoNat, ← htoNat]
  exact countP_set_add _ _ ha

/-- A move of a read makes its pending call of `free_initmem`, or leaves it
pending. -/
theorem ReadMove.count_freeInitmem {pc pc' : ReadPc} {es : List Event}
    (h : ReadMove T pc es pc') :
    es.count .freeInitmem + (if pc' = .free then 1 else 0) = if pc = .free then 1 else 0 := by
  cases h <;> rfl

theorem ReadMove.count_decRef {pc pc' : ReadPc} {es : List Event} (h : ReadMove T pc es pc') :
    es.count .decRef = 0 := by
  cases h <;> rfl

theorem ThreadMove.count_eq_zero {pc pc' : ThreadPc} {e : Event} (h : ThreadMove T pc e pc') :
    e ≠ .decRef ∧ e ≠ .freeInitmem := by
  cases h <;> exact ⟨nofun, nofun⟩

/-- A step that is no decrement keeps the ledger if it keeps the calls of
`free_initmem` made and to be made. -/
theorem Ledger.of_eq (h : Ledger s) (href : s'.freeInitRef = s.freeInitRef)
    (hend : s'.endReads = s.endReads)
    (hfrees : s'.log.count .freeInitmem + s'.pending = s.log.count .freeInitmem + s.pending) :
    Ledger s' :=
  ⟨by rw [href, hend]; exact h.ref, by rw [hfrees, hend]; exact h.frees⟩

theorem ref_succ (n : ℕ) :
    (3 : BitVec 32) - BitVec.ofNat 32 n - 1 = 3 - BitVec.ofNat 32 (n + 1) := by
  rw [← BitVec.toNat_inj]
  simp only [BitVec.toNat_sub, BitVec.toNat_ofNat, BitVec.ofNat_eq_ofNat]
  omega

theorem Ledger.step {a : Action} (h : Ledger s) (hstep : Step T s a s') : Ledger s' := by
  cases hstep with
  | thread hmove =>
    obtain ⟨hdec, hfree⟩ := hmove.count_eq_zero
    exact h.of_eq rfl (List.count_cons_of_ne hdec)
      (congrArg (· + s.pending) (List.count_cons_of_ne hfree))
  | openFail _ => exact h
  | openOk _ => exact h.of_eq rfl rfl rfl
  | @read f n file hf ho =>
    refine h.of_eq rfl rfl (congrArg (s.log.count .freeInitmem + ·) ?_)
    simp [State.pending]
  | @move r a es pc ha hmove =>
    have hset := pending_set ha pc
    have hcount := hmove.count_freeInitmem
    refine h.of_eq rfl ?_ ?_
    · simp only [State.endReads, List.count_append, hmove.count_decRef, Nat.zero_add]
    · change (es ++ s.log).count .freeInitmem +
        (s.reads.set r { a with pc := pc }).countP (fun a => a.pc = .free) = _
      rw [List.count_append]
      omega
  | @store r a i e ha hpc he =>
    have hset := pending_set ha (.done (readText (getName e.id).toList a.nbytes))
    rw [hpc] at hset
    refine h.of_eq rfl (List.count_cons_of_ne (by simp)) ?_
    change (Event.loadId i :: s.log).count .freeInitmem + (s.reads.set r _).countP _ = _
    rw [List.count_cons_of_ne (by simp)]
    exact congrArg (s.log.count .freeInitmem + ·) (by simpa using hset)
  | @decRef r a ha hpc =>
    have hend : (Event.decRef :: s.log).count .decRef = s.endReads + 1 := List.count_cons_self
    have hset := pending_set ha (if s.freeInitRef - 1 = 0 then .free else .done [])
    rw [hpc] at hset
    constructor
    · change s.freeInitRef - 1 = 3 - BitVec.ofNat 32 ((Event.decRef :: s.log).count .decRef)
      rw [hend, h.ref]
      exact ref_succ s.endReads
    · -- the decrement that makes the count zero is the one that leaves a call pending
      have hsucc := zeroCrossings_succ s.endReads
      have hfrees := h.frees
      rw [← h.ref] at hsucc
      change (Event.decRef :: s.log).count .freeInitmem +
        (s.reads.set r _).countP (fun a => a.pc = .free) =
          zeroCrossings ((Event.decRef :: s.log).count .decRef)
      rw [hend, hsucc, List.count_cons_of_ne (by simp)]
      by_cases hz : s.freeInitRef - 1 = 0
      · simp only [if_pos hz, if_true, reduceCtorEq, if_false] at hset ⊢
        omega
      · simp only [if_neg hz, reduceCtorEq, if_false] at hset ⊢
        omega
  | close => exact h.of_eq rfl rfl rfl

theorem Reach.ledger (h : Reachable T ok s) : Ledger s :=
  h.invariant ⟨rfl, rfl⟩ fun _ _ _ hs _ hstep => hs.step (step_cases hstep)

/-- A read about to call `free_initmem` is pending. -/
theorem pending_pos {r : ℕ} {a : Read} (ha : s.reads[r]? = some a) (hpc : a.pc = .free) :
    0 < s.pending :=
  List.countP_pos_iff.mpr ⟨a, List.mem_of_getElem? ha, by simpa using hpc⟩

/-- The memory is not freed before three reads have reported the end of the
list. -/
theorem Ledger.three_le_endReads (h : Ledger s)
    (hfree : 0 < s.log.count .freeInitmem + s.pending) : 3 ≤ s.endReads := by
  by_contra hlt
  rw [h.frees, zeroCrossings_eq_zero.mpr (by omega)] at hfree
  exact Nat.lt_irrefl 0 hfree

/-! ### Freed once, and in time -/

/-- **The memory is released at most once, and not too early**: when
`free_initmem` is called it has not been called before, the thread has returned,
and so has the initcall of every entry that is to run. -/
def FreedOnce (T : Table) (log : List Event) : Prop :=
  EveryEvent (fun e before => e = .freeInitmem →
    .freeInitmem ∉ before ∧ .threadReturn ∈ before ∧
      ∀ i, typeAt T i = some .asynchronized ∨ typeAt T i = some .deferred →
        .callReturn i ∈ before) log

/-- The guard of the runs in which the third end-of-list read, and any later one,
comes after the thread has returned, and in which the count does not wrap around:
no more than `2 ^ 32 + 2` reads report the end of the list. -/
def lastRefAfterThread (s : State) : Action → Prop
  | .resume r => ∀ a ∈ s.reads[r]?, a.pc = .decRef →
      s.endReads < 2 ∨ (s.thread = .returned ∧ s.endReads < 2 ^ 32 + 2)
  | _ => True

instance (s : State) (a : Action) : Decidable (lastRefAfterThread s a) :=
  match a with
  | .resume r => inferInstanceAs (Decidable (∀ a ∈ s.reads[r]?, a.pc = .decRef →
      s.endReads < 2 ∨ (s.thread = .returned ∧ s.endReads < 2 ^ 32 + 2)))
  | .thread | .openDevice | .read _ _ | .close _ => .isTrue trivial

variable (s) in
/-- What such a run keeps. -/
structure InTime : Prop where
  /-- The thread has returned before the third end-of-list read. -/
  thread : 3 ≤ s.endReads → s.thread = .returned
  /-- The count has not wrapped around. -/
  bound : s.endReads ≤ 2 ^ 32 + 2

theorem InTime.step {a : Action} (h : InTime s) (hok : lastRefAfterThread s a)
    (hstep : Step T s a s') : InTime s' := by
  cases hstep with
  | @thread e pc hmove =>
    have hend : ({ s with thread := pc, log := e :: s.log } : State).endReads = s.endReads :=
      List.count_cons_of_ne hmove.count_eq_zero.1
    refine ⟨fun hle => ?_, by rw [hend]; exact h.bound⟩
    -- a thread that has returned has no move left
    rw [hend] at hle
    rw [h.thread hle] at hmove
    cases hmove
  | openFail _ => exact h
  | openOk _ => exact ⟨h.thread, h.bound⟩
  | read => exact ⟨h.thread, h.bound⟩
  | @move r a es pc ha hmove =>
    have hend : ({ s with reads := s.reads.set r { a with pc := pc }, log := es ++ s.log } :
        State).endReads = s.endReads := by
      simp only [State.endReads, List.count_append, hmove.count_decRef, Nat.zero_add]
    exact ⟨by rw [hend]; exact h.thread, by rw [hend]; exact h.bound⟩
  | store => exact ⟨h.thread, h.bound⟩
  | @decRef r a ha hpc =>
    have hend : (Event.decRef :: s.log).count .decRef = s.endReads + 1 := List.count_cons_self
    rcases hok a ha hpc with hlt | ⟨hthread, hlt⟩
    · constructor
      · intro hle
        rw [State.endReads, hend] at hle
        omega
      · rw [State.endReads, hend]
        omega
    · refine ⟨fun _ => hthread, ?_⟩
      rw [State.endReads, hend]
      omega
  | close => exact ⟨h.thread, h.bound⟩

/-- The one call of `free_initmem`, at the moment it is made. -/
theorem InTime.freed {r : ℕ} {a : Read} (h : InTime s) (hsound : Sound T s) (hledger : Ledger s)
    (ha : s.reads[r]? = some a) (hpc : a.pc = .free) :
    .freeInitmem ∉ s.log ∧ .threadReturn ∈ s.log ∧
      ∀ i, typeAt T i = some .asynchronized ∨ typeAt T i = some .deferred →
        .callReturn i ∈ s.log := by
  -- one zero crossing at most, and the pending call is it
  have hpending := pending_pos ha hpc
  have hle := zeroCrossings_le_one h.bound
  have hfrees := hledger.frees
  have hthread := hsound.thread
  rw [h.thread (hledger.three_le_endReads (by omega))] at hthread
  have hread := hsound.reads a (List.mem_of_getElem? ha)
  rw [hpc] at hread
  refine ⟨List.count_eq_zero.mp (by omega), hthread.1, fun i hi => ?_⟩
  rcases hi with hi | hi
  · exact hthread.2 i (lt_length_of_typeAt hi) hi
  · exact hread i (lt_length_of_typeAt hi) hi

theorem FreedOnce.step {a : Action} (h : FreedOnce T s.log) (hsound : Sound T s)
    (hledger : Ledger s) (htime : InTime s) (hstep : Step T s a s') : FreedOnce T s'.log := by
  cases hstep with
  | thread hmove => exact ⟨fun hcon => absurd hcon hmove.count_eq_zero.2, h⟩
  | @move r a es pc ha hmove =>
    cases hpc : a.pc with
    | free =>
      rw [hpc] at hmove
      cases hmove
      exact ⟨fun _ => htime.freed hsound hledger ha hpc, h⟩
    | _ =>
      rw [hpc] at hmove
      cases hmove <;> first | exact h | exact ⟨nofun, h⟩
  | store | decRef => exact ⟨nofun, h⟩
  | openFail | openOk | read | close => exact h

/-- **The init memory is released once and in time by every run in which the
thread returns before the third end-of-list read** and the count does not wrap
around. -/
theorem freedOnce (h : Reachable T lastRefAfterThread s) : FreedOnce T s.log := by
  refine (h.invariant (I := fun s => (Sound T s ∧ Ledger s ∧ InTime s) ∧ FreedOnce T s.log)
    ⟨⟨sound_asyncInit, ⟨rfl, rfl⟩, ⟨nofun, Nat.zero_le _⟩⟩, trivial⟩ ?_).2
  rintro s a s' ⟨⟨hsound, hledger, htime⟩, hfreed⟩ hok hnext
  have hstep := step_cases hnext
  exact ⟨⟨hsound.step hstep, hledger.step hstep, htime.step hok hstep⟩,
    hfreed.step hsound hledger htime hstep⟩

/-- The thread first, then one read that calls the deferred entry of
`KernelConfiguration.acpiTable`, then two that report the end of the list. -/
def acpiRun : List Action :=
  [.thread, .thread, .thread, .thread, .thread, .thread, .openDevice,
    .read 0 30, .resume 0, .resume 0, .resume 0, .resume 0, .resume 0,
    .read 0 30, .resume 1, .resume 1, .resume 1,
    .read 0 30, .resume 2, .resume 2, .resume 2]

/-- The third end-of-list read, which frees the memory. -/
def acpiThirdRead : List Action := [.read 0 30, .resume 3, .resume 3, .resume 3, .resume 3]

/-- A third end-of-list read after `KernelConfiguration.acpiRun` frees the memory,
in time. -/
theorem freedOnce_acpiTable :
    ∃ s, Reachable acpiTable lastRefAfterThread s ∧ .freeInitmem ∈ s.log ∧
      FreedOnce acpiTable s.log := by
  obtain ⟨s, hs⟩ : ∃ s, runActions (step acpiTable) lastRefAfterThread (asyncInit bootState)
      (acpiRun ++ acpiThirdRead) = some s := ⟨_, rfl⟩
  have hreach : Reachable acpiTable lastRefAfterThread s := reach_of_runActions hs
  refine ⟨s, hreach, ?_, freedOnce hreach⟩
  obtain rfl := Option.some.inj hs
  decide

/-- **The memory goes before the thread has moved**: one read that calls the
deferred entry of `KernelConfiguration.acpiTable` and three that report the end of
the list are enough. -/
theorem not_freedOnce_acpiTable :
    ¬∀ s, Reachable acpiTable anyStep s → FreedOnce acpiTable s.log := by
  intro h
  obtain ⟨s, hs⟩ : ∃ s, runActions (step acpiTable) anyStep (asyncInit bootState)
      (acpiRun.drop 6 ++ acpiThirdRead) = some s := ⟨_, rfl⟩
  have hfreed := h s (reach_of_runActions hs)
  obtain rfl := Option.some.inj hs
  have hthread := (hfreed.1 rfl).2.1
  revert hthread
  decide

/-! ### Freed, and not used again -/

/-- The event reads a field of a table entry. The start of an initcall does, since
it goes through the `fnc` field. -/
def Event.usesTable : Event → Bool
  | .loadId _ | .callStart _ => true
  | _ => false

/-- **The table is not used after it is freed**: behind a call of `free_initmem`
no step reads a table entry or calls an initcall. -/
def NoUseAfterFree (log : List Event) : Prop :=
  EveryEvent (fun e before => .freeInitmem ∈ before → e.usesTable = false) log

/-- The thread will not read the table again. -/
def ThreadPc.PastTable (T : Table) : ThreadPc → Prop
  | .absent | .returned => True
  | .loop i => T.length ≤ i
  | .call _ => False
  | .inCall i => T.length ≤ i + 1

/-- The read will not read the table again. -/
def ReadPc.PastTable (T : Table) : ReadPc → Prop
  | .scan i => T.length ≤ i
  | .call _ | .inCall _ | .store _ => False
  | .decRef | .free | .done _ => True

instance (T : Table) (pc : ThreadPc) : Decidable (pc.PastTable T) :=
  match pc with
  | .absent | .returned => .isTrue trivial
  | .loop i => inferInstanceAs (Decidable (T.length ≤ i))
  | .call _ => .isFalse id
  | .inCall i => inferInstanceAs (Decidable (T.length ≤ i + 1))

instance (T : Table) (pc : ReadPc) : Decidable (pc.PastTable T) :=
  match pc with
  | .scan i => inferInstanceAs (Decidable (T.length ≤ i))
  | .call _ | .inCall _ | .store _ => .isFalse id
  | .decRef | .free | .done _ => .isTrue trivial

/-- The guard of the runs in which the third end-of-list read gives up its
reference only when nobody will read the table again, and in which the reads
called after it find their cursor at the end of the table. -/
def lastRefPastTable (T : Table) (s : State) : Action → Prop
  | .resume r => ∀ a ∈ s.reads[r]?, a.pc = .decRef → s.endReads = 2 →
      s.thread.PastTable T ∧ ∀ b ∈ s.reads, b.pc.PastTable T
  | .read f _ => 3 ≤ s.endReads → ∀ file ∈ s.files[f]?, T.length ≤ file.privateData
  | _ => True

instance (T : Table) (s : State) (a : Action) : Decidable (lastRefPastTable T s a) :=
  match a with
  | .resume r => inferInstanceAs (Decidable (∀ a ∈ s.reads[r]?, a.pc = .decRef →
      s.endReads = 2 → s.thread.PastTable T ∧ ∀ b ∈ s.reads, b.pc.PastTable T))
  | .read f _ => inferInstanceAs (Decidable (3 ≤ s.endReads → ∀ file ∈ s.files[f]?,
      T.length ≤ file.privateData))
  | .thread | .openDevice | .close _ => .isTrue trivial

variable (T s) in
/-- What such a run keeps: after the third end-of-list read everybody is past the
table. -/
def AllPast : Prop :=
  3 ≤ s.endReads → s.thread.PastTable T ∧ ∀ a ∈ s.reads, a.pc.PastTable T

/-- A thread past the table does not read it, and stays past it. -/
theorem ThreadMove.pastTable {pc pc' : ThreadPc} {e : Event} (h : ThreadMove T pc e pc')
    (hpc : pc.PastTable T) : pc'.PastTable T ∧ e.usesTable = false := by
  cases h with
  | leave => exact ⟨trivial, rfl⟩
  | pick hi => exact absurd (lt_length_of_typeAt hi) (Nat.not_lt.mpr hpc)
  | skip hi => exact absurd (lt_length_of_typeAt hi) (Nat.not_lt.mpr hpc)
  | start => exact hpc.elim
  | finish => exact ⟨hpc, rfl⟩

/-- A read past the table does not read it, and stays past it. -/
theorem ReadMove.pastTable {pc pc' : ReadPc} {es : List Event} (h : ReadMove T pc es pc')
    (hsound : pc.Sound T s.log) (hpc : pc.PastTable T) :
    pc'.PastTable T ∧ ∀ e ∈ es, e.usesTable = false := by
  cases h with
  | skip hi => exact absurd (lt_length_of_typeAt hi) (Nat.not_lt.mpr hpc)
  | pick hi => exact absurd (lt_length_of_typeAt hi) (Nat.not_lt.mpr hpc)
  | overrun hi hne =>
    exact absurd (Nat.le_antisymm hsound.1 (List.getElem?_eq_none_iff.mp hi)) hne
  | leave => exact ⟨trivial, by simp⟩
  | start => exact hpc.elim
  | finish => exact hpc.elim
  | free => exact ⟨trivial, by simp [Event.usesTable]⟩

theorem AllPast.step {a : Action} (h : AllPast T s) (hsound : Sound T s)
    (hok : lastRefPastTable T s a) (hstep : Step T s a s') : AllPast T s' := by
  intro hle
  cases hstep with
  | thread hmove =>
    rw [State.endReads, List.count_cons_of_ne hmove.count_eq_zero.1] at hle
    obtain ⟨hthread, hreads⟩ := h hle
    exact ⟨(hmove.pastTable hthread).1, hreads⟩
  | openFail _ => exact h hle
  | openOk _ => exact h hle
  | @read f n file hf ho =>
    obtain ⟨hthread, hreads⟩ := h hle
    exact ⟨hthread, forall_mem_snoc hreads (hok hle file hf)⟩
  | @move r a es pc ha hmove =>
    rw [State.endReads, List.count_append, hmove.count_decRef, Nat.zero_add] at hle
    obtain ⟨hthread, hreads⟩ := h hle
    have hmem := List.mem_of_getElem? ha
    exact ⟨hthread, forall_mem_set hreads
      (hmove.pastTable (hsound.reads a hmem) (hreads a hmem)).1⟩
  | store ha hpc he =>
    obtain ⟨hthread, hreads⟩ := h hle
    exact ⟨hthread, forall_mem_set hreads trivial⟩
  | @decRef r a ha hpc =>
    have hend : (Event.decRef :: s.log).count .decRef = s.endReads + 1 := List.count_cons_self
    rw [State.endReads, hend] at hle
    obtain ⟨hthread, hreads⟩ : s.thread.PastTable T ∧ ∀ b ∈ s.reads, b.pc.PastTable T := by
      rcases Nat.lt_or_ge s.endReads 3 with hlt | hge
      · exact hok a ha hpc (by omega)
      · exact h hge
    refine ⟨hthread, forall_mem_set hreads ?_⟩
    dsimp only
    split <;> trivial
  | close => exact h hle

theorem NoUseAfterFree.step {a : Action} (h : NoUseAfterFree s.log) (hsound : Sound T s)
    (hledger : Ledger s) (hpast : AllPast T s) (hstep : Step T s a s') :
    NoUseAfterFree s'.log := by
  have hfreed : .freeInitmem ∈ s.log → s.thread.PastTable T ∧
      ∀ a ∈ s.reads, a.pc.PastTable T := fun hmem =>
    hpast (hledger.three_le_endReads (Nat.add_pos_left (List.count_pos_iff.mpr hmem) _))
  cases hstep with
  | thread hmove => exact ⟨fun hmem => (hmove.pastTable (hfreed hmem).1).2, h⟩
  | @move r a es pc ha hmove =>
    have hmem := List.mem_of_getElem? ha
    have huse : .freeInitmem ∈ s.log → ∀ e ∈ es, e.usesTable = false := fun hf =>
      (hmove.pastTable (hsound.reads a hmem) ((hfreed hf).2 a hmem)).2
    obtain rfl | ⟨e, rfl⟩ : es = [] ∨ ∃ e, es = [e] := by
      generalize a.pc = pc₀ at hmove
      cases hmove <;> simp
    · exact h
    · exact ⟨fun hf => huse hf e List.mem_cons_self, h⟩
  | @store r a i e ha hpc he =>
    refine ⟨fun hf => ?_, h⟩
    have hread := (hfreed hf).2 a (List.mem_of_getElem? ha)
    rw [hpc] at hread
    exact hread.elim
  | decRef => exact ⟨fun _ => rfl, h⟩
  | openFail | openOk | read | close => exact h

/-- **The table is not used after it is freed by any run that keeps to the guard**:
the third end-of-list read comes when everybody is past the table, and the later
reads start at its end. -/
theorem noUseAfterFree (h : Reachable T (lastRefPastTable T) s) : NoUseAfterFree s.log := by
  refine (h.invariant (I := fun s => (Sound T s ∧ Ledger s ∧ AllPast T s) ∧ NoUseAfterFree s.log)
    ⟨⟨sound_asyncInit, ⟨rfl, rfl⟩, nofun⟩, trivial⟩ ?_).2
  rintro s a s' ⟨⟨hsound, hledger, hpast⟩, huse⟩ hok hnext
  have hstep := step_cases hnext
  exact ⟨⟨hsound.step hstep, hledger.step hstep, hpast.step hsound hok hstep⟩,
    huse.step hsound hledger hpast hstep⟩

/-- A table whose last entry is deferred, so that the cursor is left at its end. -/
def pccTable : Table := [⟨.acpiAcInit, 1⟩, ⟨.acpiPccDriver, 2⟩]

/-- The thread, a read that calls the deferred entry of `KernelConfiguration.pccTable`,
and five reads that report the end of the list: the third of them frees the memory,
and the last two come behind it. -/
def pccRun : List Action :=
  [.thread, .thread, .thread, .thread, .thread, .openDevice,
    .read 0 30, .resume 0, .resume 0, .resume 0, .resume 0, .resume 0,
    .read 0 30, .resume 1, .resume 1, .read 0 30, .resume 2, .resume 2,
    .read 0 30, .resume 3, .resume 3, .resume 3,
    .read 0 30, .resume 4, .resume 4, .read 0 30, .resume 5, .resume 5]

/-- A run of `KernelConfiguration.pccTable` that keeps to the guard with two reads
behind the one that frees the memory. -/
theorem noUseAfterFree_pccTable :
    ∃ s, Reachable pccTable (lastRefPastTable pccTable) s ∧
      s.log.take 3 = [.decRef, .decRef, .freeInitmem] ∧ NoUseAfterFree s.log := by
  obtain ⟨s, hs⟩ : ∃ s, runActions (step pccTable) (lastRefPastTable pccTable)
      (asyncInit bootState) pccRun = some s := ⟨_, rfl⟩
  have hreach : Reachable pccTable (lastRefPastTable pccTable) s := reach_of_runActions hs
  refine ⟨s, hreach, ?_, noUseAfterFree hreach⟩
  obtain rfl := Option.some.inj hs
  decide

/-- **One read too many**: the end-of-list branch does not store the advanced
cursor, so a read that comes after the memory of `KernelConfiguration.acpiTable`
is freed scans the tail of the table again. -/
theorem not_noUseAfterFree_acpiTable :
    ¬∀ s, Reachable acpiTable anyStep s → NoUseAfterFree s.log := by
  intro h
  obtain ⟨s, hs⟩ : ∃ s, runActions (step acpiTable) anyStep (asyncInit bootState)
      (acpiRun ++ acpiThirdRead ++ [.read 0 30, .resume 4]) = some s := ⟨_, rfl⟩
  have huse := h s (reach_of_runActions hs)
  obtain rfl := Option.some.inj hs
  have hfalse := huse.1 (by decide)
  revert hfalse
  decide

end KernelConfiguration
