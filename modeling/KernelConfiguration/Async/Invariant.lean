import Mathlib.Data.List.Basic
import KernelConfiguration.Async.Driver

/-!
# What a step can do, and what every run keeps

The step function of `KernelConfiguration.Async.Driver` is taken apart here, once:
`KernelConfiguration.step_cases` says that a step is one of the eight clauses of
`KernelConfiguration.Step`, where the moves of the thread and of a read inside the
table are listed by `KernelConfiguration.ThreadMove` and
`KernelConfiguration.ReadMove`. No proof about runs looks at the function again.

The invariant is local to each party. Each of them has a position in the table,
and what it promises is that **the entries of its own type below that position
have returned**: the thread for the `asynchronized` ones, a file for the
`deferred` ones below its cursor, and an activation of `device_read` for the
`deferred` ones below the place it has scanned to. The promise is monotone in the
history, so it survives every step of the others, and it does not need the reads
of a file to be serialised: a cursor may be stored back late, but never past an
entry that has not returned.
-/

namespace KernelConfiguration

variable {T : Table} {s s' : State}

/-! ### The moves -/

variable (T) in
/-- The moves of the thread. -/
inductive ThreadMove : ThreadPc → Event → ThreadPc → Prop
  /-- The loop is over. -/
  | leave {i : ℕ} (h : T[i]? = none) : ThreadMove (.loop i) .threadReturn .returned
  /-- The entry is the thread's. -/
  | pick {i : ℕ} (h : typeAt T i = some .asynchronized) :
      ThreadMove (.loop i) (.loadId i) (.call i)
  /-- The entry is not the thread's. -/
  | skip {i : ℕ} {t : TaskType} (h : typeAt T i = some t) (ht : t ≠ .asynchronized) :
      ThreadMove (.loop i) (.loadId i) (.loop (i + 1))
  /-- The initcall starts. -/
  | start {i : ℕ} : ThreadMove (.call i) (.callStart i) (.inCall i)
  /-- The initcall returns. -/
  | finish {i : ℕ} : ThreadMove (.inCall i) (.callReturn i) (.loop (i + 1))

variable (T) in
/-- The moves of a read that change nothing but the read and the history. -/
inductive ReadMove : ReadPc → List Event → ReadPc → Prop
  /-- The entry is not deferred. -/
  | skip {i : ℕ} {t : TaskType} (h : typeAt T i = some t) (ht : t ≠ .deferred) :
      ReadMove (.scan i) [.loadId i] (.scan (i + 1))
  /-- The entry is the next deferred one. -/
  | pick {i : ℕ} (h : typeAt T i = some .deferred) :
      ReadMove (.scan i) [.loadId i] (.call i)
  /-- The cursor is beyond the end of the table. -/
  | overrun {i : ℕ} (h : T[i]? = none) (hi : i ≠ T.length) : ReadMove (.scan i) [] (.call i)
  /-- The cursor is at the end of the table. -/
  | leave : ReadMove (.scan T.length) [] .decRef
  /-- The initcall starts. -/
  | start {i : ℕ} : ReadMove (.call i) [.callStart i] (.inCall i)
  /-- The initcall returns. -/
  | finish {i : ℕ} : ReadMove (.inCall i) [.callReturn i] (.store i)
  /-- The init memory is freed. -/
  | free : ReadMove .free [.freeInitmem] (.done [])

variable (T s) in
/-- **What a step can do.** -/
inductive Step : Action → State → Prop
  /-- The thread moves. -/
  | thread {e : Event} {pc : ThreadPc} (h : ThreadMove T s.thread e pc) :
      Step .thread { s with thread := pc, log := e :: s.log }
  /-- The device has been opened before. -/
  | openFail (h : s.initDone = 1) : Step .openDevice s
  /-- The device is opened for the first time. -/
  | openOk (h : s.initDone ≠ 1) :
      Step .openDevice { s with initDone := 1, files := s.files ++ [⟨0, true⟩] }
  /-- A read is called. -/
  | read {f n : ℕ} {file : File} (hf : s.files[f]? = some file) (ho : file.isOpen) :
      Step (.read f n) { s with reads := s.reads ++ [⟨f, n, .scan file.privateData⟩] }
  /-- A read moves. -/
  | move {r : ℕ} {a : Read} {es : List Event} {pc : ReadPc} (ha : s.reads[r]? = some a)
      (h : ReadMove T a.pc es pc) :
      Step (.resume r) { s with reads := s.reads.set r { a with pc := pc }, log := es ++ s.log }
  /-- A read stores its cursor and returns. -/
  | store {r : ℕ} {a : Read} {i : ℕ} {e : InitFn} (ha : s.reads[r]? = some a)
      (hpc : a.pc = .store i) (he : T[i]? = some e) :
      Step (.resume r) { s with
        reads := s.reads.set r { a with pc := .done (readText (getName e.id).toList a.nbytes) }
        files := s.files.modify a.file fun f => { f with privateData := i + 1 }
        log := .loadId i :: s.log }
  /-- A read at the end of the list gives up a reference. -/
  | decRef {r : ℕ} {a : Read} (ha : s.reads[r]? = some a) (hpc : a.pc = .decRef) :
      Step (.resume r) { s with
        freeInitRef := s.freeInitRef - 1
        reads := s.reads.set r
          { a with pc := if s.freeInitRef - 1 = 0 then .free else .done [] }
        log := .decRef :: s.log }
  /-- A file nobody is reading is closed. -/
  | close {f : ℕ} {file : File} (hf : s.files[f]? = some file) (ho : file.isOpen)
      (hidle : ∀ a ∈ s.reads, a.file = f → a.isDone) :
      Step (.close f)
        { s with files := s.files.modify f fun file => { file with isOpen := false } }

theorem typeAt_eq_some {i : ℕ} {e : InitFn} (h : T[i]? = some e) :
    typeAt T i = some (initInfo e.id).type := by
  rw [typeAt, h, Option.map_some]

theorem lt_length_of_typeAt {i : ℕ} {t : TaskType} (h : typeAt T i = some t) : i < T.length := by
  by_contra hge
  rw [typeAt, List.getElem?_eq_none (by omega)] at h
  simp at h

/-- A read that moves has not returned. -/
theorem isDone_eq_false {a : Read} {es : List Event} {pc : ReadPc} (h : ReadMove T a.pc es pc) :
    a.isDone = false := by
  obtain ⟨f, n, pc₀⟩ := a
  cases h <;> rfl

theorem stepThread_cases (h : stepThread T s = some s') :
    ∃ e pc, ThreadMove T s.thread e pc ∧ s' = { s with thread := pc, log := e :: s.log } := by
  rw [stepThread] at h
  cases hpc : s.thread with
  | absent => simp [hpc] at h
  | loop i =>
    simp only [hpc] at h
    cases hi : T[i]? with
    | none =>
      simp only [hi, Option.some.injEq] at h
      exact ⟨_, _, .leave hi, h.symm⟩
    | some e =>
      simp only [hi] at h
      by_cases ht : (initInfo e.id).type = .asynchronized
      · simp only [ht, if_true, Option.some.injEq] at h
        exact ⟨_, _, .pick (by rw [typeAt_eq_some hi, ht]), h.symm⟩
      · simp only [ht, if_false, Option.some.injEq] at h
        exact ⟨_, _, .skip (typeAt_eq_some hi) ht, h.symm⟩
  | call i =>
    simp only [hpc, Option.some.injEq] at h
    exact ⟨_, _, .start, h.symm⟩
  | inCall i =>
    simp only [hpc, Option.some.injEq] at h
    exact ⟨_, _, .finish, h.symm⟩
  | returned => simp [hpc] at h

/-- A move of a read, seen from the place the read is at. -/
theorem Step.of_pc {r : ℕ} {a : Read} {es : List Event} {pc pc' : ReadPc}
    (ha : s.reads[r]? = some a) (hpc : a.pc = pc) (h : ReadMove T pc es pc') :
    Step T s (.resume r)
      { s with reads := s.reads.set r { a with pc := pc' }, log := es ++ s.log } :=
  .move ha (hpc ▸ h)

theorem stepRead_cases {r : ℕ} {a : Read} (ha : s.reads[r]? = some a)
    (h : stepRead T s r a = some s') : Step T s (.resume r) s' := by
  rw [stepRead] at h
  cases hpc : a.pc with
  | scan i =>
    simp only [hpc] at h
    cases hi : T[i]? with
    | some e =>
      simp only [hi] at h
      by_cases ht : (initInfo e.id).type = .deferred
      · simp only [ht, ne_eq, not_true, if_false, Option.some.injEq] at h
        rw [← h]
        exact .of_pc ha hpc (.pick (by rw [typeAt_eq_some hi, ht]))
      · simp only [ht, ne_eq, not_false_eq_true, if_true, Option.some.injEq] at h
        rw [← h]
        exact .of_pc ha hpc (.skip (typeAt_eq_some hi) ht)
    | none =>
      simp only [hi] at h
      by_cases hlen : i = T.length
      · simp only [hlen, ne_eq, not_true, if_false, Option.some.injEq] at h
        rw [← h]
        exact .of_pc ha (hpc.trans (congrArg _ hlen)) .leave
      · simp only [hlen, ne_eq, not_false_eq_true, if_true, Option.some.injEq] at h
        rw [← h]
        exact .of_pc ha hpc (.overrun hi hlen)
  | call i =>
    simp only [hpc, Option.some.injEq] at h
    rw [← h]
    exact .of_pc ha hpc .start
  | inCall i =>
    simp only [hpc, Option.some.injEq] at h
    rw [← h]
    exact .of_pc ha hpc .finish
  | store i =>
    simp only [hpc] at h
    obtain ⟨e, he, rfl⟩ := Option.map_eq_some_iff.mp h
    exact .store ha hpc he
  | decRef =>
    simp only [hpc] at h
    have hs' : s' = { s with
        freeInitRef := s.freeInitRef - 1
        reads := s.reads.set r { a with pc := if s.freeInitRef - 1 = 0 then .free else .done [] }
        log := .decRef :: s.log } := by
      by_cases hz : s.freeInitRef - 1 = 0
      · simp only [hz, if_true, Option.some.injEq] at h ⊢
        exact h.symm
      · simp only [hz, if_false, Option.some.injEq] at h ⊢
        exact h.symm
    rw [hs']
    exact .decRef ha hpc
  | free =>
    simp only [hpc, Option.some.injEq] at h
    rw [← h]
    exact .of_pc ha hpc .free
  | done text => simp [hpc] at h

/-- **The step function does nothing but the clauses of
`KernelConfiguration.Step`.** -/
theorem step_cases {a : Action} (h : step T s a = some s') : Step T s a s' := by
  cases a with
  | thread =>
    obtain ⟨e, pc, hmove, rfl⟩ := stepThread_cases h
    exact .thread hmove
  | openDevice =>
    obtain rfl : (deviceOpen s).1 = s' := by simpa [step] using h
    rw [deviceOpen]
    by_cases hd : s.initDone = 1
    · have hs : { s with initDone := 1 } = s := by rw [← hd]
      simp only [hd, if_true]
      rw [hs]
      exact .openFail hd
    · simp only [hd, if_false]
      exact .openOk hd
  | read f n =>
    simp only [step] at h
    cases hf : s.files[f]? with
    | none => simp [hf] at h
    | some file =>
      simp only [hf] at h
      by_cases ho : file.isOpen
      · simp only [ho, if_true, Option.some.injEq] at h
        rw [← h]
        exact .read hf ho
      · simp [ho] at h
  | resume r =>
    simp only [step] at h
    cases ha : s.reads[r]? with
    | none => simp [ha] at h
    | some a =>
      simp only [ha] at h
      exact stepRead_cases ha h
  | close f =>
    simp only [step] at h
    cases hf : s.files[f]? with
    | none => simp [hf] at h
    | some file =>
      simp only [hf] at h
      by_cases ho : file.isOpen ∧ ∀ a ∈ s.reads, a.file = f → a.isDone
      · rw [if_pos ho, Option.some.injEq] at h
        rw [← h]
        exact .close hf ho.1 ho.2
      · rw [if_neg ho] at h
        simp at h

/-! ### The entries of one type below a position -/

variable {t : TaskType} {c c' : ℕ} {log log' : List Event}

/-- **The entries of type `t` below position `c` have returned.** -/
def RanBelow (T : Table) (t : TaskType) (c : ℕ) (log : List Event) : Prop :=
  ∀ i < c, typeAt T i = some t → .callReturn i ∈ log

theorem ranBelow_zero : RanBelow T t 0 log := fun i hi => absurd hi (Nat.not_lt_zero i)

theorem RanBelow.mono (h : RanBelow T t c log) (hlog : ∀ e ∈ log, e ∈ log') :
    RanBelow T t c log' :=
  fun i hi ht => hlog _ (h i hi ht)

/-- A position of another type is passed for free. -/
theorem RanBelow.succ_of_ne (h : RanBelow T t c log) (hc : typeAt T c ≠ some t) :
    RanBelow T t (c + 1) log := by
  intro i hi ht
  rcases Nat.lt_succ_iff_lt_or_eq.mp hi with hlt | rfl
  · exact h i hlt ht
  · exact absurd ht hc

/-- A position that has returned is passed. -/
theorem RanBelow.succ (h : RanBelow T t c log) (hc : .callReturn c ∈ log) :
    RanBelow T t (c + 1) log := by
  intro i hi ht
  rcases Nat.lt_succ_iff_lt_or_eq.mp hi with hlt | rfl
  · exact h i hlt ht
  · exact hc

/-! ### The promise of each party -/

/-- What the thread promises: the `asynchronized` entries behind it have
returned. -/
def ThreadPc.Sound (T : Table) (log : List Event) : ThreadPc → Prop
  | .absent => True
  | .loop i => i ≤ T.length ∧ RanBelow T .asynchronized i log
  | .call i => typeAt T i = some .asynchronized ∧ RanBelow T .asynchronized i log
  | .inCall i => (typeAt T i = some .asynchronized ∧ RanBelow T .asynchronized i log) ∧
      .callStart i ∈ log
  | .returned => .threadReturn ∈ log ∧ RanBelow T .asynchronized T.length log

/-- What a read promises: the `deferred` entries behind it have returned. -/
def ReadPc.Sound (T : Table) (log : List Event) : ReadPc → Prop
  | .scan i => i ≤ T.length ∧ RanBelow T .deferred i log
  | .call i => typeAt T i = some .deferred ∧ RanBelow T .deferred i log
  | .inCall i => (typeAt T i = some .deferred ∧ RanBelow T .deferred i log) ∧ .callStart i ∈ log
  | .store i => typeAt T i = some .deferred ∧ RanBelow T .deferred (i + 1) log
  | .decRef | .free => RanBelow T .deferred T.length log
  | .done _ => True

/-- What a file promises: the `deferred` entries below its cursor have
returned. -/
def File.Sound (T : Table) (log : List Event) (f : File) : Prop :=
  f.privateData ≤ T.length ∧ RanBelow T .deferred f.privateData log

/-- **What an event finds behind it.** An initcall that starts is of one of the
two types that run, and the entries of its own type before it have returned; one
that returns has started. The thread returns behind the asynchronized entries,
and the end of the list is reported behind the deferred ones. -/
def EventSound (T : Table) : Event → List Event → Prop
  | .loadId _, _ => True
  | .callStart j, before =>
      ∃ t, (t = .asynchronized ∨ t = .deferred) ∧ typeAt T j = some t ∧ RanBelow T t j before
  | .callReturn j, before => .callStart j ∈ before
  | .threadReturn, before => RanBelow T .asynchronized T.length before
  | .decRef, before | .freeInitmem, before => RanBelow T .deferred T.length before

variable (T s) in
/-- **The invariant of every run.** -/
structure Sound : Prop where
  /-- The promise of the thread. -/
  thread : s.thread.Sound T s.log
  /-- The promise of each file. -/
  files : ∀ f ∈ s.files, f.Sound T s.log
  /-- The promise of each read. -/
  reads : ∀ a ∈ s.reads, a.pc.Sound T s.log
  /-- What every event found behind it. -/
  events : EveryEvent (EventSound T) s.log

theorem ThreadPc.Sound.mono {pc : ThreadPc} (h : pc.Sound T log) (hlog : ∀ e ∈ log, e ∈ log') :
    pc.Sound T log' := by
  cases pc with
  | absent => trivial
  | loop i => exact ⟨h.1, h.2.mono hlog⟩
  | call i => exact ⟨h.1, h.2.mono hlog⟩
  | inCall i => exact ⟨⟨h.1.1, h.1.2.mono hlog⟩, hlog _ h.2⟩
  | returned => exact ⟨hlog _ h.1, h.2.mono hlog⟩

theorem ReadPc.Sound.mono {pc : ReadPc} (h : pc.Sound T log) (hlog : ∀ e ∈ log, e ∈ log') :
    pc.Sound T log' := by
  cases pc with
  | scan i => exact ⟨h.1, h.2.mono hlog⟩
  | call i => exact ⟨h.1, h.2.mono hlog⟩
  | inCall i => exact ⟨⟨h.1.1, h.1.2.mono hlog⟩, hlog _ h.2⟩
  | store i => exact ⟨h.1, h.2.mono hlog⟩
  | decRef => exact RanBelow.mono h hlog
  | free => exact RanBelow.mono h hlog
  | done text => trivial

theorem File.Sound.mono {f : File} (h : f.Sound T log) (hlog : ∀ e ∈ log, e ∈ log') :
    f.Sound T log' :=
  ⟨h.1, h.2.mono hlog⟩

theorem sound_asyncInit : Sound T (asyncInit bootState) where
  thread := ⟨Nat.zero_le _, ranBelow_zero⟩
  files := by simp [asyncInit, bootState]
  reads := by simp [asyncInit, bootState]
  events := trivial

/-! ### The moves keep the promises -/

theorem ThreadMove.sound {pc pc' : ThreadPc} {e : Event} (h : ThreadMove T pc e pc')
    (hpc : pc.Sound T log) : pc'.Sound T (e :: log) := by
  have hlog : ∀ e' ∈ log, e' ∈ e :: log := fun _ => List.mem_cons_of_mem _
  cases h with
  | @leave i hi =>
    obtain rfl : i = T.length := Nat.le_antisymm hpc.1 (List.getElem?_eq_none_iff.mp hi)
    exact ⟨List.mem_cons_self, hpc.2.mono hlog⟩
  | pick hi => exact ⟨hi, hpc.2.mono hlog⟩
  | skip hi ht =>
    refine ⟨lt_length_of_typeAt hi, (hpc.2.succ_of_ne ?_).mono hlog⟩
    rw [hi]
    exact fun hcon => ht (Option.some.inj hcon)
  | start => exact ⟨⟨hpc.1, hpc.2.mono hlog⟩, List.mem_cons_self⟩
  | finish =>
    exact ⟨lt_length_of_typeAt hpc.1.1, (hpc.1.2.mono hlog).succ List.mem_cons_self⟩

theorem ThreadMove.eventSound {pc pc' : ThreadPc} {e : Event} (h : ThreadMove T pc e pc')
    (hpc : pc.Sound T log) : EventSound T e log := by
  cases h with
  | @leave i hi =>
    obtain rfl : i = T.length := Nat.le_antisymm hpc.1 (List.getElem?_eq_none_iff.mp hi)
    exact hpc.2
  | start => exact ⟨_, Or.inl rfl, hpc⟩
  | finish => exact hpc.2
  | pick | skip => trivial

theorem ReadMove.sound {pc pc' : ReadPc} {es : List Event} (h : ReadMove T pc es pc')
    (hpc : pc.Sound T log) : pc'.Sound T (es ++ log) := by
  have hlog : ∀ e' ∈ log, e' ∈ es ++ log := fun _ => List.mem_append_right _
  cases h with
  | skip hi ht =>
    refine ⟨lt_length_of_typeAt hi, (hpc.2.succ_of_ne ?_).mono hlog⟩
    rw [hi]
    exact fun hcon => ht (Option.some.inj hcon)
  | pick hi => exact ⟨hi, hpc.2.mono hlog⟩
  | overrun hi hne => exact absurd (Nat.le_antisymm hpc.1 (List.getElem?_eq_none_iff.mp hi)) hne
  | leave => exact hpc.2.mono hlog
  | start => exact ⟨⟨hpc.1, hpc.2.mono hlog⟩, by simp⟩
  | finish => exact ⟨hpc.1.1, (hpc.1.2.mono hlog).succ (by simp)⟩
  | free => trivial

theorem ReadMove.eventSound {pc pc' : ReadPc} {es : List Event} (h : ReadMove T pc es pc')
    (hpc : pc.Sound T log) (hlog : EveryEvent (EventSound T) log) :
    EveryEvent (EventSound T) (es ++ log) := by
  cases h with
  | start => exact ⟨⟨_, Or.inr rfl, hpc⟩, hlog⟩
  | finish => exact ⟨hpc.2, hlog⟩
  | free => exact ⟨hpc, hlog⟩
  | overrun | leave => exact hlog
  | skip | pick => exact ⟨trivial, hlog⟩

/-! ### The invariant -/

section

variable {α : Type*} {P : α → Prop} {l : List α} {k : ℕ} {x : α}

/-- What holds of every entry of a list, and of one more, holds of every entry of
the list with that one at its end. -/
theorem forall_mem_snoc (h : ∀ y ∈ l, P y) (hx : P x) : ∀ y ∈ l ++ [x], P y :=
  List.forall_mem_append.mpr ⟨h, List.forall_mem_singleton.mpr hx⟩

/-- The same for a list with one entry replaced. -/
theorem forall_mem_set (h : ∀ y ∈ l, P y) (hx : P x) : ∀ y ∈ l.set k x, P y := by
  rintro y hy
  rcases List.mem_or_eq_of_mem_set hy with hmem | rfl
  · exact h y hmem
  · exact hx

/-- The same for a list with one entry changed. -/
theorem forall_mem_modify {g : α → α} (h : ∀ y ∈ l, P y) (hg : ∀ y ∈ l, P y → P (g y)) :
    ∀ y ∈ l.modify k g, P y := by
  rintro y hy
  obtain ⟨i, hi⟩ := List.mem_iff_getElem?.mp hy
  rw [List.getElem?_modify] at hi
  obtain ⟨z, hz, rfl⟩ := Option.map_eq_some_iff.mp hi
  have hmem : z ∈ l := List.mem_of_getElem? hz
  split
  · exact hg z hmem (h z hmem)
  · exact h z hmem

/-- The places of a list with one more entry. -/
theorem getElem?_snoc_eq_some {n : ℕ} {y : α} :
    (l ++ [x])[n]? = some y ↔ l[n]? = some y ∨ n = l.length ∧ x = y := by
  rcases Nat.lt_trichotomy n l.length with hlt | rfl | hgt
  · rw [List.getElem?_append_left hlt, or_iff_left fun hcon => Nat.ne_of_lt hlt hcon.1]
  · simp
  · have hout : (l ++ [x])[n]? = none := by
      rw [List.getElem?_eq_none_iff, List.length_append, List.length_singleton]
      exact hgt
    rw [hout, List.getElem?_eq_none_iff.mpr (Nat.le_of_lt hgt)]
    simp [Nat.ne_of_gt hgt]

/-- Counting a list with one more entry. -/
theorem countP_snoc (p : α → Bool) (l : List α) (x : α) :
    (l ++ [x]).countP p = l.countP p + (p x).toNat := by
  rw [List.countP_append, List.countP_singleton]
  cases p x <;> rfl

/-- Replacing an entry of a list changes a count by what the two entries add to it. -/
theorem countP_set_add (p : α → Bool) (y : α) (hx : l[k]? = some x) :
    (l.set k y).countP p + (p x).toNat = l.countP p + (p y).toNat := by
  obtain ⟨hk, hkx⟩ := List.getElem?_eq_some_iff.mp hx
  have hpos : p x = true → 0 < l.countP p := fun h =>
    List.countP_pos_iff.mpr ⟨x, List.mem_of_getElem? hx, h⟩
  rw [List.countP_set hk, hkx]
  cases hpx : p x <;> cases p y <;> simp_all

end

/-- A read that goes on keeps the promises of the reads, if it keeps its own. -/
theorem Sound.reads_set {r : ℕ} {b : Read} (h : Sound T s) (hlog : ∀ e ∈ s.log, e ∈ log')
    (hb : b.pc.Sound T log') : ∀ a ∈ s.reads.set r b, a.pc.Sound T log' :=
  forall_mem_set (fun a ha => (h.reads a ha).mono hlog) hb

/-- **Every step keeps the invariant.** -/
theorem Sound.step {a : Action} (h : Sound T s) (hstep : Step T s a s') : Sound T s' := by
  cases hstep with
  | @thread e pc hmove =>
    have hlog : ∀ e' ∈ s.log, e' ∈ e :: s.log := fun _ => List.mem_cons_of_mem _
    exact ⟨hmove.sound h.thread, fun f hf => (h.files f hf).mono hlog,
      fun a ha => (h.reads a ha).mono hlog, hmove.eventSound h.thread, h.events⟩
  | openFail _ => exact h
  | openOk _ =>
    exact ⟨h.thread, forall_mem_snoc h.files ⟨Nat.zero_le _, ranBelow_zero⟩, h.reads, h.events⟩
  | @read f n file hf _ =>
    -- the read starts at the cursor of the file, with what the file promises
    exact ⟨h.thread, h.files,
      forall_mem_snoc h.reads (h.files file (List.mem_of_getElem? hf)), h.events⟩
  | @move r a es pc ha hmove =>
    have hlog : ∀ e' ∈ s.log, e' ∈ es ++ s.log := fun _ => List.mem_append_right _
    have hpc := h.reads a (List.mem_of_getElem? ha)
    exact ⟨h.thread.mono hlog, fun f hf => (h.files f hf).mono hlog,
      h.reads_set hlog (hmove.sound hpc), hmove.eventSound hpc h.events⟩
  | @store r a i e ha hpc he =>
    have hlog : ∀ e' ∈ s.log, e' ∈ Event.loadId i :: s.log := fun _ => List.mem_cons_of_mem _
    have hread := h.reads a (List.mem_of_getElem? ha)
    rw [hpc] at hread
    -- the stored cursor is behind an entry that has returned
    exact ⟨h.thread.mono hlog, forall_mem_modify (fun f hf => (h.files f hf).mono hlog)
      fun f _ _ => ⟨lt_length_of_typeAt hread.1, hread.2.mono hlog⟩, h.reads_set hlog trivial,
      trivial, h.events⟩
  | @decRef r a ha hpc =>
    have hlog : ∀ e' ∈ s.log, e' ∈ Event.decRef :: s.log := fun _ => List.mem_cons_of_mem _
    have hread := h.reads a (List.mem_of_getElem? ha)
    rw [hpc] at hread
    refine ⟨h.thread.mono hlog, fun f hf => (h.files f hf).mono hlog, h.reads_set hlog ?_,
      hread, h.events⟩
    by_cases hz : s.freeInitRef - 1 = 0
    · simp only [hz, if_true]
      exact RanBelow.mono hread hlog
    · simp only [hz, if_false]
      trivial
  | @close f file hf ho hidle =>
    exact ⟨h.thread, forall_mem_modify h.files fun _ _ hg => hg, h.reads, h.events⟩

/-- **The invariant holds in every reachable state**, whatever the guard. -/
theorem Reach.sound {ok : State → Action → Prop} (h : Reachable T ok s) : Sound T s :=
  h.invariant sound_asyncInit fun _ _ _ hs _ hstep => hs.step (step_cases hstep)

/-! ### The latch and the one file -/

/-- **The latch lets one open through**: before it there is no file and no read,
behind it there is exactly one file, and every read is a read of it. -/
def OneFile (s : State) : Prop :=
  (s.initDone = 0 ∧ s.files = [] ∧ s.reads = []) ∨
    (s.initDone = 1 ∧ (∃ file, s.files = [file]) ∧ ∀ a ∈ s.reads, a.file = 0)

/-- A read under way is a read of the one file. -/
theorem OneFile.of_read {r : ℕ} {a : Read} (h : OneFile s) (ha : s.reads[r]? = some a) :
    s.initDone = 1 ∧ (∃ file, s.files = [file]) ∧ ∀ a ∈ s.reads, a.file = 0 := by
  rcases h with ⟨-, -, hr⟩ | h
  · simp [hr] at ha
  · exact h

/-- A file there is, is the one file. -/
theorem OneFile.of_file {f : ℕ} {file : File} (h : OneFile s) (hf : s.files[f]? = some file) :
    f = 0 ∧ s.initDone = 1 ∧ s.files = [file] ∧ ∀ a ∈ s.reads, a.file = 0 := by
  rcases h with ⟨-, hnil, -⟩ | ⟨hd, ⟨g, hg⟩, hr⟩
  · simp [hnil] at hf
  · have hlt := (List.getElem?_eq_some_iff.mp hf).1
    rw [hg, List.length_singleton, Nat.lt_one_iff] at hlt
    subst hlt
    rw [hg, List.getElem?_cons_zero, Option.some.injEq] at hf
    exact ⟨rfl, hd, hf ▸ hg, hr⟩

theorem OneFile.step {a : Action} (h : OneFile s) (hstep : Step T s a s') : OneFile s' := by
  cases hstep with
  | thread _ => exact h
  | openFail _ => exact h
  | openOk hd =>
    rcases h with ⟨-, hf, hr⟩ | ⟨hd', -⟩
    · exact Or.inr ⟨rfl, ⟨_, by rw [hf]; rfl⟩, by simp [hr]⟩
    · exact absurd hd' hd
  | read hf _ =>
    obtain ⟨rfl, hd, hg, hr⟩ := h.of_file hf
    exact Or.inr ⟨hd, ⟨_, hg⟩, forall_mem_snoc hr rfl⟩
  | move ha _ =>
    obtain ⟨hd, hf, hr⟩ := h.of_read ha
    have ha0 := hr _ (List.mem_of_getElem? ha)
    exact Or.inr ⟨hd, hf, forall_mem_set hr ha0⟩
  | store ha _ _ =>
    obtain ⟨hd, ⟨g, hg⟩, hr⟩ := h.of_read ha
    have ha0 := hr _ (List.mem_of_getElem? ha)
    exact Or.inr ⟨hd, ⟨_, by simp only [hg, ha0]; rfl⟩, forall_mem_set hr ha0⟩
  | decRef ha _ =>
    obtain ⟨hd, hf, hr⟩ := h.of_read ha
    have ha0 := hr _ (List.mem_of_getElem? ha)
    exact Or.inr ⟨hd, hf, forall_mem_set hr ha0⟩
  | close hf _ _ =>
    obtain ⟨rfl, hd, hg, hr⟩ := h.of_file hf
    exact Or.inr ⟨hd, ⟨_, by simp only [hg]; rfl⟩, hr⟩

theorem Reach.oneFile {ok : State → Action → Prop} (h : Reachable T ok s) : OneFile s :=
  h.invariant (Or.inl ⟨rfl, rfl, rfl⟩) fun _ _ _ hs _ hstep => hs.step (step_cases hstep)

end KernelConfiguration
