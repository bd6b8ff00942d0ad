import Mathlib.Data.List.Basic
import KernelConfiguration.Async.DefaultPath

/-!
# Nobody waits

The parties of the driver share the latch, the cursor and the reference count, and
none of them ever waits for another: there is no lock, and the atomic operations
always go through. So each of them comes to its end by its own steps alone, however
the steps of the others fall in between.

What is left to do is a number that only the party itself makes smaller
(`KernelConfiguration.ThreadPc.work` and `KernelConfiguration.ReadPc.work`). For the
thread the number is exact, since its path through the table is determined by the
table; for a read it is a bound, since where the read starts is up to the others.
`KernelConfiguration.waitFree` puts the two together with the fact that a party that
is not at its end can always take its next step.
-/

namespace KernelConfiguration

variable {T : Table} {s s' : State} {c i j k r : ℕ} {log : List Event}

/-! ### What is left to do -/

/-- The steps of the thread from its loop test at position `i` on: one for each
entry, two more for each initcall, and the return. -/
def threadRest (T : Table) (i : ℕ) : ℕ :=
  T.length - i + 2 * (posFrom T .asynchronized i).length + 1

/-- **The steps that the thread has still to take.** -/
def ThreadPc.work (T : Table) : ThreadPc → ℕ
  | .absent | .returned => 0
  | .loop i => threadRest T i
  | .call i => threadRest T (i + 1) + 2
  | .inCall i => threadRest T (i + 1) + 1

/-- **The most steps that a read may still have to take.** -/
def ReadPc.work (T : Table) : ReadPc → ℕ
  | .scan i => T.length - i + 3
  | .call _ => 3
  | .inCall _ => 2
  | .store _ => 1
  | .decRef => 2
  | .free => 1
  | .done _ => 0

/-- The same for the call number `r`, if it has been made. -/
def State.readWork (T : Table) (s : State) (r : ℕ) : ℕ :=
  (s.reads[r]?.map fun a => a.pc.work T).getD 0

/-- The weight of a step of the thread. -/
def threadSteps (_ : State) : Action → ℕ
  | .thread => 1
  | _ => 0

/-- The weight of a step of the call number `r`. -/
def readSteps (r : ℕ) (_ : State) : Action → ℕ
  | .resume r' => if r' = r then 1 else 0
  | _ => 0

theorem threadRest_of_eq (h : typeAt T i = some .asynchronized) :
    threadRest T i = threadRest T (i + 1) + 3 := by
  have hlt := lt_length_of_typeAt h
  rw [threadRest, threadRest, posFrom_of_eq h, List.length_cons]
  omega

theorem threadRest_of_ne {t : TaskType} (h : typeAt T i = some t) (ht : t ≠ .asynchronized) :
    threadRest T i = threadRest T (i + 1) + 1 := by
  have hlt := lt_length_of_typeAt h
  have hne : typeAt T i ≠ some .asynchronized := by
    rw [h]
    exact fun hcon => ht (Option.some.inj hcon)
  rw [threadRest, threadRest, posFrom_of_ne hne]
  omega

/-- A step of the thread is one step less. -/
theorem ThreadMove.work {pc pc' : ThreadPc} {e : Event} (h : ThreadMove T pc e pc')
    (hpc : pc.Sound T log) : pc'.work T + 1 = pc.work T := by
  cases h with
  | @leave i hi =>
    obtain rfl : i = T.length := Nat.le_antisymm hpc.1 (List.getElem?_eq_none_iff.mp hi)
    simp [ThreadPc.work, threadRest, posFrom_of_le]
  | pick hi => exact (threadRest_of_eq hi).symm
  | skip hi ht => exact (threadRest_of_ne hi ht).symm
  | start => rfl
  | finish => rfl

/-- A step of a read is one step less, at least. -/
theorem ReadMove.work {pc pc' : ReadPc} {es : List Event} (h : ReadMove T pc es pc')
    (hpc : pc.Sound T log) : pc'.work T + 1 ≤ pc.work T := by
  cases h with
  | skip hi ht =>
    have hlt := lt_length_of_typeAt hi
    simp only [ReadPc.work]
    omega
  | pick hi =>
    have hlt := lt_length_of_typeAt hi
    simp only [ReadPc.work]
    omega
  | overrun hi hne => exact absurd (Nat.le_antisymm hpc.1 (List.getElem?_eq_none_iff.mp hi)) hne
  | leave =>
    simp only [ReadPc.work]
    omega
  | start => exact Nat.le_refl _
  | finish => exact Nat.le_refl _
  | free => exact Nat.le_refl _

/-! ### The steps of one party -/

/-- **The thread counts down**, and nobody else counts for it. -/
theorem Step.threadWork {a : Action} (hstep : Step T s a s') (hsound : Sound T s) :
    threadSteps s a + s'.thread.work T = s.thread.work T := by
  cases hstep with
  | thread hmove =>
    rw [Nat.add_comm]
    exact hmove.work hsound.thread
  | openFail | openOk | read | move | store | decRef | close => exact Nat.zero_add _

/-- What a read has still to do when some read has taken a step. -/
theorem readWork_set {q : ℕ} {a b : Read} (ha : s.reads[q]? = some a)
    (hset : s'.reads = s.reads.set q b) (hb : b.pc.work T + 1 ≤ a.pc.work T) :
    readSteps r s (.resume q) + s'.readWork T r ≤ s.readWork T r := by
  rw [State.readWork, State.readWork, hset]
  by_cases hqr : q = r
  · subst hqr
    have hlt := (List.getElem?_eq_some_iff.mp ha).1
    rw [List.getElem?_set_self hlt, ha, Option.map_some, Option.map_some, Option.getD_some,
      Option.getD_some, readSteps, if_pos rfl]
    omega
  · rw [List.getElem?_set_ne hqr, readSteps, if_neg hqr, Nat.zero_add]

/-- **A read counts down** once it has been called, and nobody else counts for it. -/
theorem Step.readWork {a : Action} (hstep : Step T s a s') (hsound : Sound T s)
    (hr : r < s.reads.length) :
    readSteps r s a + s'.readWork T r ≤ s.readWork T r := by
  cases hstep with
  | thread | openFail | openOk | close => exact Nat.le_of_eq (Nat.zero_add _)
  | read =>
    refine Nat.le_of_eq ((Nat.zero_add _).trans ?_)
    rw [State.readWork, State.readWork, List.getElem?_append_left hr]
  | move ha hmove =>
    exact readWork_set ha rfl (hmove.work (hsound.reads _ (List.mem_of_getElem? ha)))
  | store ha hpc _ =>
    refine readWork_set ha rfl ?_
    rw [hpc]
    exact Nat.le_refl _
  | decRef ha hpc =>
    refine readWork_set ha rfl ?_
    rw [hpc]
    dsimp only
    split
    · exact Nat.le_refl _
    · exact Nat.le_succ _

/-- A call is made once, and keeps its number. -/
theorem Step.length_reads {a : Action} (hstep : Step T s a s') :
    s.reads.length ≤ s'.reads.length := by
  cases hstep with
  | thread | openFail | openOk | close => exact Nat.le_refl _
  | read =>
    rw [List.length_append]
    exact Nat.le_add_right _ _
  | move | store | decRef => exact Nat.le_of_eq List.length_set.symm

/-- A call that has not been made takes no step, and has so much to do when it is
made. -/
theorem Step.readWork_le {a : Action} (hstep : Step T s a s') (hr : ¬r < s.reads.length) :
    readSteps r s a = 0 ∧ s'.readWork T r ≤ T.length + 3 := by
  have hnone : s.reads[r]? = none := List.getElem?_eq_none (Nat.not_lt.mp hr)
  have hne : ∀ {q : ℕ} {b : Read}, s.reads[q]? = some b → q ≠ r := by
    rintro q b hb rfl
    rw [hnone] at hb
    exact absurd hb.symm (Option.some_ne_none b)
  cases hstep with
  | thread | openFail | openOk | close =>
    refine ⟨rfl, ?_⟩
    rw [State.readWork, hnone]
    exact Nat.zero_le _
  | @read f n file hf _ =>
    refine ⟨rfl, ?_⟩
    rw [State.readWork, List.getElem?_append_right (Nat.not_lt.mp hr), List.getElem?_singleton]
    split
    · simp only [Option.map_some, Option.getD_some, ReadPc.work]
      omega
    · exact Nat.zero_le _
  | move ha | store ha | decRef ha =>
    refine ⟨if_neg (hne ha), ?_⟩
    rw [State.readWork, List.getElem?_set_ne (hne ha), hnone]
    exact Nat.zero_le _

/-! ### The next step -/

/-- The thread can take its next step until it has returned. -/
theorem exists_step_thread (hpc : s.thread ≠ .absent) (hend : s.thread ≠ .returned) :
    ∃ s', step T s .thread = some s' := by
  rw [step, stepThread]
  cases hthread : s.thread with
  | absent => exact absurd hthread hpc
  | returned => exact absurd hthread hend
  | loop i =>
    dsimp only
    cases T[i]? with
    | none => exact ⟨_, rfl⟩
    | some e =>
      dsimp only
      split
      · exact ⟨_, rfl⟩
      · exact ⟨_, rfl⟩
  | call i => exact ⟨_, rfl⟩
  | inCall i => exact ⟨_, rfl⟩

/-- A read can take its next step until it has returned. -/
theorem exists_step_read {a : Read} (hsound : Sound T s) (ha : s.reads[r]? = some a)
    (hend : a.isDone = false) : ∃ s', step T s (.resume r) = some s' := by
  have hpc := hsound.reads a (List.mem_of_getElem? ha)
  rw [step, ha]
  dsimp only
  rw [stepRead]
  cases hread : a.pc with
  | scan i =>
    dsimp only
    cases T[i]? with
    | none =>
      dsimp only
      split
      · exact ⟨_, rfl⟩
      · exact ⟨_, rfl⟩
    | some e =>
      dsimp only
      split
      · exact ⟨_, rfl⟩
      · exact ⟨_, rfl⟩
  | call i => exact ⟨_, rfl⟩
  | inCall i => exact ⟨_, rfl⟩
  | store i =>
    -- the entry whose name is to be looked up is there
    rw [hread] at hpc
    have hlt := lt_length_of_typeAt hpc.1
    dsimp only
    rw [List.getElem?_eq_getElem hlt]
    exact ⟨_, rfl⟩
  | decRef =>
    dsimp only
    split
    · exact ⟨_, rfl⟩
    · exact ⟨_, rfl⟩
  | free => exact ⟨_, rfl⟩
  | done text => simp [Read.isDone, hread] at hend

theorem ThreadPc.work_eq_zero {pc : ThreadPc} : pc.work T = 0 ↔ pc = .absent ∨ pc = .returned := by
  cases pc <;> simp [ThreadPc.work, threadRest]

theorem ThreadMove.ne_absent {pc pc' : ThreadPc} {e : Event} (h : ThreadMove T pc e pc') :
    pc' ≠ .absent := by
  cases h <;> simp

/-- Once the thread has been created it stays so. -/
theorem Reach.thread_ne_absent {ok : State → Action → Prop} (h : Reachable T ok s) :
    s.thread ≠ .absent := by
  refine h.invariant (I := fun s => s.thread ≠ .absent) (by simp [asyncInit]) ?_
  intro s a s' hs _ hnext
  cases step_cases hnext with
  | thread hmove => exact hmove.ne_absent
  | openFail | openOk | read | move | store | decRef | close => exact hs

/-- **Nobody waits.** In every run, however the steps fall, the thread has returned
exactly when it has taken its own steps: one for each entry of the table, two more
for each initcall that it calls, and the last one. A read takes at most three steps
more than there are entries. And in every state that can be reached the thread can
take its next step unless it has returned, and so can every read. -/
theorem waitFree (T : Table) :
    (∀ k s, Weighted (step T) anyStep threadSteps (asyncInit bootState) k s →
      k ≤ T.length + 2 * (positions T .asynchronized).length + 1 ∧
        (s.thread = .returned ↔ k = T.length + 2 * (positions T .asynchronized).length + 1)) ∧
    (∀ r k s, Weighted (step T) anyStep (readSteps r) (asyncInit bootState) k s →
      k ≤ T.length + 3) ∧
    ∀ s, Reachable T anyStep s →
      (s.thread ≠ .returned → ∃ s', step T s .thread = some s') ∧
      ∀ r a, s.reads[r]? = some a → a.isDone = false → ∃ s', step T s (.resume r) = some s' := by
  refine ⟨fun k s h => ?_, fun r k s h => ?_, fun s hs => ⟨?_, ?_⟩⟩
  · have hwork : k + s.thread.work T = threadRest T 0 := by
      refine h.invariant (J := fun k s => k + s.thread.work T = threadRest T 0) (Nat.zero_add _) ?_
      intro k s a s' hreach hk _ hnext
      have hstep := (step_cases hnext).threadWork hreach.sound
      omega
    have hzero : s.thread.work T = 0 ↔ s.thread = .returned := by
      rw [ThreadPc.work_eq_zero]
      exact or_iff_right h.reach.thread_ne_absent
    rw [threadRest, posFrom_zero, Nat.sub_zero] at hwork
    rw [← hzero]
    omega
  · have hwork : k + s.readWork T r ≤ T.length + 3 ∧ (¬r < s.reads.length → k = 0) := by
      refine h.invariant (J := fun k s => k + s.readWork T r ≤ T.length + 3 ∧
        (¬r < s.reads.length → k = 0)) ⟨Nat.zero_le _, fun _ => rfl⟩ ?_
      rintro k s a s' hreach ⟨hk, hnot⟩ _ hnext
      have hstep := step_cases hnext
      have hlen := hstep.length_reads
      by_cases hr : r < s.reads.length
      · have hcount := hstep.readWork hreach.sound hr
        exact ⟨by omega, fun hcon => absurd (Nat.lt_of_lt_of_le hr hlen) hcon⟩
      · obtain ⟨hzero, hcall⟩ := hstep.readWork_le hr
        have hk₀ := hnot hr
        exact ⟨by omega, fun _ => by omega⟩
    exact (Nat.le_add_right _ _).trans hwork.1
  · exact exists_step_thread hs.thread_ne_absent
  · exact fun r a ha hend => exists_step_read hs.sound ha hend

/-- The thread of `KernelConfiguration.acpiTable` takes six steps, with a read in
between. -/
theorem waitFree_acpiTable :
    ∃ s, Weighted (step acpiTable) anyStep threadSteps (asyncInit bootState) 6 s ∧
      s.thread = .returned := by
  obtain ⟨s, hs⟩ : ∃ s, runWeighted (step acpiTable) anyStep threadSteps 0 (asyncInit bootState)
      [.thread, .openDevice, .thread, .read 0 30, .thread, .resume 0, .thread, .resume 0,
        .thread, .thread] = some (6, s) := ⟨_, rfl⟩
  have hrun := weighted_of_runWeighted .refl hs
  exact ⟨s, hrun, ((waitFree acpiTable).1 6 s hrun).2.mpr (by decide)⟩

end KernelConfiguration
