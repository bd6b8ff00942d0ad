import Mathlib.Data.List.Basic
import KernelConfiguration.Async.InitMem

/-!
# Which read releases the init memory

The count does not know whose reference is given up, but the schedule does. Take the
calls of `device_read` that have reached the end of the list in the order in which
they decrement the count. The third of them finds the count at one, and it is the
third that goes on to free the memory; then the count wraps around, and the next one
to free it comes `2 ^ 32` calls later. So the memory has been freed when one of these
calls has returned (`KernelConfiguration.Ordered.freed`), and the thread has no say
in it.

That is too many calls or too few of them, depending on the thread: what everything
is initialised by is one end-of-list read and the return of the thread.
`KernelConfiguration.notLeaked_iff` tells the schedules in which the memory is free by
then.
-/

namespace KernelConfiguration

variable {T : Table} {s s' : State} {enders : List ℕ}

/-! ### The end-of-list reads, in order -/

/-- What is written down of a step: the call of `device_read` that takes its
decrement in it. -/
def endRead (s : State) : Action → List ℕ
  | .resume r => if s.reads[r]?.map Read.pc = some .decRef then [r] else []
  | _ => []

/-- **The states reached, with the end-of-list reads so far** in the order of their
decrements. -/
abbrev ReachableInOrder (T : Table) (ok : State × List ℕ → Action → Prop) :
    State × List ℕ → Prop :=
  Reach (watched (step T) endRead) ok (asyncInit bootState, [])

/-- The call number `r` of `device_read` has returned. -/
def State.hasReturned (s : State) (r : ℕ) : Bool := s.reads[r]?.any Read.isDone

/-- **The third end-of-list read has returned**, or another one whose number is three
modulo `2 ^ 32`. -/
def ThirdReturned (p : State × List ℕ) : Prop :=
  ∃ n < p.2.length, n % 2 ^ 32 = 2 ∧ p.2[n]?.any p.1.hasReturned

instance (p : State × List ℕ) : Decidable (ThirdReturned p) :=
  inferInstanceAs (Decidable (∃ n < p.2.length, n % 2 ^ 32 = 2 ∧ p.2[n]?.any p.1.hasReturned))

theorem hasReturned_iff {r : ℕ} :
    s.hasReturned r = true ↔ ∃ a, s.reads[r]? = some a ∧ a.isDone = true := by
  rw [State.hasReturned, Option.any_eq_true]

theorem thirdReturned_iff : ThirdReturned (s, enders) ↔
    ∃ n r, enders[n]? = some r ∧ n % 2 ^ 32 = 2 ∧ s.hasReturned r = true := by
  constructor
  · rintro ⟨n, -, hn, hany⟩
    obtain ⟨r, hr, hret⟩ := (Option.any_eq_true _ _).mp hany
    exact ⟨n, r, hr, hn, hret⟩
  · rintro ⟨n, r, hr, hn, hret⟩
    exact ⟨n, (List.getElem?_eq_some_iff.mp hr).1, hn, (Option.any_eq_true _ _).mpr ⟨r, hr, hret⟩⟩

variable (s enders) in
/-- **What the order says of the state.** -/
structure Ordered : Prop where
  /-- The end-of-list reads are the ones that are counted. -/
  length : enders.length = s.endReads
  /-- They have returned, or are about to free the memory. -/
  ended : ∀ r ∈ enders, ∃ a, s.reads[r]? = some a ∧ (a.pc = .free ∨ a.isDone = true)
  /-- Only a read with the number three is about to free the memory. -/
  place : ∀ r a, s.reads[r]? = some a → a.pc = .free →
    ∃ n, enders[n]? = some r ∧ n % 2 ^ 32 = 2
  /-- The memory has been freed when such a read has returned. -/
  freed : .freeInitmem ∈ s.log ↔ ThirdReturned (s, enders)

/-- Whether one of the reads has returned is a matter of these reads. -/
theorem thirdReturned_congr (h : ∀ r ∈ enders, s'.reads[r]? = s.reads[r]?) :
    ThirdReturned (s', enders) ↔ ThirdReturned (s, enders) := by
  rw [thirdReturned_iff, thirdReturned_iff]
  refine exists_congr fun n => exists_congr fun r => and_congr_right fun hr => ?_
  rw [State.hasReturned, h r (List.mem_of_getElem? hr), State.hasReturned]

/-- A step that does not concern the end-of-list reads. -/
theorem Ordered.of_eq (h : Ordered s enders) (hend : s'.endReads = s.endReads)
    (hreads : ∀ r ∈ enders, s'.reads[r]? = s.reads[r]?)
    (hplace : ∀ (r : ℕ) (a : Read), s'.reads[r]? = some a → a.pc = .free → s.reads[r]? = some a)
    (hlog : .freeInitmem ∈ s'.log ↔ .freeInitmem ∈ s.log) : Ordered s' enders where
  length := h.length.trans hend.symm
  ended r hr := by
    rw [hreads r hr]
    exact h.ended r hr
  place r a ha hpc := h.place r a (hplace r a ha hpc) hpc
  freed := by rw [hlog, h.freed, thirdReturned_congr hreads]

/-- A read that is not at its end is none of the end-of-list reads. -/
theorem Ordered.not_mem (h : Ordered s enders) {r : ℕ} {a : Read} (ha : s.reads[r]? = some a)
    (hfree : a.pc ≠ .free) (hdone : a.isDone = false) : r ∉ enders := by
  intro hr
  obtain ⟨b, hb, hpc⟩ := h.ended r hr
  obtain rfl := Option.some.inj (ha.symm.trans hb)
  rcases hpc with hpc | hpc
  · exact hfree hpc
  · simp [hdone] at hpc

/-- A read that is none of the end-of-list reads goes on, and does not become one that
is about to free the memory. -/
theorem Ordered.of_set (h : Ordered s enders) {r : ℕ} {a b : Read} (ha : s.reads[r]? = some a)
    (hfree : a.pc ≠ .free) (hdone : a.isDone = false) (hb : b.pc ≠ .free)
    (hset : s'.reads = s.reads.set r b) (hend : s'.endReads = s.endReads)
    (hlog : .freeInitmem ∈ s'.log ↔ .freeInitmem ∈ s.log) : Ordered s' enders := by
  have hr := h.not_mem ha hfree hdone
  refine h.of_eq hend (fun r' hr' => ?_) (fun r' a' ha' hpc => ?_) hlog
  · rw [hset]
    exact List.getElem?_set_ne (ne_of_mem_of_not_mem hr' hr).symm
  · rw [hset, List.getElem?_set] at ha'
    split at ha'
    next =>
      split at ha'
      next => exact absurd hpc (Option.some.inj ha' ▸ hb)
      next => simp at ha'
    next => exact ha'

/-- The read that is about to free the memory does so. -/
theorem Ordered.free (h : Ordered s enders) {r : ℕ} {a : Read} (ha : s.reads[r]? = some a)
    (hpc : a.pc = .free) :
    Ordered { s with
      reads := s.reads.set r { a with pc := .done [] }
      log := .freeInitmem :: s.log } enders := by
  obtain ⟨n, hn, hmod⟩ := h.place r a ha hpc
  have hself : (s.reads.set r { a with pc := .done [] })[r]? = some { a with pc := .done [] } :=
    List.getElem?_set_self (List.getElem?_eq_some_iff.mp ha).1
  constructor
  · exact h.length.trans (List.count_cons_of_ne (by simp)).symm
  · intro r' hr'
    by_cases heq : r = r'
    · subst heq
      exact ⟨_, hself, Or.inr rfl⟩
    · dsimp only
      rw [List.getElem?_set_ne heq]
      exact h.ended r' hr'
  · intro r' a' ha' hpc'
    by_cases heq : r = r'
    · subst heq
      obtain rfl := Option.some.inj (hself.symm.trans ha')
      simp at hpc'
    · dsimp only at ha'
      rw [List.getElem?_set_ne heq] at ha'
      exact h.place r' a' ha' hpc'
  · exact iff_of_true List.mem_cons_self
      (thirdReturned_iff.mpr ⟨n, r, hn, hmod, hasReturned_iff.mpr ⟨_, hself, rfl⟩⟩)

/-- **One more end-of-list read**, whose number decides whether it is to free the
memory. -/
theorem Ordered.snoc (h : Ordered s enders) {r : ℕ} {a b : Read} (ha : s.reads[r]? = some a)
    (hr : r ∉ enders) (hset : s'.reads = s.reads.set r b) (hend : s'.endReads = s.endReads + 1)
    (hlog : .freeInitmem ∈ s'.log ↔ .freeInitmem ∈ s.log)
    (hb : b.pc = .free ∧ enders.length % 2 ^ 32 = 2 ∨
      b.isDone = true ∧ enders.length % 2 ^ 32 ≠ 2) : Ordered s' (enders ++ [r]) := by
  have hself : s'.reads[r]? = some b := by
    rw [hset]
    exact List.getElem?_set_self (List.getElem?_eq_some_iff.mp ha).1
  have hother : ∀ r', r' ≠ r → s'.reads[r']? = s.reads[r']? := fun r' hne => by
    rw [hset]
    exact List.getElem?_set_ne hne.symm
  have hold : ∀ r' ∈ enders, s'.reads[r']? = s.reads[r']? := fun r' hr' =>
    hother r' (ne_of_mem_of_not_mem hr' hr)
  constructor
  · rw [List.length_append, h.length, hend, List.length_singleton]
  · intro r' hr'
    rcases List.mem_append.mp hr' with hr' | hr'
    · rw [hold r' hr']
      exact h.ended r' hr'
    · obtain rfl := List.mem_singleton.mp hr'
      exact ⟨b, hself, hb.imp And.left And.left⟩
  · intro r' a' ha' hpc
    by_cases heq : r' = r
    · subst heq
      obtain rfl := Option.some.inj (hself.symm.trans ha')
      refine ⟨_, getElem?_snoc_eq_some.mpr (Or.inr ⟨rfl, rfl⟩), ?_⟩
      exact (hb.resolve_right fun hcon => by simp [Read.isDone, hpc] at hcon).2
    · rw [hother r' heq] at ha'
      obtain ⟨n, hn, hmod⟩ := h.place r' a' ha' hpc
      exact ⟨n, getElem?_snoc_eq_some.mpr (Or.inl hn), hmod⟩
  · rw [hlog, h.freed, ← thirdReturned_congr hold, thirdReturned_iff, thirdReturned_iff]
    constructor
    · rintro ⟨n, r', hn, hmod, hret⟩
      exact ⟨n, r', getElem?_snoc_eq_some.mpr (Or.inl hn), hmod, hret⟩
    · rintro ⟨n, r', hn, hmod, hret⟩
      rcases getElem?_snoc_eq_some.mp hn with hn | ⟨rfl, rfl⟩
      · exact ⟨n, r', hn, hmod, hret⟩
      · -- a new one that has the number three has not returned
        obtain ⟨b', hb', hdone⟩ := hasReturned_iff.mp hret
        obtain rfl := Option.some.inj (hself.symm.trans hb')
        have hpc := (hb.resolve_right fun hcon => hcon.2 hmod).1
        simp [Read.isDone, hpc] at hdone

/-- A step in which no read takes its decrement. -/
theorem endRead_of_ne {r : ℕ} {a : Read} (ha : s.reads[r]? = some a) (hpc : a.pc ≠ .decRef) :
    endRead s (.resume r) = [] := by
  simp [endRead, ha, hpc]

/-- **Every step keeps the order.** -/
theorem Ordered.step {a : Action} (h : Ordered s enders) (hledger : Ledger s)
    (hstep : Step T s a s') : Ordered s' (enders ++ endRead s a) := by
  cases hstep with
  | thread hmove =>
    obtain ⟨hdec, hfree⟩ := hmove.count_eq_zero
    simp only [endRead, List.append_nil]
    exact h.of_eq (List.count_cons_of_ne hdec) (fun _ _ => rfl) (fun _ _ hr _ => hr)
      (by simp [hfree.symm])
  | openFail _ => simpa only [endRead, List.append_nil] using h
  | openOk _ =>
    simp only [endRead, List.append_nil]
    exact h.of_eq rfl (fun _ _ => rfl) (fun _ _ hr _ => hr) Iff.rfl
  | @read f n file hf ho =>
    simp only [endRead, List.append_nil]
    refine h.of_eq rfl (fun r hr => ?_) (fun r a ha hpc => ?_) Iff.rfl
    · obtain ⟨a, ha, -⟩ := h.ended r hr
      exact List.getElem?_append_left (List.getElem?_eq_some_iff.mp ha).1
    · -- a read that has just been called is not at its end
      rcases getElem?_snoc_eq_some.mp ha with ha | ⟨-, rfl⟩
      · exact ha
      · simp at hpc
  | @move r a es pc ha hmove =>
    have hdec : a.pc ≠ .decRef := by
      intro hpc
      rw [hpc] at hmove
      cases hmove
    rw [endRead_of_ne ha hdec, List.append_nil]
    by_cases hpc : a.pc = .free
    · rw [hpc] at hmove
      cases hmove
      exact h.free ha hpc
    · have hcount := hmove.count_freeInitmem
      rw [if_neg hpc, Nat.add_eq_zero_iff] at hcount
      refine h.of_set ha hpc (isDone_eq_false hmove) (fun hcon => ?_) rfl ?_ ?_
      · exact absurd hcount.2 (by simp [show pc = .free from hcon])
      · simp only [State.endReads, List.count_append, hmove.count_decRef, Nat.zero_add]
      · simp [List.mem_append, List.count_eq_zero.mp hcount.1]
  | @store r a i e ha hpc he =>
    rw [endRead_of_ne ha (by simp [hpc]), List.append_nil]
    exact h.of_set ha (by simp [hpc]) (by simp [Read.isDone, hpc]) (by simp) rfl
      (List.count_cons_of_ne (by simp)) (by simp)
  | @decRef r a ha hpc =>
    have hend : endRead s (.resume r) = [r] := by simp [endRead, ha, hpc]
    have hzero : s.freeInitRef - 1 = 0 ↔ enders.length % 2 ^ 32 = 2 := by
      rw [hledger.ref, h.length, ref_eq_zero_iff]
    rw [hend]
    refine h.snoc ha (h.not_mem ha (by simp [hpc]) (by simp [Read.isDone, hpc])) rfl
      List.count_cons_self (by simp) ?_
    by_cases hz : s.freeInitRef - 1 = 0
    · exact Or.inl ⟨if_pos hz, hzero.mp hz⟩
    · refine Or.inr ⟨?_, fun hcon => hz (hzero.mpr hcon)⟩
      rw [if_neg hz]
      rfl
  | close =>
    simp only [endRead, List.append_nil]
    exact h.of_eq rfl (fun _ _ => rfl) (fun _ _ hr _ => hr) Iff.rfl

/-- **What the order says, in every state reached.** -/
theorem Reach.ordered {ok : State × List ℕ → Action → Prop} {p : State × List ℕ}
    (h : ReachableInOrder T ok p) : Ordered p.1 p.2 := by
  induction h with
  | refl => exact ⟨rfl, by simp, by simp [asyncInit, bootState], by
      simp [asyncInit, bootState, ThirdReturned]⟩
  | step a hreach _ hnext ih =>
    obtain ⟨hstep, hshown⟩ := watched_eq_some.mp hnext
    rw [← hshown]
    exact ih.step hreach.of_watched.ledger (step_cases hstep)

/-! ### Freed by the time everything is done -/

/-- **The memory is not leaked**: when the thread has returned and some read has
reported the end of the list, it has been freed. -/
def NotLeaked (s : State) : Prop :=
  s.thread = .returned → .decRef ∈ s.log → .freeInitmem ∈ s.log

/-- The guard of the schedules in which the third end-of-list read comes before
everything is done: if the end of the list has been reported, the thread returns only
behind the return of the third read that reports it, and so does a read that reports
it when the thread has returned. -/
def thirdReadBeforeDone (T : Table) (p : State × List ℕ) : Action → Prop
  | .thread => p.1.thread = .loop T.length → p.2 ≠ [] → ThirdReturned p
  | .resume r => ∀ a ∈ p.1.reads[r]?, a.pc = .decRef → p.1.thread = .returned → ThirdReturned p
  | _ => True

instance (T : Table) (p : State × List ℕ) (a : Action) : Decidable (thirdReadBeforeDone T p a) :=
  match a with
  | .thread => inferInstanceAs (Decidable (p.1.thread = .loop T.length → p.2 ≠ [] →
      ThirdReturned p))
  | .resume r => inferInstanceAs (Decidable (∀ a ∈ p.1.reads[r]?, a.pc = .decRef →
      p.1.thread = .returned → ThirdReturned p))
  | .openDevice | .read _ _ | .close _ => .isTrue trivial

/-- The thread returns from its loop at the end of the table, and nowhere else. -/
theorem ThreadMove.eq_returned {pc pc' : ThreadPc} {e : Event} (h : ThreadMove T pc e pc')
    (hpc : pc.Sound T s.log) : pc' = .returned ↔ pc = .loop T.length := by
  cases h with
  | @leave i hi =>
    obtain rfl : i = T.length := Nat.le_antisymm hpc.1 (List.getElem?_eq_none_iff.mp hi)
    simp
  | pick hi | skip hi =>
    have hlt := lt_length_of_typeAt hi
    simp only [reduceCtorEq, ThreadPc.loop.injEq, false_iff]
    omega
  | start | finish => simp

/-- Some read has taken the end-of-list branch. -/
theorem Ordered.ne_nil_iff (h : Ordered s enders) : enders ≠ [] ↔ .decRef ∈ s.log := by
  rw [← List.length_pos_iff, h.length, State.endReads, List.count_pos_iff]

/-- **A step keeps the memory from being leaked exactly when it meets the guard.** -/
theorem NotLeaked.step_iff {a : Action} (h : NotLeaked s) (hsound : Sound T s)
    (hordered : Ordered s enders) (hstep : Step T s a s') :
    NotLeaked s' ↔ thirdReadBeforeDone T (s, enders) a := by
  cases hstep with
  | thread hmove =>
    obtain ⟨hdec, hfree⟩ := hmove.count_eq_zero
    have hret := hmove.eq_returned hsound.thread
    simp only [NotLeaked, thirdReadBeforeDone, List.mem_cons, hdec.symm, hfree.symm, false_or,
      hret, hordered.freed, hordered.ne_nil_iff]
  | @move r a es pc ha hmove =>
    refine iff_of_true (fun hthread hend => ?_) fun b hb hpc => ?_
    · have hdec : .decRef ∈ s.log :=
        (List.mem_append.mp hend).resolve_left (List.count_eq_zero.mp hmove.count_decRef)
      exact List.mem_append_right _ (h hthread hdec)
    · obtain rfl := Option.some.inj (ha.symm.trans hb)
      rw [hpc] at hmove
      cases hmove
  | @store r a i e ha hpc he =>
    refine iff_of_true (fun hthread hend => ?_) fun b hb hcon => ?_
    · exact List.mem_cons_of_mem _ (h hthread ((List.mem_cons.mp hend).resolve_left nofun))
    · obtain rfl := Option.some.inj (ha.symm.trans hb)
      simp [hpc] at hcon
  | @decRef r a ha hpc =>
    -- the end of the list is reported now, so it is the state before that counts
    simp only [NotLeaked, thirdReadBeforeDone, ha, Option.mem_some_iff, forall_eq', hpc,
      forall_true_left, List.mem_cons, true_or, reduceCtorEq, false_or, hordered.freed]
  | openFail | openOk | read | close => exact iff_of_true h trivial

/-- **The memory is not leaked by exactly the schedules whose third end-of-list read
comes before everything is done.** A run whose steps all meet the guard has a leak in
no state. Every state reached is reached in some order of its end-of-list reads, and
the first step that does not meet the guard leads to a state in which the thread has
returned, the end of the list has been reported, and the memory has not been
freed. -/
theorem notLeaked_iff :
    (∀ p, ReachableInOrder T (thirdReadBeforeDone T) p → NotLeaked p.1) ∧
      (∀ s, Reachable T anyStep s →
        ∃ enders, ReachableInOrder T (fun p => anyStep p.1) (s, enders)) ∧
      ∀ p a s', ReachableInOrder T (fun p => anyStep p.1) p → NotLeaked p.1 →
        step T p.1 a = some s' → (NotLeaked s' ↔ thirdReadBeforeDone T p a) := by
  refine ⟨fun p hp => ?_, fun s hs => hs.exists_watched, fun p a s' hp hleak hnext => ?_⟩
  · induction hp with
    | refl => exact nofun
    | step a hreach hok hnext ih =>
      have hstep := step_cases (watched_eq_some.mp hnext).1
      exact (ih.step_iff hreach.of_watched.sound hreach.ordered hstep).mpr hok
  · exact hleak.step_iff hp.of_watched.sound hp.ordered (step_cases hnext)

/-- Three end-of-list reads of `KernelConfiguration.acpiTable` while the thread is
still at its first entry, then the thread, then a fourth one. -/
theorem notLeaked_acpiTable :
    ∃ p, ReachableInOrder acpiTable (thirdReadBeforeDone acpiTable) p ∧ p.2 = [1, 2, 3, 4] ∧
      p.1.thread = .returned ∧ NotLeaked p.1 := by
  obtain ⟨p, hp⟩ : ∃ p, runActions (watched (step acpiTable) endRead)
      (thirdReadBeforeDone acpiTable) (asyncInit bootState, [])
      (acpiRun.drop 6 ++ acpiThirdRead ++ acpiRun.take 6 ++
        [.read 0 30, .resume 4, .resume 4, .resume 4]) = some p := ⟨_, rfl⟩
  have hreach : ReachableInOrder acpiTable (thirdReadBeforeDone acpiTable) p :=
    reach_of_runActions hp
  have hp' : p.2 = [1, 2, 3, 4] ∧ p.1.thread = .returned := by
    obtain rfl := Option.some.inj hp
    decide
  exact ⟨p, hreach, hp'.1, hp'.2, notLeaked_iff.1 p hreach⟩

/-- **The memory is kept after everything is done**: in the state behind
`KernelConfiguration.acpiRun` the thread has returned and the end of the list has
been reported twice, and the memory has not been freed. -/
theorem not_notLeaked_acpiTable : ¬∀ s, Reachable acpiTable anyStep s → NotLeaked s := by
  intro h
  obtain ⟨s, hs⟩ : ∃ s, runActions (step acpiTable) anyStep (asyncInit bootState) acpiRun =
      some s := ⟨_, rfl⟩
  have hfreed := h s (reach_of_runActions hs)
  obtain rfl := Option.some.inj hs
  have hmem := hfreed rfl (by decide)
  revert hmem
  decide

end KernelConfiguration
