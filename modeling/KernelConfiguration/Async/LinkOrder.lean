import Mathlib.Data.List.Basic
import KernelConfiguration.Async.Order
import KernelConfiguration.Async.Progress

/-!
# A boot that keeps the dependencies

Link order alone does not make a boot keep the dependencies, since a client may
overtake the thread (`KernelConfiguration.dependencyOrder_iff`). What is missing is
one rule for user space: the device is opened only after the thread has returned
(`KernelConfiguration.threadFirst`). Under this rule a boot keeps the dependencies
exactly when the table is in order within each of the two types
(`KernelConfiguration.dependencyOrder_threadFirst_iff`); what is between the types is
then of no account.

And there is such an order for whatever is registered
(`KernelConfiguration.exists_linkOrder`). The rows of `init_info` name their parents
freely, and a group stands for modules that are named nowhere near it; but no chain of
parents comes back to where it started, which a level for each row shows.
-/

namespace KernelConfiguration

/-! ### A level for each row -/

/-- Sorting by a rank puts what has the smaller rank in front. -/
theorem exists_perm_rank {α : Type*} (rank : α → ℕ) (l : List α) :
    ∃ l' : List α, l'.Perm l ∧
      ∀ (i j : ℕ) (a b : α), l'[i]? = some a → l'[j]? = some b → rank a < rank b → i < j := by
  have hsorted : (l.mergeSort fun a b => rank a ≤ rank b).Pairwise
      fun a b => decide (rank a ≤ rank b) = true := by
    refine List.pairwise_mergeSort (fun a b c hab hbc => ?_) (fun a b => ?_) l
    · rw [decide_eq_true_eq] at hab hbc ⊢
      exact hab.trans hbc
    · rw [Bool.or_eq_true, decide_eq_true_eq, decide_eq_true_eq]
      exact Nat.le_total _ _
  refine ⟨l.mergeSort fun a b => rank a ≤ rank b, List.mergeSort_perm _ _, ?_⟩
  intro i j a b hi hj hlt
  by_contra hge
  obtain ⟨hil, rfl⟩ := List.getElem?_eq_some_iff.mp hi
  obtain ⟨hjl, rfl⟩ := List.getElem?_eq_some_iff.mp hj
  rcases Nat.lt_or_eq_of_le (Nat.not_lt.mp hge) with hji | rfl
  · have hle := of_decide_eq_true (List.pairwise_iff_getElem.mp hsorted j i hjl hil hji)
    exact Nat.not_le.mpr hlt hle
  · exact Nat.lt_irrefl _ hlt

/-- **The level of a module**: the length of the longest chain of parents above it, as
far as it is followed. -/
def ModulesE.level : ℕ → ModulesE → ℕ
  | 0, _ => 0
  | n + 1, e =>
    max (if (initInfo e).parent1Id = .none then 0 else (initInfo e).parent1Id.level n + 1)
      (if (initInfo e).parent2Id = .none then 0 else (initInfo e).parent2Id.level n + 1)

/-- The chains have five modules at most, nobody names the group of those that have
none, and the members of the other groups have no parents. -/
theorem level_initInfo (e : ModulesE) :
    (∀ p ∈ [(initInfo e).parent1Id, (initInfo e).parent2Id], p ≠ .none →
      p ≠ .grpNone ∧ p.level 5 < e.level 5) ∧
    ((initInfo e).grpId.isGrp = true → (initInfo e).grpId ≠ .grpNone → e.level 5 = 0) := by
  cases e <;> decide

/-- **A parent is at a lower level**, also when it is one through a group. -/
theorem ModulesE.IsParentOf.level_lt {q e : ModulesE} (h : q.IsParentOf e) :
    q.level 5 < e.level 5 := by
  obtain ⟨p, hp, hne, hq⟩ := h
  obtain ⟨hgrp, hlt⟩ := (level_initInfo e).1 p hp hne
  rcases hq with rfl | ⟨hp', rfl⟩
  · exact hlt
  · rw [(level_initInfo q).2 hp' hgrp]
    exact Nat.zero_lt_of_lt hlt

variable {T : Table} {s s' : State} {i j : ℕ}

/-- Whatever is registered can be put in link order. -/
theorem exists_parentsEarlier (T : Table) : ∃ T', T'.Perm T ∧ ParentsEarlier T' := by
  obtain ⟨T', hperm, hrank⟩ := exists_perm_rank (fun e : InitFn => e.id.level 5) T
  refine ⟨T', hperm, ?_⟩
  rintro i j ⟨q, e, hq, he, hqe⟩
  exact hrank i j q e hq he hqe.level_lt

/-! ### Opening after the thread -/

/-- The guard of the runs in which the device is opened **after the thread has
returned**. -/
def threadFirst (s : State) : Action → Prop
  | .openDevice => s.thread = .returned
  | _ => True

variable (T s) in
/-- **The invariant of these runs**: there are no files and no reads before the thread
has returned, and when a deferred initcall starts the asynchronized ones have
returned. -/
structure Waited : Prop where
  /-- A file has been opened after the thread. -/
  files : s.files ≠ [] → s.thread = .returned
  /-- So has a read been called. -/
  reads : s.reads ≠ [] → s.thread = .returned
  /-- What the start of a deferred initcall finds behind it. -/
  events : EveryEvent (fun e before => ∀ j, e = .callStart j → typeAt T j = some .deferred →
    RanBelow T .asynchronized T.length before) s.log

theorem ThreadMove.ne_returned {pc pc' : ThreadPc} {e : Event} (h : ThreadMove T pc e pc') :
    pc ≠ .returned := by
  cases h <;> simp

/-- What the thread starts is not deferred. -/
theorem ThreadMove.not_deferred {pc pc' : ThreadPc} {log : List Event}
    (h : ThreadMove T pc (.callStart j) pc') (hpc : pc.Sound T log) :
    typeAt T j ≠ some .deferred := by
  cases h with
  | start =>
    rw [hpc.1]
    simp

/-- The moves of a read add one event at most. -/
theorem ReadMove.everyEvent {P : Event → List Event → Prop} {pc pc' : ReadPc}
    {es log : List Event} (h : ReadMove T pc es pc') (hP : ∀ e, P e log)
    (hlog : EveryEvent P log) : EveryEvent P (es ++ log) := by
  cases h with
  | overrun | leave => exact hlog
  | skip | pick | start | finish | free => exact ⟨hP _, hlog⟩

/-- **Every step of these runs keeps the invariant.** -/
theorem Waited.step {a : Action} (h : Waited T s) (hsound : Sound T s) (hok : threadFirst s a)
    (hstep : Step T s a s') : Waited T s' := by
  have hreads : ∀ {r : ℕ} {b : Read}, s.reads[r]? = some b → s.thread = .returned := by
    intro r b hb
    refine h.reads ?_
    rintro hnil
    simp [hnil] at hb
  have hfiles : ∀ {f : ℕ} {file : File}, s.files[f]? = some file → s.thread = .returned := by
    intro f file hf
    refine h.files ?_
    rintro hnil
    simp [hnil] at hf
  cases hstep with
  | thread hmove =>
    refine ⟨fun hne => absurd (h.files hne) hmove.ne_returned,
      fun hne => absurd (h.reads hne) hmove.ne_returned, ?_, h.events⟩
    rintro j rfl hj
    exact absurd hj (hmove.not_deferred hsound.thread)
  | openFail => exact h
  | openOk => exact ⟨fun _ => hok, h.reads, h.events⟩
  | read hf => exact ⟨h.files, fun _ => hfiles hf, h.events⟩
  | move ha hmove =>
    have hthread := hreads ha
    have hran : RanBelow T .asynchronized T.length s.log := by
      have hpc := hsound.thread
      rw [hthread] at hpc
      exact hpc.2
    exact ⟨fun _ => hthread, fun _ => hthread,
      hmove.everyEvent (fun _ _ _ _ => hran) h.events⟩
  | store ha => exact ⟨fun _ => hreads ha, fun _ => hreads ha, nofun, h.events⟩
  | decRef ha => exact ⟨fun _ => hreads ha, fun _ => hreads ha, nofun, h.events⟩
  | close hf => exact ⟨fun _ => hfiles hf, h.reads, h.events⟩

theorem Reach.waited (h : Reachable T threadFirst s) : Waited T s := by
  refine (h.invariant (I := fun s => Sound T s ∧ Waited T s)
    ⟨sound_asyncInit, by simp [asyncInit, bootState], by simp [asyncInit, bootState], trivial⟩
    ?_).2
  rintro s a s' ⟨hsound, hwaited⟩ hok hnext
  have hstep := step_cases hnext
  exact ⟨hsound.step hstep, hwaited.step hsound hok hstep⟩

/-- **The table is in order within each type that runs.** -/
def OrderedWithin (T : Table) : Prop :=
  ∀ i j t, IsParent T i j → t = .asynchronized ∨ t = .deferred → typeAt T i = some t →
    typeAt T j = some t → i < j

/-- With the table in order within each type, a boot that opens the device after the
thread keeps the dependencies. -/
theorem dependencyOrder_of_threadFirst (hT : OrderedWithin T) (h : Reachable T threadFirst s) :
    DependencyOrder T s.log := by
  refine (h.sound.events.and h.waited.events).imp ?_
  rintro e before ⟨hsound, hwaited⟩ j rfl i hij hi
  obtain ⟨t, ht, hj, hran⟩ := hsound
  obtain ⟨q, -, hq, -⟩ := id hij
  rcases typeAt_cases hq with hasync | hdef | hdis
  · rcases ht with rfl | rfl
    · exact hran i (hT i j _ hij (Or.inl rfl) hasync hj) hasync
    · exact hwaited j rfl hj i (lt_length_of_typeAt hasync) hasync
  · rcases ht with rfl | rfl
    · exact absurd hdef (hij.not_deferred hj)
    · exact hran i (hT i j _ hij (Or.inr rfl) hdef hj) hdef
  · exact absurd hdis hi

/-! ### A boot that starts everything -/

/-- Once the thread has returned, every step may be taken. -/
theorem reach_threadFirst (h : Reach (step T) anyStep s s') (hs : s.thread = .returned) :
    Reach (step T) threadFirst s s' ∧ s'.thread = .returned := by
  induction h with
  | refl => exact ⟨.refl, hs⟩
  | @step u u' a _ _ hnext ih =>
    obtain ⟨hreach, hu⟩ := ih
    have hok : threadFirst u a := by
      cases a with
      | openDevice => exact hu
      | thread | read | resume | close => trivial
    refine ⟨hreach.step a hok hnext, ?_⟩
    cases step_cases hnext with
    | thread hmove => exact absurd hu hmove.ne_returned
    | openFail | openOk | read | move | store | decRef | close => exact hu

/-- The thread comes to its end before the device has been opened. -/
theorem exists_returned (T : Table) : ∃ s, Reachable T threadFirst s ∧ s.thread = .returned ∧
    s.files = [] ∧ s.initDone = 0 := by
  have hgo : ∀ n s, s.thread.work T = n → Reachable T threadFirst s → s.files = [] →
      s.initDone = 0 → ∃ s', Reachable T threadFirst s' ∧ s'.thread = .returned ∧
        s'.files = [] ∧ s'.initDone = 0 := by
    intro n
    induction n with
    | zero =>
      intro s hwork hs hfiles hdone
      have hend := (ThreadPc.work_eq_zero.mp hwork).resolve_left hs.thread_ne_absent
      exact ⟨s, hs, hend, hfiles, hdone⟩
    | succ n ih =>
      intro s hwork hs hfiles hdone
      have hend : s.thread ≠ .returned := by
        rintro hcon
        rw [hcon] at hwork
        exact absurd hwork (Nat.succ_ne_zero n).symm
      obtain ⟨s', hnext⟩ := exists_step_thread (T := T) hs.thread_ne_absent hend
      have hs' : Reachable T threadFirst s' := hs.step .thread trivial hnext
      have hstep := step_cases hnext
      have hcount := hstep.threadWork hs.sound
      rw [hwork, threadSteps] at hcount
      cases hstep with
      | thread => exact ih _ (by omega) hs' hfiles hdone
  exact hgo _ _ rfl .refl rfl rfl

/-- Reads can be made until the deferred entry has been called. -/
theorem exists_read_deferred (n : ℕ) : ∀ {s : State} {f : ℕ} {file : File},
    s.files[f]? = some file → file.isOpen → file.privateData ≤ T.length →
    T.length - file.privateData ≤ n → j ∈ posFrom T .deferred file.privateData →
    ∃ s', Reach (step T) anyStep s s' ∧ j ∈ started s'.log := by
  induction n with
  | zero =>
    intro s f file _ _ _ hn hj
    rw [posFrom_of_le (by omega)] at hj
    exact absurd hj List.not_mem_nil
  | succ n ih =>
    intro s f file hf hopen hle hn hj
    have hreach := reach_deviceRead (n := 0) hf hopen hle
    rcases deviceRead_cases T s f file.privateData 0 with
      ⟨i, text, htext, hci, hlt, hpos, hfiles, hlog⟩ | ⟨-, hpos, -⟩
    · rw [hpos] at hj
      rcases List.mem_cons.mp hj with rfl | hj
      · refine ⟨_, hreach, ?_⟩
        change j ∈ started (deviceRead T s f file.privateData 0).1.log
        rw [hlog]
        exact List.mem_append_right _ List.mem_cons_self
      · have hf' : ((deviceRead T s f file.privateData 0).1.withRead
            ⟨f, 0, .done ((deviceRead T s f file.privateData 0).2.getD [])⟩).files[f]? =
              some { file with privateData := i + 1 } := by
          change (deviceRead T s f file.privateData 0).1.files[f]? = _
          rw [hfiles, List.getElem?_modify_eq, hf]
          rfl
        obtain ⟨s', hs', hmem⟩ := ih hf' hopen hlt (by dsimp only; omega) hj
        exact ⟨s', hreach.trans hs', hmem⟩
    · rw [hpos] at hj
      exact absurd hj List.not_mem_nil

/-- Every entry of a type that runs can be started. -/
theorem exists_started {t : TaskType} (ht : t = .asynchronized ∨ t = .deferred)
    (hj : typeAt T j = some t) : ∃ s, Reachable T threadFirst s ∧ .callStart j ∈ s.log := by
  obtain ⟨s, hs, hthread, hfiles, hdone⟩ := exists_returned T
  rcases ht with rfl | rfl
  · have hpc := hs.sound.thread
    rw [hthread] at hpc
    have hret := hpc.2 j (lt_length_of_typeAt hj) hj
    exact ⟨s, hs, mem_started.mp (hs.sound.mem_started_of_return hret)⟩
  · have hopen : step T s .openDevice =
        some { s with initDone := 1, files := s.files ++ [⟨0, true⟩] } := by
      simp [step, deviceOpen, hdone]
    have hfile : ({ s with initDone := 1, files := s.files ++ [⟨0, true⟩] } : State).files[0]? =
        some ⟨0, true⟩ := by
      simp [hfiles]
    have hpos : j ∈ posFrom T .deferred 0 := by
      rw [posFrom_zero]
      exact mem_positions hj
    obtain ⟨s', hs', hmem⟩ := exists_read_deferred (T := T) T.length hfile rfl (Nat.zero_le _)
      (Nat.sub_le _ _) hpos
    have hok : threadFirst s .openDevice := hthread
    exact ⟨s', (hs.step .openDevice hok hopen).trans (reach_threadFirst hs' hthread).1,
      mem_started.mp hmem⟩

/-- What has returned has started. -/
theorem callStart_mem_of_return {log : List Event} (h : EveryEvent (EventSound T) log)
    (hi : .callReturn i ∈ log) : .callStart i ∈ log := by
  obtain ⟨before, hstart, hsub⟩ := h.exists_before hi
  exact hsub _ hstart

/-- **When a boot that opens the device after the thread keeps the dependencies.**
Every run in which no client opens the device before the thread has returned keeps
them, exactly when parents come first within each of the two types that run. -/
theorem dependencyOrder_threadFirst_iff (T : Table) :
    (∀ s, Reachable T threadFirst s → DependencyOrder T s.log) ↔ OrderedWithin T := by
  refine ⟨fun h i j t hij ht hi hj => ?_, fun hT s hs => dependencyOrder_of_threadFirst hT hs⟩
  obtain ⟨s, hs, hmem⟩ := exists_started ht hj
  -- when the child starts for the first time, the parent has returned
  obtain ⟨before, ⟨-, horder⟩, hevents, hfirst⟩ := (hs.sound.events.and (h s hs)).exists_first hmem
  have hsound : EveryEvent (EventSound T) before := hevents.imp fun _ _ hP => hP.1
  have hne : typeAt T i ≠ some .disable := by
    rw [hi]
    rcases ht with rfl | rfl <;> simp
  have hstart := callStart_mem_of_return hsound (horder j rfl i hij hne)
  by_contra hge
  rcases Nat.lt_or_eq_of_le (Nat.not_lt.mp hge) with hji | rfl
  · -- and so have the entries of its type in front of the parent
    obtain ⟨before', ⟨t', -, hi', hran⟩, hsub⟩ := hsound.exists_before hstart
    obtain rfl : t = t' := Option.some.inj (hi.symm.trans hi')
    exact hfirst (callStart_mem_of_return hsound (hsub _ (hran j hji hj)))
  · exact hfirst hstart

/-- **Whatever is registered can be linked so that the dependencies are kept.** The
entries of every table can be put in an order in which all parents come first, and
with the table in this order every run in which no client opens the device before the
thread has returned keeps the dependencies. -/
theorem exists_linkOrder (T : Table) : ∃ T', T'.Perm T ∧ ParentsEarlier T' ∧
    ∀ s, Reachable T' threadFirst s → DependencyOrder T' s.log := by
  obtain ⟨T', hperm, hT'⟩ := exists_parentsEarlier T
  refine ⟨T', hperm, hT', fun s hs => dependencyOrder_of_threadFirst ?_ hs⟩
  exact fun i j t hij _ _ _ => hT' i j hij

end KernelConfiguration
