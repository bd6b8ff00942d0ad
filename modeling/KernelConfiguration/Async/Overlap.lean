import Mathlib.Data.List.Basic
import KernelConfiguration.Async.Partition

/-!
# Reads that overlap

Nothing in the driver serialises the reads of its file. A read takes the cursor when
it is called and stores it when its initcall has returned, and what other reads have
stored in the meantime is overwritten. Two reads that overlap find the same entry;
and a read that is late sets the cursor back, so that the reads after it go over
entries that have been called.

So an initcall may be called more than once, and the question is how often. Every
call of an entry is paid for (`KernelConfiguration.State.owed`): the cursor in front
of the entry is worth one call, to whoever takes it; the reads in front of the entry
are worth one call each, whether they call the entry themselves or set the cursor
back to where the next read will. Only a read that is called while another one is
under way adds to this, and it adds one. `KernelConfiguration.started_le_overlaps`
is the bound, and it says that nothing is lost either: the end of the list is
reported behind all the deferred entries, however the reads overlap.
-/

namespace KernelConfiguration

variable {T : Table} {s s' : State} {i k : ℕ} {log : List Event}

/-! ### Who may call an entry -/

/-- The weight of a call of `device_read` that is made while another one is under
way. -/
def overlapping (s : State) : Action → ℕ
  | .read _ _ => if ∃ a ∈ s.reads, a.isDone = false then 1 else 0
  | _ => 0

/-- The read is in front of position `i` or at it, and is still to store its
cursor. -/
def ReadPc.inFront (i : ℕ) : ReadPc → Bool
  | .scan j | .call j | .inCall j | .store j => j ≤ i
  | .decRef | .free | .done _ => false

/-- The read is in front of position `i`, or at it and has not called the entry. -/
def ReadPc.mayCall (i : ℕ) : ReadPc → Bool
  | .scan j | .call j => j ≤ i
  | .inCall j | .store j => j < i
  | .decRef | .free | .done _ => false

/-- The number of reads in front of position `i` or at it. -/
def State.readsInFront (s : State) (i : ℕ) : ℕ := s.reads.countP fun a => a.pc.inFront i

/-- The number of these that have not called the entry. -/
def State.mayCall (s : State) (i : ℕ) : ℕ := s.reads.countP fun a => a.pc.mayCall i

/-- **The calls of entry `i` still owed**: one for each read that has not made it,
or one if there is no such read and the cursor is in front of the entry. -/
def State.owed (s : State) (i : ℕ) : ℕ :=
  if s.readsInFront i = 0 then (if s.cursor ≤ i then 1 else 0) else s.mayCall i

theorem ReadPc.inFront_of_mayCall {pc : ReadPc} (h : pc.mayCall i) : pc.inFront i := by
  cases pc <;> simp_all [ReadPc.mayCall, ReadPc.inFront, Nat.le_of_lt]

theorem State.mayCall_le (s : State) (i : ℕ) : s.mayCall i ≤ s.readsInFront i :=
  List.countP_mono_left fun _ _ h => ReadPc.inFront_of_mayCall h

/-- A read in front of an entry is under way. -/
theorem ReadPc.isDone_of_inFront {a : Read} (h : a.pc.inFront i) : a.isDone = false := by
  rw [Read.isDone]
  cases hpc : a.pc with
  | done text => simp [hpc, ReadPc.inFront] at h
  | _ => rfl

/-! ### Counting -/

/-- The calls of an entry are the events of their starts. -/
theorem count_started (log : List Event) : (started log).count i = log.count (.callStart i) := by
  induction log with
  | nil => rfl
  | cons e log ih =>
    cases e with
    | callStart j =>
      rw [started_callStart, List.count_append, ih, List.count_singleton, List.count_cons]
      simp
    | _ =>
      rw [started_cons_of_none rfl, ih, List.count_cons_of_ne]
      exact nofun

/-- **The moves of a read**: it stays in front of the entry, and a call of the entry
is one that it was still to make. -/
theorem ReadMove.owed {pc pc' : ReadPc} {es : List Event} (h : ReadMove T pc es pc')
    (hpc : pc.Sound T log) (hi : typeAt T i = some .deferred) :
    pc'.inFront i = pc.inFront i ∧
      (pc'.mayCall i).toNat + es.count (.callStart i) = (pc.mayCall i).toNat := by
  have hlt := lt_length_of_typeAt hi
  cases h with
  | @skip j t hj ht =>
    -- the entry itself is not passed over
    have hne : j ≠ i := by
      rintro rfl
      rw [hi, Option.some.injEq] at hj
      exact ht hj.symm
    have hle : j + 1 ≤ i ↔ j ≤ i := by omega
    simp [ReadPc.inFront, ReadPc.mayCall, hle]
  | pick => simp [ReadPc.inFront, ReadPc.mayCall]
  | overrun hj hne =>
    exact absurd (Nat.le_antisymm hpc.1 (List.getElem?_eq_none_iff.mp hj)) hne
  | leave =>
    have hnot : ¬T.length ≤ i := Nat.not_le.mpr hlt
    simp [ReadPc.inFront, ReadPc.mayCall, hnot]
  | @start j =>
    refine ⟨rfl, ?_⟩
    by_cases hji : j = i
    · simp [ReadPc.mayCall, hji]
    · have hle : j < i ↔ j ≤ i := by omega
      simp [ReadPc.mayCall, hle, hji]
  | finish => simp [ReadPc.inFront, ReadPc.mayCall]
  | free => simp [ReadPc.inFront, ReadPc.mayCall]

/-! ### The bound -/

/-- The calls of an entry, made and owed. -/
def State.paid (s : State) (i : ℕ) : ℕ := s.log.count (.callStart i) + s.owed i

/-- A step that leaves the reads, the cursor and the calls alone. -/
theorem paid_of_eq (hreads : s'.reads = s.reads) (hcursor : s'.cursor = s.cursor)
    (hlog : s'.log.count (.callStart i) = s.log.count (.callStart i)) : s'.paid i = s.paid i := by
  rw [State.paid, State.paid, State.owed, State.owed, State.readsInFront, State.readsInFront,
    State.mayCall, State.mayCall, hreads, hcursor, hlog]

/-- A read that is called adds one call, unless nobody was in front of the entry. -/
theorem paid_read {f n : ℕ} {file : File} (hone : OneFile s) (hf : s.files[f]? = some file) :
    ({ s with reads := s.reads ++ [⟨f, n, .scan file.privateData⟩] } : State).paid i ≤
      s.paid i + overlapping s (.read f n) := by
  obtain ⟨-, -, hfiles, -⟩ := hone.of_file hf
  have hle := s.mayCall_le i
  have hcursor := cursor_of_files hfiles
  set s' : State := { s with reads := s.reads ++ [⟨f, n, .scan file.privateData⟩] }
  have hcursor' : s'.cursor = file.privateData := cursor_of_files hfiles
  have hfront : s'.readsInFront i =
      s.readsInFront i + (ReadPc.inFront i (.scan file.privateData)).toNat := countP_snoc _ _ _
  have hmay : s'.mayCall i = s.mayCall i + (ReadPc.mayCall i (.scan file.privateData)).toNat :=
    countP_snoc _ _ _
  have hlog : s'.log = s.log := rfl
  rw [State.paid, State.paid, State.owed, State.owed, hlog, hcursor, hcursor']
  by_cases hc : file.privateData ≤ i
  · simp only [ReadPc.inFront, ReadPc.mayCall, hc, decide_true, Bool.toNat_true] at hfront hmay
    by_cases hnone : s.readsInFront i = 0
    · rw [if_neg (by omega), if_pos hnone, if_pos hc]
      omega
    · -- a read in front of the entry is under way, and the new one overlaps it
      have hover : overlapping s (.read f n) = 1 := by
        obtain ⟨a, ha, hfront⟩ := List.countP_pos_iff.mp (Nat.pos_of_ne_zero hnone)
        exact if_pos ⟨a, ha, ReadPc.isDone_of_inFront hfront⟩
      rw [if_neg (by omega), if_neg hnone, hover]
      omega
  · simp only [ReadPc.inFront, ReadPc.mayCall, hc, decide_false, Bool.toNat_false] at hfront hmay
    rw [hfront, hmay]
    exact Nat.le_add_right _ _

/-- A move of a read changes nothing: what is called was owed. -/
theorem paid_move {r : ℕ} {a : Read} {es : List Event} {pc : ReadPc} (hsound : Sound T s)
    (ha : s.reads[r]? = some a) (hmove : ReadMove T a.pc es pc)
    (hi : typeAt T i = some .deferred) :
    ({ s with reads := s.reads.set r { a with pc := pc }, log := es ++ s.log } : State).paid i =
      s.paid i := by
  obtain ⟨hfront, hmay⟩ := hmove.owed (hsound.reads a (List.mem_of_getElem? ha)) hi
  set s' : State := { s with reads := s.reads.set r { a with pc := pc }, log := es ++ s.log }
  have hfront' : s'.readsInFront i + (a.pc.inFront i).toNat =
      s.readsInFront i + (pc.inFront i).toNat := countP_set_add _ _ ha
  have hmay' : s'.mayCall i + (a.pc.mayCall i).toNat = s.mayCall i + (pc.mayCall i).toNat :=
    countP_set_add _ _ ha
  have hlog : s'.log.count (.callStart i) = es.count (.callStart i) + s.log.count (.callStart i) :=
    List.count_append
  have hcursor : s'.cursor = s.cursor := rfl
  have hle := s.mayCall_le i
  rw [hfront] at hfront'
  rw [State.paid, State.paid, State.owed, State.owed, hlog, hcursor]
  by_cases hnone : s.readsInFront i = 0
  · rw [if_pos hnone, if_pos (by omega)]
    omega
  · rw [if_neg hnone, if_neg (by omega)]
    omega

/-- A read that stores its cursor pays with the call it has made, or with the call the
cursor is now worth. -/
theorem paid_store {r j : ℕ} {a : Read} {text : List Char} (hone : OneFile s)
    (ha : s.reads[r]? = some a) (hpc : a.pc = .store j) :
    ({ s with
        reads := s.reads.set r { a with pc := .done text }
        files := s.files.modify a.file fun f => { f with privateData := j + 1 }
        log := .loadId j :: s.log } : State).paid i ≤ s.paid i := by
  obtain ⟨-, ⟨file, hfile⟩, hzero⟩ := hone.of_read ha
  set s' : State := { s with
    reads := s.reads.set r { a with pc := .done text }
    files := s.files.modify a.file fun f => { f with privateData := j + 1 }
    log := .loadId j :: s.log }
  have hcursor : s'.cursor = j + 1 := by
    simp [s', State.cursor, hfile, hzero a (List.mem_of_getElem? ha)]
  have hfront : s'.readsInFront i + (a.pc.inFront i).toNat =
      s.readsInFront i + (ReadPc.inFront i (.done text)).toNat := countP_set_add _ _ ha
  have hmay : s'.mayCall i + (a.pc.mayCall i).toNat =
      s.mayCall i + (ReadPc.mayCall i (.done text)).toNat := countP_set_add _ _ ha
  have hlog : s'.log.count (.callStart i) = s.log.count (.callStart i) :=
    List.count_cons_of_ne (show Event.loadId j ≠ .callStart i by simp)
  have hle := s.mayCall_le i
  have hle' := s'.mayCall_le i
  simp only [hpc, ReadPc.inFront, ReadPc.mayCall, Bool.toNat_false, Nat.add_zero] at hfront hmay
  rw [State.paid, State.paid, State.owed, State.owed, hlog, hcursor]
  refine Nat.add_le_add_left ?_ _
  rcases Nat.lt_trichotomy j i with hlt | rfl | hgt
  · simp only [hlt, Nat.le_of_lt hlt, decide_true, Bool.toNat_true] at hfront hmay
    rw [if_neg (show s.readsInFront i ≠ 0 by omega), if_pos (Nat.succ_le_of_lt hlt)]
    split <;> omega
  · simp only [Nat.le_refl, Nat.lt_irrefl, decide_true, decide_false, Bool.toNat_true,
      Bool.toNat_false, Nat.add_zero] at hfront hmay
    rw [if_neg (show s.readsInFront j ≠ 0 by omega), if_neg (Nat.not_succ_le_self j)]
    split <;> omega
  · have hnle : ¬j ≤ i := Nat.not_le.mpr hgt
    have hnlt : ¬j < i := Nat.not_lt.mpr (Nat.le_of_lt hgt)
    simp only [hnle, hnlt, decide_false, Bool.toNat_false, Nat.add_zero] at hfront hmay
    rw [hfront, hmay, if_neg (show ¬j + 1 ≤ i by omega)]
    split <;> omega

/-- A read that gives up its reference is behind all entries. -/
theorem paid_decRef {r : ℕ} {a : Read} {pc : ReadPc} {ref : BitVec 32}
    (ha : s.reads[r]? = some a) (hpc : a.pc = .decRef) (hfalse : pc.inFront i = false) :
    ({ s with
        freeInitRef := ref
        reads := s.reads.set r { a with pc := pc }
        log := .decRef :: s.log } : State).paid i = s.paid i := by
  set s' : State := { s with
    freeInitRef := ref
    reads := s.reads.set r { a with pc := pc }
    log := .decRef :: s.log }
  have hmayCall : pc.mayCall i = false := by
    rw [Bool.eq_false_iff]
    exact fun h => absurd (ReadPc.inFront_of_mayCall h) (by simp [hfalse])
  have hfront : s'.readsInFront i + (a.pc.inFront i).toNat =
      s.readsInFront i + (pc.inFront i).toNat := countP_set_add _ _ ha
  have hmay : s'.mayCall i + (a.pc.mayCall i).toNat = s.mayCall i + (pc.mayCall i).toNat :=
    countP_set_add _ _ ha
  have hlog : s'.log.count (.callStart i) = s.log.count (.callStart i) :=
    List.count_cons_of_ne (show Event.decRef ≠ .callStart i from nofun)
  have hcursor : s'.cursor = s.cursor := rfl
  rw [hpc, hfalse, ReadPc.inFront, Nat.add_right_cancel_iff] at hfront
  rw [hpc, hmayCall, ReadPc.mayCall, Nat.add_right_cancel_iff] at hmay
  rw [State.paid, State.paid, State.owed, State.owed, hlog, hcursor, hfront, hmay]

/-- **A step adds to the calls of an entry, made and owed, what it overlaps.** -/
theorem Step.paid {a : Action} (hstep : Step T s a s') (hsound : Sound T s) (hone : OneFile s)
    (hi : typeAt T i = some .deferred) : s'.paid i ≤ s.paid i + overlapping s a := by
  cases hstep with
  | @thread e pc hmove =>
    -- the thread does not call deferred entries
    refine Nat.le_of_eq (paid_of_eq rfl rfl ?_)
    have hcalls := congrArg (List.count i) (hmove.startedOf_deferred hsound.thread)
    rw [← count_started_of_typeAt hi, ← count_started_of_typeAt hi, count_started,
      count_started] at hcalls
    exact hcalls
  | openFail => exact Nat.le_refl _
  | openOk hd =>
    refine Nat.le_of_eq (paid_of_eq rfl ?_ rfl)
    rcases hone with ⟨-, hf, -⟩ | ⟨hd', -⟩
    · simp [State.cursor, hf]
    · exact absurd hd' hd
  | read hf _ => exact paid_read hone hf
  | move ha hmove => exact Nat.le_of_eq (paid_move hsound ha hmove hi)
  | store ha hpc _ => exact paid_store hone ha hpc
  | decRef ha hpc =>
    refine Nat.le_of_eq (paid_decRef ha hpc ?_)
    split <;> rfl
  | close hf _ _ =>
    obtain ⟨rfl, -, hg, -⟩ := hone.of_file hf
    refine Nat.le_of_eq (paid_of_eq rfl ?_ rfl)
    simp [State.cursor, hg]

/-- **How often an initcall is called, and that none is lost, however the reads
overlap.** In every run, an entry is called at most once more than there are reads
that were called while another one was under way, and an entry of the thread at most
once. When a read has reported the end of the list, every deferred initcall has
returned. -/
theorem started_le_overlaps
    (h : Weighted (step T) anyStep overlapping (asyncInit bootState) k s) :
    (∀ i, (started s.log).count i ≤ 1 + k) ∧
      (∀ i, typeAt T i ≠ some .deferred → (started s.log).count i ≤ 1) ∧
      (.decRef ∈ s.log → ∀ i, typeAt T i = some .deferred → .callReturn i ∈ s.log) := by
  have hsound := h.reach.sound
  have hthread : ∀ i, typeAt T i ≠ some .deferred → (started s.log).count i ≤ 1 := by
    intro i hi
    by_cases hmem : i ∈ started s.log
    · have hasync := (hsound.typeAt_of_started hmem).resolve_right hi
      rw [count_started_of_typeAt hasync, h.reach.startedOf_asynchronized]
      exact List.nodup_iff_count_le_one.mp nodup_posBelow i
    · rw [List.count_eq_zero.mpr hmem]
      exact Nat.zero_le 1
  refine ⟨fun i => ?_, hthread, fun hend i hi => ?_⟩
  · by_cases hi : typeAt T i = some .deferred
    · have hpaid : s.paid i ≤ 1 + k := by
        refine h.invariant (J := fun k s => s.paid i ≤ 1 + k) (Nat.le_refl 1) ?_
        intro k s a s' hreach hk _ hnext
        have hstep := (step_cases hnext).paid hreach.sound hreach.oneFile hi
        omega
      rw [count_started]
      exact (Nat.le_add_right _ _).trans hpaid
    · exact (hthread i hi).trans (Nat.le_add_right 1 k)
  · obtain ⟨before, hbefore, hsub⟩ := hsound.events.exists_before hend
    exact hsub _ (hbefore i (lt_length_of_typeAt hi) hi)

/-- Two reads of `KernelConfiguration.acpiTable` that overlap, and call its deferred
entry twice. -/
theorem started_le_overlaps_acpiTable :
    ∃ s, Weighted (step acpiTable) anyStep overlapping (asyncInit bootState) 1 s ∧
      (started s.log).count 1 = 2 ∧ ∀ i, (started s.log).count i ≤ 1 + 1 := by
  obtain ⟨s, hs⟩ : ∃ s, runWeighted (step acpiTable) anyStep overlapping 0 (asyncInit bootState)
      [.openDevice, .read 0 30, .resume 0, .resume 0, .read 0 30, .resume 1, .resume 1, .resume 0,
        .resume 1, .resume 0, .resume 1, .resume 1, .resume 0] = some (1, s) := ⟨_, rfl⟩
  have hrun := weighted_of_runWeighted .refl hs
  refine ⟨s, hrun, ?_, (started_le_overlaps hrun).1⟩
  obtain ⟨-, rfl⟩ := Prod.mk.inj (Option.some.inj hs)
  decide

end KernelConfiguration
