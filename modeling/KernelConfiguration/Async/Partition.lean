import Mathlib.Data.List.Basic
import Mathlib.Data.List.Nodup
import Mathlib.Data.List.Range
import KernelConfiguration.Async.Invariant

/-!
# Every initcall runs exactly once

The two consumers of the table between them call every entry that is to be
called, and call it once. The statement is about what has been *started*, in the
order in which it was started, and it is exact in every reachable state:

* `KernelConfiguration.Reach.startedOf_asynchronized` – under any guard, the
  asynchronized entries started so far are those the thread has reached;
* `KernelConfiguration.Serial` – when the reads are serialised, the deferred
  entries started so far are those the one cursor and the one read under way have
  reached.

Serialising the reads is not for convenience. A read stores its cursor only after
the initcall has returned, so two reads of the same file that overlap find the
same entry and call it twice.
-/

namespace KernelConfiguration

variable {T : Table} {s s' : State} {t : TaskType} {c c' i : ℕ} {log : List Event}

/-! ### The positions of one type -/

/-- The positions of type `t` below `c`, in table order. -/
def posBelow (T : Table) (t : TaskType) (c : ℕ) : List ℕ :=
  (List.range c).filter fun i => typeAt T i = some t

/-- **The positions of type `t`**, in table order. -/
def positions (T : Table) (t : TaskType) : List ℕ := posBelow T t T.length

@[simp] theorem posBelow_zero : posBelow T t 0 = [] := rfl

theorem mem_posBelow : i ∈ posBelow T t c ↔ i < c ∧ typeAt T i = some t := by
  simp [posBelow]

theorem nodup_posBelow : (posBelow T t c).Nodup := List.nodup_range.filter _

theorem posBelow_succ_of_eq (h : typeAt T c = some t) :
    posBelow T t (c + 1) = posBelow T t c ++ [c] := by
  simp [posBelow, List.range_succ, List.filter_append, h]

theorem posBelow_succ_of_ne (h : typeAt T c ≠ some t) : posBelow T t (c + 1) = posBelow T t c := by
  simp [posBelow, List.range_succ, List.filter_append, h]

theorem posBelow_prefix (h : c ≤ c') : posBelow T t c <+: posBelow T t c' := by
  induction h with
  | refl => exact List.prefix_refl _
  | @step m _ ih =>
    by_cases hm : typeAt T m = some t
    · rw [posBelow_succ_of_eq hm]
      exact ih.trans (List.prefix_append _ _)
    · rw [posBelow_succ_of_ne hm]
      exact ih

theorem mem_positions (h : typeAt T i = some t) : i ∈ positions T t :=
  mem_posBelow.mpr ⟨lt_length_of_typeAt h, h⟩

/-! ### The calls of a history -/

/-- The position an event starts the initcall of. -/
def Event.started? : Event → Option ℕ
  | .callStart i => some i
  | _ => none

/-- **The positions started so far**, in the order in which they were started. -/
def started (log : List Event) : List ℕ := (log.filterMap Event.started?).reverse

/-- The positions of type `t` started so far, in that order. -/
def startedOf (T : Table) (t : TaskType) (log : List Event) : List ℕ :=
  (started log).filter fun i => typeAt T i = some t

@[simp] theorem started_callStart : started (.callStart i :: log) = started log ++ [i] := by
  simp [started, Event.started?]

@[simp] theorem started_cons_of_none {e : Event} (h : e.started? = none) :
    started (e :: log) = started log := by
  simp [started, h]

theorem mem_started : i ∈ started log ↔ .callStart i ∈ log := by
  rw [started, List.mem_reverse, List.mem_filterMap]
  constructor
  · rintro ⟨e, he, hs⟩
    cases e with
    | callStart j =>
      obtain rfl : j = i := by simpa [Event.started?] using hs
      exact he
    | _ => simp [Event.started?] at hs
  · exact fun h => ⟨_, h, rfl⟩

theorem startedOf_cons_of_none {e : Event} (h : e.started? = none) :
    startedOf T t (e :: log) = startedOf T t log := by
  rw [startedOf, started_cons_of_none h, startedOf]

theorem startedOf_callStart_of_eq (h : typeAt T i = some t) :
    startedOf T t (.callStart i :: log) = startedOf T t log ++ [i] := by
  simp [startedOf, h]

theorem startedOf_callStart_of_ne (h : typeAt T i ≠ some t) :
    startedOf T t (.callStart i :: log) = startedOf T t log := by
  simp [startedOf, h]

/-! ### The calls of the thread -/

/-- How far the thread has come: the asynchronized positions below have been
started. -/
def ThreadPc.reached (T : Table) : ThreadPc → ℕ
  | .absent => 0
  | .loop i | .call i => i
  | .inCall i => i + 1
  | .returned => T.length

theorem ThreadMove.startedOf_asynchronized {pc pc' : ThreadPc} {e : Event}
    (h : ThreadMove T pc e pc') (hpc : pc.Sound T log)
    (hlog : startedOf T .asynchronized log = posBelow T .asynchronized (pc.reached T)) :
    startedOf T .asynchronized (e :: log) = posBelow T .asynchronized (pc'.reached T) := by
  cases h with
  | @leave i hi =>
    obtain rfl : i = T.length := Nat.le_antisymm hpc.1 (List.getElem?_eq_none_iff.mp hi)
    rw [startedOf_cons_of_none rfl, hlog]
    rfl
  | pick hi =>
    rw [startedOf_cons_of_none rfl, hlog]
    rfl
  | @skip i t hi ht =>
    have hne : typeAt T i ≠ some .asynchronized := by
      rw [hi]
      exact fun hcon => ht (Option.some.inj hcon)
    rw [startedOf_cons_of_none rfl, hlog]
    exact (posBelow_succ_of_ne hne).symm
  | start =>
    rw [startedOf_callStart_of_eq hpc.1, hlog]
    exact (posBelow_succ_of_eq hpc.1).symm
  | finish =>
    rw [startedOf_cons_of_none rfl, hlog]
    rfl

/-- A read never starts an asynchronized entry. -/
theorem ReadMove.startedOf_asynchronized {pc pc' : ReadPc} {es : List Event}
    (h : ReadMove T pc es pc') (hpc : pc.Sound T log) :
    startedOf T .asynchronized (es ++ log) = startedOf T .asynchronized log := by
  cases h with
  | start =>
    refine startedOf_callStart_of_ne ?_
    rw [hpc.1]
    simp
  | overrun | leave => rfl
  | skip | pick | finish | free => exact startedOf_cons_of_none rfl

/-- The thread never starts a deferred entry. -/
theorem ThreadMove.startedOf_deferred {pc pc' : ThreadPc} {e : Event}
    (h : ThreadMove T pc e pc') (hpc : pc.Sound T log) :
    startedOf T .deferred (e :: log) = startedOf T .deferred log := by
  cases h with
  | start =>
    refine startedOf_callStart_of_ne ?_
    rw [hpc.1]
    simp
  | leave | pick | skip | finish => exact startedOf_cons_of_none rfl

/-- **The asynchronized entries started so far are those the thread has
reached**, in table order and whatever the readers do. -/
theorem Reach.startedOf_asynchronized {ok : State → Action → Prop} (h : Reachable T ok s) :
    startedOf T .asynchronized s.log = posBelow T .asynchronized (s.thread.reached T) := by
  refine (h.invariant (I := fun s => Sound T s ∧
    startedOf T .asynchronized s.log = posBelow T .asynchronized (s.thread.reached T))
    ⟨sound_asyncInit, rfl⟩ ?_).2
  rintro s a s' ⟨hsound, hlog⟩ - hnext
  have hstep := step_cases hnext
  refine ⟨hsound.step hstep, ?_⟩
  cases hstep with
  | thread hmove => exact hmove.startedOf_asynchronized hsound.thread hlog
  | move ha hmove =>
    exact (hmove.startedOf_asynchronized (hsound.reads _ (List.mem_of_getElem? ha))).trans hlog
  | store | decRef => exact (startedOf_cons_of_none rfl).trans hlog
  | openFail | openOk | read | close => exact hlog

/-! ### The calls of serialised reads -/

/-- The guard of the runs in which the reads of a file are **serialised**: a read
is called only when the earlier ones have returned. -/
def serialised (s : State) : Action → Prop
  | .read f _ => ∀ a ∈ s.reads, a.file = f → a.isDone
  | _ => True

instance (s : State) (a : Action) : Decidable (serialised s a) :=
  match a with
  | .read f _ => inferInstanceAs (Decidable (∀ a ∈ s.reads, a.file = f → a.isDone))
  | .thread | .openDevice | .resume _ | .close _ => .isTrue trivial

/-- A read has been performed once it has called its initcall, or found that
there is none left. -/
def ReadPc.performed : ReadPc → Bool
  | .scan _ | .call _ => false
  | _ => true

/-- **The number of reads performed.** -/
def State.performed (s : State) : ℕ := s.reads.countP fun a => a.pc.performed

/-- The cursor of the one file. -/
def State.cursor (s : State) : ℕ := (s.files.head?.map File.privateData).getD 0

/-- Where the latest read is; a state without reads counts as one whose latest
read has returned. -/
def State.current (s : State) : ReadPc := (s.reads.getLast?.map Read.pc).getD (.done [])

/-- What has been called when the cursor is at `c` and the latest read is where
it is: up to the initcall, the deferred entries below the cursor, none of which
lie between the cursor and the read; from the initcall on, its entry as well. -/
def ReadPc.Serial (T : Table) (c : ℕ) (called : List ℕ) : ReadPc → Prop
  | .scan i | .call i =>
      posBelow T .deferred i = posBelow T .deferred c ∧ called = posBelow T .deferred c
  | .inCall i | .store i => called = posBelow T .deferred (i + 1)
  | .decRef | .free => positions T .deferred = posBelow T .deferred c ∧
      called = posBelow T .deferred c
  | .done _ => called = posBelow T .deferred c

/-- The number of performed reads against the number of calls: one call each,
until the end of the list is reached. -/
def Counted (T : Table) (called : List ℕ) (n : ℕ) : Prop :=
  called.length = n ∨ (called = positions T .deferred ∧ called.length ≤ n)

variable (T s) in
/-- **The invariant of serialised reads.** -/
structure Serial : Prop where
  /-- Only the latest read may be under way. -/
  old : ∀ a ∈ s.reads.dropLast, a.isDone
  /-- What the latest read and the cursor say about the calls. -/
  calls : s.current.Serial T s.cursor (startedOf T .deferred s.log)
  /-- How many calls there are. -/
  count : Counted T (startedOf T .deferred s.log) s.performed

/-- A read that can move is the latest one. -/
theorem Serial.exists_last {r : ℕ} {a : Read} (h : Serial T s) (ha : s.reads[r]? = some a)
    (hd : a.isDone = false) : ∃ rs, s.reads = rs ++ [a] ∧ rs.length = r := by
  obtain ⟨hr, hra⟩ := List.getElem?_eq_some_iff.mp ha
  have hlast : r + 1 = s.reads.length := by
    -- an earlier read would be one of those that have returned
    by_contra hne
    have hmem : a ∈ s.reads.dropLast := by
      refine List.mem_iff_getElem?.mpr ⟨r, ?_⟩
      rw [List.getElem?_dropLast, if_pos (by omega), ha]
    rw [h.old a hmem] at hd
    simp at hd
  have hne : s.reads ≠ [] := by
    intro hcon
    simp [hcon] at ha
  refine ⟨s.reads.dropLast, ?_, by rw [List.length_dropLast]; omega⟩
  have hget : s.reads.getLast hne = a := by
    rw [List.getLast_eq_getElem, ← hra]
    congr 1
    omega
  rw [← hget]
  exact (List.dropLast_append_getLast hne).symm

theorem cursor_of_files {file : File} (h : s.files = [file]) : s.cursor = file.privateData := by
  rw [State.cursor, h]
  rfl

theorem current_append {rs : List Read} {a : Read} (h : s.reads = rs ++ [a]) :
    s.current = a.pc := by
  simp [State.current, h]

theorem performed_append {rs : List Read} {a : Read} (h : s.reads = rs ++ [a]) :
    s.performed = rs.countP (fun a => a.pc.performed) + a.pc.performed.toNat := by
  rw [State.performed, h, countP_snoc]

/-- Setting the latest element of a list. -/
theorem set_append_last {α : Type*} (l : List α) (a b : α) :
    (l ++ [a]).set l.length b = l ++ [b] := by
  simp

/-- The moves of the latest read. -/
theorem ReadMove.serial {pc pc' : ReadPc} {es : List Event} (h : ReadMove T pc es pc')
    (hpc : pc.Sound T log) (hs : pc.Serial T c (startedOf T .deferred log)) :
    pc'.Serial T c (startedOf T .deferred (es ++ log)) := by
  cases h with
  | @skip i t hi ht =>
    have hne : typeAt T i ≠ some .deferred := by
      rw [hi]
      exact fun hcon => ht (Option.some.inj hcon)
    refine ⟨(posBelow_succ_of_ne hne).trans hs.1, ?_⟩
    exact (startedOf_cons_of_none rfl).trans hs.2
  | pick hi => exact ⟨hs.1, (startedOf_cons_of_none rfl).trans hs.2⟩
  | overrun hi hne => exact hs
  | leave => exact hs
  | @start i =>
    -- nothing deferred lies between the cursor and the entry, so it is the next one
    change startedOf T .deferred (.callStart i :: log) = _
    rw [startedOf_callStart_of_eq hpc.1, hs.2, ← hs.1]
    exact (posBelow_succ_of_eq hpc.1).symm
  | finish => exact (startedOf_cons_of_none rfl).trans hs
  | free => exact (startedOf_cons_of_none rfl).trans hs.2

theorem ReadMove.counted {pc pc' : ReadPc} {es : List Event} {n : ℕ} (h : ReadMove T pc es pc')
    (hpc : pc.Sound T log) (hs : pc.Serial T c (startedOf T .deferred log))
    (hn : Counted T (startedOf T .deferred log) (n + pc.performed.toNat)) :
    Counted T (startedOf T .deferred (es ++ log)) (n + pc'.performed.toNat) := by
  cases h with
  | @start i =>
    have hcall : startedOf T .deferred ([.callStart i] ++ log) =
        startedOf T .deferred log ++ [i] := startedOf_callStart_of_eq hpc.1
    rw [hcall]
    rcases hn with hn | ⟨hall, -⟩
    · refine Or.inl ?_
      rw [List.length_append, hn]
      rfl
    · -- the entry being called has not been called, so not all of them have
      have hmem : i ∈ posBelow T .deferred i := by
        rw [hs.1, ← hs.2, hall]
        exact mem_positions hpc.1
      exact absurd (mem_posBelow.mp hmem).1 (Nat.lt_irrefl i)
  | leave =>
    -- from here on the reads are counted and nothing is called
    refine Or.inr ⟨hs.2.trans hs.1.symm, ?_⟩
    have hle : (startedOf T .deferred log).length ≤ n := by
      rcases hn with hn | ⟨-, hn⟩
      · exact Nat.le_of_eq hn
      · exact hn
    exact Nat.le_succ_of_le hle
  | overrun => exact hn
  | skip | pick | finish | free =>
    refine cast ?_ hn
    exact congrArg₂ (Counted T) (startedOf_cons_of_none rfl).symm rfl

theorem serial_asyncInit : Serial T (asyncInit bootState) where
  old := by simp [asyncInit, bootState]
  calls := rfl
  count := Or.inl rfl

/-- When no read is under way, the deferred entries called are those below the
cursor. -/
theorem Serial.calls_of_idle (h : Serial T s) (hidle : ∀ a ∈ s.reads, a.isDone) :
    startedOf T .deferred s.log = posBelow T .deferred s.cursor := by
  have hall := h.calls
  rcases List.eq_nil_or_concat s.reads with hnil | ⟨rs, b, hrs⟩
  · rw [State.current, hnil] at hall
    exact hall
  · have hb : b.isDone := hidle b (by simp [hrs])
    rw [current_append (by rw [hrs, List.concat_eq_append])] at hall
    rw [Read.isDone] at hb
    cases hpc : b.pc with
    | done text =>
      rw [hpc] at hall
      exact hall
    | _ => simp [hpc] at hb

/-- The latest read goes on: it is enough to look at its own place and at the
calls. -/
theorem Serial.of_last {r : ℕ} {a : Read} {pc : ReadPc} (h : Serial T s)
    (ha : s.reads[r]? = some a) (hd : a.isDone = false)
    (hset : s'.reads = s.reads.set r { a with pc := pc })
    (hcalls : a.pc.Serial T s.cursor (startedOf T .deferred s.log) →
      pc.Serial T s'.cursor (startedOf T .deferred s'.log))
    (hcount : ∀ n, a.pc.Serial T s.cursor (startedOf T .deferred s.log) →
      Counted T (startedOf T .deferred s.log) (n + a.pc.performed.toNat) →
      Counted T (startedOf T .deferred s'.log) (n + pc.performed.toNat)) : Serial T s' := by
  obtain ⟨rs, hrs, rfl⟩ := h.exists_last ha hd
  obtain ⟨hold, hplace, hn⟩ := h
  rw [hrs, List.dropLast_concat] at hold
  rw [current_append hrs] at hplace
  rw [performed_append hrs] at hn
  rw [hrs, set_append_last] at hset
  refine ⟨?_, ?_, ?_⟩
  · rw [hset, List.dropLast_concat]
    exact hold
  · rw [current_append hset]
    exact hcalls hplace
  · rw [performed_append hset]
    exact hcount _ hplace hn

/-- **Every step of a serialised run keeps the invariant.** -/
theorem Serial.step {a : Action} (h : Serial T s) (hsound : Sound T s) (hone : OneFile s)
    (hok : serialised s a) (hstep : Step T s a s') : Serial T s' := by
  cases hstep with
  | thread hmove =>
    have hd := hmove.startedOf_deferred hsound.thread
    exact ⟨h.old, by rw [hd]; exact h.calls, by rw [hd]; exact h.count⟩
  | openFail _ => exact h
  | openOk hd =>
    have hf : s.files = [] := by
      rcases hone with ⟨-, hf, -⟩ | ⟨hd', -⟩
      · exact hf
      · exact absurd hd' hd
    have hcur : ({ s with initDone := 1, files := s.files ++ [⟨0, true⟩] } : State).cursor =
        s.cursor := by simp [State.cursor, hf]
    refine ⟨h.old, ?_, h.count⟩
    rw [hcur]
    exact h.calls
  | @read f n file hf _ =>
    -- this is where the guard is used: no other read holds the cursor
    obtain ⟨rfl, -, hg, hr⟩ := hone.of_file hf
    have hidle : ∀ a ∈ s.reads, a.isDone := fun a ha => hok a ha (hr a ha)
    refine ⟨by simpa using hidle, ?_, ?_⟩
    · rw [current_append rfl]
      exact ⟨congrArg _ (cursor_of_files hg).symm, h.calls_of_idle hidle⟩
    · rw [performed_append rfl]
      exact h.count
  | @move r a es pc ha hmove =>
    have hpc := hsound.reads a (List.mem_of_getElem? ha)
    exact h.of_last ha (isDone_eq_false hmove) rfl (hmove.serial hpc)
      fun n hcalls => hmove.counted hpc hcalls
  | @store r a i e ha hpc he =>
    obtain ⟨-, ⟨g, hg⟩, hr⟩ := hone.of_read ha
    have ha0 : a.file = 0 := hr a (List.mem_of_getElem? ha)
    refine h.of_last ha (by simp [Read.isDone, hpc]) rfl ?_ ?_
    · -- the cursor moves to where the call already is
      intro hcalls
      rw [hpc] at hcalls
      refine (startedOf_cons_of_none rfl).trans (hcalls.trans ?_)
      simp [State.cursor, hg, ha0]
    · intro n _ hn
      rw [hpc] at hn
      rw [startedOf_cons_of_none rfl]
      exact hn
  | @decRef r a ha hpc =>
    refine h.of_last ha (by simp [Read.isDone, hpc]) rfl ?_ ?_
    · intro hcalls
      rw [hpc] at hcalls
      rw [startedOf_cons_of_none rfl]
      by_cases hz : s.freeInitRef - 1 = 0
      · rw [if_pos hz]
        exact hcalls
      · rw [if_neg hz]
        exact hcalls.2
    · intro n _ hn
      rw [hpc] at hn
      rw [startedOf_cons_of_none rfl]
      by_cases hz : s.freeInitRef - 1 = 0
      · rw [if_pos hz]
        exact hn
      · rw [if_neg hz]
        exact hn
  | @close f file hf _ _ =>
    obtain ⟨rfl, -, hg, -⟩ := hone.of_file hf
    have hg' : s.files.modify 0 (fun file => { file with isOpen := false }) =
        [{ file with isOpen := false }] := by
      rw [hg]
      rfl
    have hcalls := h.calls
    rw [cursor_of_files hg] at hcalls
    refine ⟨h.old, ?_, h.count⟩
    rw [cursor_of_files hg']
    exact hcalls

theorem Reach.serial (h : Reachable T serialised s) : Serial T s := by
  refine (h.invariant (I := fun s => (Sound T s ∧ OneFile s) ∧ Serial T s)
    ⟨⟨sound_asyncInit, Or.inl ⟨rfl, rfl, rfl⟩⟩, serial_asyncInit⟩ ?_).2
  rintro s a s' ⟨⟨hsound, hone⟩, hserial⟩ hok hnext
  have hstep := step_cases hnext
  exact ⟨⟨hsound.step hstep, hone.step hstep⟩, hserial.step hsound hone hok hstep⟩

/-! ### The partition -/

/-- The deferred entries called are the first ones of the table. -/
theorem Serial.prefix_positions (h : Serial T s) (hsound : Sound T s) (hone : OneFile s) :
    startedOf T .deferred s.log <+: positions T .deferred := by
  have hcur : s.cursor ≤ T.length := by
    rcases hone with ⟨-, hf, -⟩ | ⟨-, ⟨g, hg⟩, -⟩
    · simp [State.cursor, hf]
    · rw [cursor_of_files hg]
      exact (hsound.files g (by simp [hg])).1
  have hpre : posBelow T .deferred s.cursor <+: positions T .deferred := posBelow_prefix hcur
  have hcalls := h.calls
  rcases List.eq_nil_or_concat s.reads with hnil | ⟨rs, b, hrs⟩
  · rw [State.current, hnil] at hcalls
    exact hcalls ▸ hpre
  · rw [List.concat_eq_append] at hrs
    have hpc := hsound.reads b (by simp [hrs])
    rw [current_append hrs] at hcalls
    cases hb : b.pc with
    | scan i | call i | decRef | free =>
      rw [hb] at hcalls
      exact hcalls.2 ▸ hpre
    | inCall i =>
      rw [hb] at hcalls hpc
      rw [show startedOf T .deferred s.log = _ from hcalls]
      exact posBelow_prefix (lt_length_of_typeAt hpc.1.1)
    | store i =>
      rw [hb] at hcalls hpc
      rw [show startedOf T .deferred s.log = _ from hcalls]
      exact posBelow_prefix (lt_length_of_typeAt hpc.1)
    | done text =>
      rw [hb] at hcalls
      rw [show startedOf T .deferred s.log = _ from hcalls]
      exact hpre

/-- A prefix that counts the performed reads is cut off at their number. -/
theorem Counted.eq_take {called : List ℕ} {n : ℕ} (h : Counted T called n)
    (hpre : called <+: positions T .deferred) : called = (positions T .deferred).take n := by
  rcases h with rfl | ⟨hall, hle⟩
  · exact List.prefix_iff_eq_take.mp hpre
  · rw [List.take_of_length_le (hall ▸ hle), hall]

/-- Only the two types that run are ever called. -/
theorem Sound.typeAt_of_started (h : Sound T s) (hi : i ∈ started s.log) :
    typeAt T i = some .asynchronized ∨ typeAt T i = some .deferred := by
  obtain ⟨before, ⟨t, ht, hti, -⟩, -⟩ := h.events.exists_before (mem_started.mp hi)
  rcases ht with rfl | rfl
  · exact Or.inl hti
  · exact Or.inr hti

/-- A call that has returned has been made. -/
theorem Sound.mem_started_of_return (h : Sound T s) (hi : .callReturn i ∈ s.log) :
    i ∈ started s.log := by
  obtain ⟨before, hbefore, hsub⟩ := h.events.exists_before hi
  exact mem_started.mpr (hsub _ hbefore)

theorem count_started_of_typeAt (h : typeAt T i = some t) :
    (started log).count i = (startedOf T t log).count i := by
  rw [startedOf, List.count_filter (by simpa using h)]

theorem Serial.nodup_started (h : Serial T s) (hsound : Sound T s) (hone : OneFile s)
    (hasync : startedOf T .asynchronized s.log =
      posBelow T .asynchronized (s.thread.reached T)) : (started s.log).Nodup := by
  rw [List.nodup_iff_count_le_one]
  intro i
  by_cases hi : i ∈ started s.log
  · -- a position is counted among those of its own type, where it is listed once
    rcases hsound.typeAt_of_started hi with ht | ht
    · rw [count_started_of_typeAt ht, hasync]
      exact List.nodup_iff_count_le_one.mp nodup_posBelow i
    · rw [count_started_of_typeAt ht]
      have hnodup := (h.prefix_positions hsound hone).sublist.nodup nodup_posBelow
      exact List.nodup_iff_count_le_one.mp hnodup i
  · rw [List.count_eq_zero.mpr hi]
    exact Nat.zero_le 1

/-- **Every initcall runs at most once, in table order, and in the end exactly
once.** In every reachable state of a run whose reads are serialised: no position
has been started twice and no disabled one at all; the asynchronized positions
started are a prefix of all of them, and the deferred ones started are the first
as many as reads have been performed. Once the thread has returned and a read has
reported the end of the list, every position of either type has been started
exactly once and has returned. -/
theorem initcalls_partition (h : Reachable T serialised s) :
    (started s.log).Nodup ∧
      (∀ i ∈ started s.log, typeAt T i ≠ some .disable) ∧
      startedOf T .asynchronized s.log <+: positions T .asynchronized ∧
      startedOf T .deferred s.log = (positions T .deferred).take s.performed ∧
      (s.thread = .returned → .decRef ∈ s.log →
        ∀ i, typeAt T i = some .asynchronized ∨ typeAt T i = some .deferred →
          (started s.log).count i = 1 ∧ .callReturn i ∈ s.log) := by
  have hsound := h.sound
  have hone := h.oneFile
  have hserial := h.serial
  have hasync := h.startedOf_asynchronized
  have hnodup := hserial.nodup_started hsound hone hasync
  refine ⟨hnodup, fun i hi => ?_, ?_, ?_, fun hthread hend i hi => ?_⟩
  · rcases hsound.typeAt_of_started hi with ht | ht <;> simp [ht]
  · rw [hasync]
    refine posBelow_prefix ?_
    have hthread := hsound.thread
    cases hpc : s.thread with
    | absent => exact Nat.zero_le _
    | loop i =>
      rw [hpc] at hthread
      exact hthread.1
    | call i =>
      rw [hpc] at hthread
      exact Nat.le_of_lt (lt_length_of_typeAt hthread.1)
    | inCall i =>
      rw [hpc] at hthread
      exact lt_length_of_typeAt hthread.1.1
    | returned => exact Nat.le_refl _
  · exact hserial.count.eq_take (hserial.prefix_positions hsound hone)
  · have hret : .callReturn i ∈ s.log := by
      rcases hi with hi | hi
      · have hthread' := hsound.thread
        rw [hthread] at hthread'
        exact hthread'.2 i (lt_length_of_typeAt hi) hi
      · obtain ⟨before, hbefore, hsub⟩ := hsound.events.exists_before hend
        exact hsub _ (hbefore i (lt_length_of_typeAt hi) hi)
    exact ⟨List.count_eq_one_of_mem hnodup (hsound.mem_started_of_return hret), hret⟩

/-- A read of `KernelConfiguration.acpiTable` between the steps of the thread, and one
that reports the end of the list: the deferred entry has been called first, and each
of the two that are to be called once. -/
theorem initcalls_partition_acpiTable :
    ∃ s, Reachable acpiTable serialised s ∧ s.thread = .returned ∧ .decRef ∈ s.log ∧
      started s.log = [1, 0] ∧
      startedOf acpiTable .deferred s.log = (positions acpiTable .deferred).take s.performed ∧
      ∀ i, typeAt acpiTable i = some .asynchronized ∨ typeAt acpiTable i = some .deferred →
        (started s.log).count i = 1 ∧ .callReturn i ∈ s.log := by
  obtain ⟨s, hs⟩ : ∃ s, runActions (step acpiTable) serialised (asyncInit bootState)
      [.openDevice, .read 0 30, .resume 0, .thread, .resume 0, .resume 0, .thread, .resume 0,
        .thread, .thread, .resume 0, .read 0 0, .resume 1, .thread, .resume 1, .resume 1, .thread] =
        some s := ⟨_, rfl⟩
  have hend : s.thread = .returned ∧ .decRef ∈ s.log ∧ started s.log = [1, 0] := by
    obtain rfl := Option.some.inj hs
    decide
  have hreach : Reachable acpiTable serialised s := reach_of_runActions hs
  obtain ⟨-, -, -, hdeferred, hall⟩ := initcalls_partition hreach
  exact ⟨s, hreach, hend.1, hend.2.1, hend.2.2, hdeferred, hall hend.1 hend.2.1⟩

end KernelConfiguration
