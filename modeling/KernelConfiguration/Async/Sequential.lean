import Mathlib.Data.List.Basic
import KernelConfiguration.Async.Invariant

/-!
# The functions of the driver, run without interruption

The loops of `do_asynchronized`, `device_read` and `doall_default` written as the
functions they are, each on the state it finds when nobody else moves. They are
the sequential reading of the source, and the two facts that connect them to the
system of `KernelConfiguration.Async.Driver` are proved here:

* `KernelConfiguration.reach_doAsynchronized` – a thread left to itself takes the
  system to the state `KernelConfiguration.doAsynchronized` computes;
* `KernelConfiguration.reach_deviceRead` – a call of `device_read` left to itself
  takes the system to the state `KernelConfiguration.deviceRead` computes, with
  the finished activation on record.

They are also how runs are built when a run has to be exhibited.
-/

namespace KernelConfiguration

/-! ### The loops -/

/-- What `do_one_initcall` on entry `i` leaves in the history. -/
def callLog (i : ℕ) (log : List Event) : List Event := .callReturn i :: .callStart i :: log

/-- The `for` loop of `do_asynchronized`, on the entries that are left. -/
def asyncLog : List InitFn → ℕ → List Event → List Event
  | [], _, log => log
  | e :: rest, i, log =>
    if (initInfo e.id).type = .asynchronized then
      asyncLog rest (i + 1) (callLog i (.loadId i :: log))
    else asyncLog rest (i + 1) (.loadId i :: log)

/-- **The thread function** (`do_asynchronized`): the asynchronized entries are
called in table order. The decrement of `free_init_ref` at its end is commented
out in the source. -/
def doAsynchronized (T : Table) (s : State) : State :=
  { s with thread := .returned, log := .threadReturn :: asyncLog T 0 s.log }

/-- The `while` loop of `device_read`: the position it stops at, and the
history. -/
def scanLog : List InitFn → ℕ → List Event → ℕ × List Event
  | [], i, log => (i, log)
  | e :: rest, i, log =>
    if (initInfo e.id).type ≠ .deferred then scanLog rest (i + 1) (.loadId i :: log)
    else (i, .loadId i :: log)

/-- `atomic_dec_and_test` of `free_init_ref`, and the call of `free_initmem` when
the count has become zero. -/
def dropInitRef (s : State) : State :=
  let s := { s with freeInitRef := s.freeInitRef - 1, log := .decRef :: s.log }
  if s.freeInitRef = 0 then { s with log := .freeInitmem :: s.log } else s

/-- **Reading the device** (`device_read`) with the cursor at `c`: the state, and
the bytes answered – `none` when the end of the list is reported. -/
def deviceRead (T : Table) (s : State) (f c nbytes : ℕ) : State × Option (List Char) :=
  let (i, log) := scanLog (T.drop c) c s.log
  match T[i]? with
  | some e =>
    ({ s with
        files := s.files.modify f fun f => { f with privateData := i + 1 }
        log := .loadId i :: callLog i log },
      some (readText (getName e.id).toList nbytes))
  | none => (dropInitRef { s with log := log }, none)

/-- The `for` loop of `doall_default`, which looks at no type. -/
def callAllLog : List InitFn → ℕ → List Event → List Event
  | [], _, log => log
  | _ :: rest, i, log => callAllLog rest (i + 1) (callLog i log)

/-- **The default way** (`doall_default`): everything in table order, if the
latch was clear, and one reference given up. -/
def doallDefault (T : Table) (s : State) : State :=
  let old := s.initDone
  let s := { s with initDone := 1 }
  dropInitRef (if old = 0 then { s with log := callAllLog T 0 s.log } else s)

/-! ### The thread left to itself -/

variable {T : Table} {s : State}

theorem drop_eq_cons {rest : List InitFn} {e : InitFn} {i : ℕ} (h : T.drop i = e :: rest) :
    T[i]? = some e ∧ T.drop (i + 1) = rest := by
  constructor
  · rw [← List.head?_drop, h, List.head?_cons]
  · rw [← List.tail_drop, h, List.tail_cons]

/-- The thread runs its loop from position `i` on. -/
theorem reach_asyncLog (rest : List InitFn) : ∀ {i : ℕ} {s : State}, T.drop i = rest →
    s.thread = .loop i →
    Reach (step T) anyStep s
      { s with thread := .returned, log := .threadReturn :: asyncLog rest i s.log } := by
  induction rest with
  | nil =>
    intro i s hrest hpc
    have hi : T[i]? = none := List.getElem?_eq_none (List.drop_eq_nil_iff.mp hrest)
    exact .step .thread .refl trivial (by simp [step, stepThread, hpc, hi, asyncLog])
  | cons e rest ih =>
    intro i s hrest hpc
    obtain ⟨he, hrest'⟩ := drop_eq_cons hrest
    by_cases ht : (initInfo e.id).type = .asynchronized
    · -- three steps: the entry is picked, its initcall starts, its initcall returns
      have h₁ : step T s .thread =
          some { s with thread := .call i, log := .loadId i :: s.log } := by
        simp [step, stepThread, hpc, he, ht]
      have h₂ : step T { s with thread := .call i, log := .loadId i :: s.log } .thread =
          some { s with thread := .inCall i, log := .callStart i :: .loadId i :: s.log } := rfl
      have h₃ : step T { s with thread := .inCall i, log := .callStart i :: .loadId i :: s.log }
          .thread = some { s with
            thread := .loop (i + 1), log := callLog i (.loadId i :: s.log) } := rfl
      have hgo := ih (s := { s with
        thread := .loop (i + 1), log := callLog i (.loadId i :: s.log) }) hrest' rfl
      rw [asyncLog, if_pos ht]
      exact (((Reach.refl.step .thread trivial h₁).step .thread trivial h₂).step .thread
        trivial h₃).trans hgo
    · have h₁ : step T s .thread =
          some { s with thread := .loop (i + 1), log := .loadId i :: s.log } := by
        simp [step, stepThread, hpc, he, ht]
      have hgo := ih (s := { s with thread := .loop (i + 1), log := .loadId i :: s.log })
        hrest' rfl
      rw [asyncLog, if_neg ht]
      exact (Reach.refl.step .thread trivial h₁).trans hgo

/-- **A thread left to itself computes `do_asynchronized`.** -/
theorem reach_doAsynchronized (hpc : s.thread = .loop 0) :
    Reach (step T) anyStep s (doAsynchronized T s) :=
  reach_asyncLog T rfl hpc

/-! ### A read left to itself -/

/-- The state with one more activation of `device_read` on record. -/
def State.withRead (s : State) (a : Read) : State := { s with reads := s.reads ++ [a] }

theorem withRead_reads (a : Read) : (s.withRead a).reads[s.reads.length]? = some a := by
  simp [State.withRead]

/-- A step of the latest activation. -/
theorem step_withRead (a : Read) :
    step T (s.withRead a) (.resume s.reads.length) =
      stepRead T (s.withRead a) s.reads.length a := by
  simp only [step, withRead_reads]

/-- Where a scan that stops at `j` leaves the read. -/
def scanEnd (T : Table) (j : ℕ) : ReadPc := if j < T.length then .call j else .scan j

/-- The read runs its `while` loop from position `i` on. -/
theorem reach_scanLog {f n : ℕ} (rest : List InitFn) : ∀ {i : ℕ} {s : State}, T.drop i = rest →
    Reach (step T) anyStep (s.withRead ⟨f, n, .scan i⟩)
      ({ s with log := (scanLog rest i s.log).2 }.withRead
        ⟨f, n, scanEnd T (scanLog rest i s.log).1⟩) := by
  induction rest with
  | nil =>
    intro i s hrest
    have hi : ¬i < T.length := Nat.not_lt.mpr (List.drop_eq_nil_iff.mp hrest)
    rw [scanLog, scanEnd, if_neg hi]
    exact .refl
  | cons e rest ih =>
    intro i s hrest
    obtain ⟨he, hrest'⟩ := drop_eq_cons hrest
    by_cases ht : (initInfo e.id).type = .deferred
    · have hi : i < T.length := (List.getElem?_eq_some_iff.mp he).1
      have h₁ : step T (s.withRead ⟨f, n, .scan i⟩) (.resume s.reads.length) =
          some ({ s with log := .loadId i :: s.log }.withRead ⟨f, n, .call i⟩) := by
        rw [step_withRead]
        simp [stepRead, he, ht, State.emit, State.goto, State.withRead]
      rw [scanLog, if_neg (not_not.mpr ht), scanEnd, if_pos hi]
      exact Reach.refl.step _ trivial h₁
    · have h₁ : step T (s.withRead ⟨f, n, .scan i⟩) (.resume s.reads.length) =
          some ({ s with log := .loadId i :: s.log }.withRead ⟨f, n, .scan (i + 1)⟩) := by
        rw [step_withRead]
        simp [stepRead, he, ht, State.emit, State.goto, State.withRead]
      have hgo := ih (s := { s with log := .loadId i :: s.log }) hrest'
      rw [scanLog, if_pos ht]
      exact (Reach.refl.step _ trivial h₁).trans hgo

/-- A scan that starts inside the table stops inside it or at its end. -/
theorem scanLog_le (rest : List InitFn) : ∀ (i : ℕ) (log : List Event),
    (scanLog rest i log).1 ≤ i + rest.length := by
  induction rest with
  | nil => exact fun _ _ => Nat.le_refl _
  | cons e rest ih =>
    intro i log
    rw [scanLog]
    split
    · have := ih (i + 1) (.loadId i :: log)
      rw [List.length_cons]
      omega
    · exact Nat.le_add_right _ _

/-- A scan stops at the first deferred entry from its cursor on. -/
theorem scanLog_eq {j : ℕ} (hj : typeAt T j = some .deferred) (rest : List InitFn) :
    ∀ (i : ℕ) (log : List Event), T.drop i = rest → i ≤ j →
      (∀ k, i ≤ k → k < j → typeAt T k ≠ some .deferred) → (scanLog rest i log).1 = j := by
  induction rest with
  | nil =>
    intro i log hrest hij _
    have := List.drop_eq_nil_iff.mp hrest
    have := lt_length_of_typeAt hj
    omega
  | cons e rest ih =>
    intro i log hrest hij hbetween
    obtain ⟨he, hrest'⟩ := drop_eq_cons hrest
    rw [scanLog]
    rcases eq_or_ne i j with rfl | hne
    · rw [typeAt_eq_some he] at hj
      rw [if_neg (not_not.mpr (Option.some.inj hj))]
    · have hlt : i < j := Nat.lt_of_le_of_ne hij hne
      have ht : (initInfo e.id).type ≠ .deferred := by
        intro hcon
        refine hbetween i (Nat.le_refl i) hlt ?_
        rw [typeAt_eq_some he, hcon]
      rw [if_pos ht]
      exact ih (i + 1) _ hrest' hlt fun k hk => hbetween k (Nat.le_of_succ_le hk)

/-- The read gives up its reference, and frees the init memory when it was the
last one. -/
theorem reach_dropInitRef {f n : ℕ} :
    Reach (step T) anyStep (s.withRead ⟨f, n, .decRef⟩)
      ((dropInitRef s).withRead ⟨f, n, .done []⟩) := by
  by_cases hz : s.freeInitRef - 1#32 = 0#32
  · have h₁ : step T (s.withRead ⟨f, n, .decRef⟩) (.resume s.reads.length) =
        some ({ s with freeInitRef := s.freeInitRef - 1, log := .decRef :: s.log }.withRead
          ⟨f, n, .free⟩) := by
      rw [step_withRead]
      simp [stepRead, hz, State.emit, State.goto, State.withRead]
    have h₂ : step T ({ s with freeInitRef := s.freeInitRef - 1, log := .decRef :: s.log }.withRead
        ⟨f, n, .free⟩) (.resume s.reads.length) =
        some ((dropInitRef s).withRead ⟨f, n, .done []⟩) := by
      rw [step_withRead (s := { s with
        freeInitRef := s.freeInitRef - 1, log := .decRef :: s.log })]
      simp [stepRead, dropInitRef, hz, State.emit, State.goto, State.withRead]
    exact (Reach.refl.step _ trivial h₁).step _ trivial h₂
  · have h₁ : step T (s.withRead ⟨f, n, .decRef⟩) (.resume s.reads.length) =
        some ((dropInitRef s).withRead ⟨f, n, .done []⟩) := by
      rw [step_withRead]
      simp [stepRead, dropInitRef, hz, State.emit, State.goto, State.withRead]
    exact Reach.refl.step _ trivial h₁

/-- The read calls the initcall of entry `j`, stores its cursor and returns. -/
theorem reach_call {f n j : ℕ} {e : InitFn} (he : T[j]? = some e) :
    Reach (step T) anyStep (s.withRead ⟨f, n, .call j⟩)
      ({ s with
          files := s.files.modify f fun f => { f with privateData := j + 1 }
          log := .loadId j :: callLog j s.log }.withRead
        ⟨f, n, .done (readText (getName e.id).toList n)⟩) := by
  have h₁ : step T (s.withRead ⟨f, n, .call j⟩) (.resume s.reads.length) =
      some ({ s with log := .callStart j :: s.log }.withRead ⟨f, n, .inCall j⟩) := by
    rw [step_withRead]
    simp [stepRead, State.emit, State.goto, State.withRead]
  have h₂ : step T ({ s with log := .callStart j :: s.log }.withRead ⟨f, n, .inCall j⟩)
      (.resume s.reads.length) =
      some ({ s with log := callLog j s.log }.withRead ⟨f, n, .store j⟩) := by
    rw [step_withRead (s := { s with log := .callStart j :: s.log })]
    simp [stepRead, callLog, State.emit, State.goto, State.withRead]
  have h₃ : step T ({ s with log := callLog j s.log }.withRead ⟨f, n, .store j⟩)
      (.resume s.reads.length) =
      some ({ s with
          files := s.files.modify f fun f => { f with privateData := j + 1 }
          log := .loadId j :: callLog j s.log }.withRead
        ⟨f, n, .done (readText (getName e.id).toList n)⟩) := by
    rw [step_withRead (s := { s with log := callLog j s.log })]
    simp [stepRead, he, State.emit, State.goto, State.withRead]
  exact ((Reach.refl.step _ trivial h₁).step _ trivial h₂).step _ trivial h₃

/-- The call of `device_read` itself. -/
theorem step_read {f n : ℕ} {file : File} (hf : s.files[f]? = some file) (ho : file.isOpen) :
    step T s (.read f n) = some (s.withRead ⟨f, n, .scan file.privateData⟩) := by
  simp [step, hf, ho, State.withRead]

/-- **A read left to itself computes `device_read`.** -/
theorem reach_deviceRead {f n : ℕ} {file : File} (hf : s.files[f]? = some file)
    (ho : file.isOpen) (hc : file.privateData ≤ T.length) :
    Reach (step T) anyStep s
      ((deviceRead T s f file.privateData n).1.withRead
        ⟨f, n, .done ((deviceRead T s f file.privateData n).2.getD [])⟩) := by
  have hscan := (Reach.refl.step (.read f n) trivial (step_read hf ho)).trans
    (reach_scanLog (f := f) (n := n) (T.drop file.privateData) (s := s) rfl)
  have hle := scanLog_le (T.drop file.privateData) file.privateData s.log
  rw [List.length_drop] at hle
  rw [deviceRead]
  generalize scanLog (T.drop file.privateData) file.privateData s.log = stop at hscan hle ⊢
  obtain ⟨j, log⟩ := stop
  dsimp only at hscan hle ⊢
  cases hj : T[j]? with
  | some e =>
    have hlt : j < T.length := (List.getElem?_eq_some_iff.mp hj).1
    rw [scanEnd, if_pos hlt] at hscan
    exact hscan.trans (reach_call (s := { s with log := log }) hj)
  | none =>
    -- a scan never ends past the table, so the test for its end succeeds
    obtain rfl : j = T.length := by
      have := List.getElem?_eq_none_iff.mp hj
      omega
    rw [scanEnd, if_neg (Nat.lt_irrefl _)] at hscan
    have h₁ : step T ({ s with log := log }.withRead ⟨f, n, .scan T.length⟩)
        (.resume s.reads.length) = some ({ s with log := log }.withRead ⟨f, n, .decRef⟩) := by
      rw [step_withRead (s := { s with log := log })]
      simp [stepRead, State.goto, State.withRead]
    exact (hscan.step _ trivial h₁).trans (reach_dropInitRef (s := { s with log := log }))

/-! ### Readers that run ahead of the thread -/

/-- The readers can bring the cursor to any place of the table while the thread
has not moved. -/
theorem exists_cursor : ∀ c ≤ T.length, ∃ s, Reachable T anyStep s ∧ s.thread = .loop 0 ∧
    ∃ file, s.files = [file] ∧ file.isOpen ∧ file.privateData ≤ c ∧
      ∀ k, file.privateData ≤ k → k < c → typeAt T k ≠ some .deferred := by
  intro c
  induction c with
  | zero =>
    intro _
    refine ⟨_, Reach.refl.step .openDevice trivial rfl, rfl, ⟨0, true⟩, rfl, rfl, Nat.le_refl 0, ?_⟩
    exact fun k _ hk => absurd hk (Nat.not_lt_zero k)
  | succ c ih =>
    intro hc
    obtain ⟨s, hs, hthread, file, hfile, hopen, hle, hbetween⟩ := ih (Nat.le_of_succ_le hc)
    by_cases ht : typeAt T c = some .deferred
    · -- one more read calls the entry at `c` and leaves the cursor behind it
      obtain ⟨e, he, -⟩ : ∃ e, T[c]? = some e ∧ _ := Option.map_eq_some_iff.mp ht
      have hf : s.files[0]? = some file := by rw [hfile]; rfl
      have hread := reach_deviceRead (n := 0) hf hopen (Nat.le_trans hle (Nat.le_of_succ_le hc))
      have hstop := scanLog_eq ht _ file.privateData s.log rfl hle hbetween
      rw [deviceRead] at hread
      generalize scanLog (T.drop file.privateData) file.privateData s.log = stop at hread hstop
      obtain ⟨j, log⟩ := stop
      obtain rfl : j = c := hstop
      simp only [he] at hread
      refine ⟨_, hs.trans hread, hthread, { file with privateData := j + 1 }, ?_, hopen,
        Nat.le_refl _, fun k hk hk' => absurd hk' (Nat.not_lt.mpr hk)⟩
      simp [State.withRead, hfile]
    · refine ⟨s, hs, hthread, file, hfile, hopen, Nat.le_succ_of_le hle, fun k hk hk' => ?_⟩
      rcases Nat.lt_succ_iff_lt_or_eq.mp hk' with hlt | rfl
      · exact hbetween k hk hlt
      · exact ht

/-- **A deferred entry can be started before the thread has moved.** -/
theorem exists_start_deferred {j : ℕ} (hj : typeAt T j = some .deferred) :
    ∃ s log, Reachable T anyStep s ∧ s.thread = .loop 0 ∧ s.log = .callStart j :: log := by
  have hlt := lt_length_of_typeAt hj
  obtain ⟨s, hs, hthread, file, hfile, hopen, hle, hbetween⟩ := exists_cursor j (Nat.le_of_lt hlt)
  have hf : s.files[0]? = some file := by rw [hfile]; rfl
  have hscan := (hs.step (.read 0 0) trivial (step_read hf hopen)).trans
    (reach_scanLog (f := 0) (n := 0) (T.drop file.privateData) (s := s) rfl)
  have hstop := scanLog_eq hj _ file.privateData s.log rfl hle hbetween
  generalize scanLog (T.drop file.privateData) file.privateData s.log = stop at hscan hstop
  obtain ⟨i, log⟩ := stop
  obtain rfl : i = j := hstop
  dsimp only at hscan
  rw [scanEnd, if_pos hlt] at hscan
  have h₁ : step T ({ s with log := log }.withRead ⟨0, 0, .call i⟩) (.resume s.reads.length) =
      some ({ s with log := .callStart i :: log }.withRead ⟨0, 0, .inCall i⟩) := by
    rw [step_withRead (s := { s with log := log })]
    simp [stepRead, State.emit, State.goto, State.withRead]
  exact ⟨_, log, hscan.step _ trivial h₁, hthread, rfl⟩

end KernelConfiguration
