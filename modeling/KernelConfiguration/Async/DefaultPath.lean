import Mathlib.Data.List.Basic
import Mathlib.Data.List.Range
import KernelConfiguration.Async.Partition
import KernelConfiguration.Async.Sequential

/-!
# The default way and the split way

`doall_default` calls every entry of the table in one loop, without looking at
its type. The other way to initialise is split: `do_asynchronized` calls the
asynchronized entries, and a client that opens the device and reads it to the end
of the list calls the deferred ones. The loop of the client is resumable – the
cursor lives in the file – and its first read may find the table in any state, so
what is proved of one read is how much of the list it leaves for the next
(`KernelConfiguration.deviceRead_cases`).

The two ways agree on the entries of the two types that are ever selected, each
in table order. On the others they differ by design: the default way is what the
kernel does without the driver, and it knows of no disabled modules.
-/

namespace KernelConfiguration

variable {T : Table} {s : State} {t : TaskType} {c i n f : ℕ} {log : List Event}

/-! ### The positions from a cursor on -/

/-- The positions of type `t` from `c` on, in table order. -/
def posFrom (T : Table) (t : TaskType) (c : ℕ) : List ℕ :=
  (List.range' c (T.length - c)).filter fun i => typeAt T i = some t

theorem posFrom_zero : posFrom T t 0 = positions T t := by
  rw [posFrom, positions, posBelow, List.range_eq_range', Nat.sub_zero]

theorem posFrom_of_le (h : T.length ≤ c) : posFrom T t c = [] := by
  rw [posFrom, Nat.sub_eq_zero_of_le h]
  rfl

/-- The range of positions, opened at its first one. -/
theorem range'_sub_of_lt (h : c < T.length) :
    List.range' c (T.length - c) = c :: List.range' (c + 1) (T.length - (c + 1)) := by
  obtain ⟨m, hm⟩ := Nat.exists_eq_add_of_lt h
  have h₁ : T.length - c = m + 1 := by omega
  have h₂ : T.length - (c + 1) = m := by omega
  rw [h₁, h₂, List.range'_succ]

theorem posFrom_of_eq (h : typeAt T c = some t) : posFrom T t c = c :: posFrom T t (c + 1) := by
  rw [posFrom, range'_sub_of_lt (lt_length_of_typeAt h), List.filter_cons_of_pos (by simpa using h),
    posFrom]

theorem posFrom_of_ne (h : typeAt T c ≠ some t) : posFrom T t c = posFrom T t (c + 1) := by
  by_cases hc : c < T.length
  · rw [posFrom, range'_sub_of_lt hc, List.filter_cons_of_neg (by simpa using h), posFrom]
  · rw [posFrom_of_le (by omega), posFrom_of_le (by omega)]

/-! ### What each loop starts -/

theorem started_callLog : started (callLog i log) = started log ++ [i] := by
  rw [callLog, started_cons_of_none rfl, started_callStart]

theorem started_dropInitRef : started (dropInitRef s).log = started s.log := by
  rw [dropInitRef]
  by_cases hz : s.freeInitRef - 1 = 0
  · simp only [hz, if_true]
    rw [started_cons_of_none rfl, started_cons_of_none rfl]
  · simp only [hz, if_false]
    rw [started_cons_of_none rfl]

/-- The loop of `doall_default` starts every position. -/
theorem started_callAllLog (rest : List InitFn) : ∀ (i : ℕ) (log : List Event),
    started (callAllLog rest i log) = started log ++ List.range' i rest.length := by
  induction rest with
  | nil => exact fun i log => (List.append_nil _).symm
  | cons e rest ih =>
    intro i log
    rw [callAllLog, ih, started_callLog, List.length_cons, List.range'_succ, List.append_assoc]
    rfl

/-- The loop of `do_asynchronized` starts the asynchronized positions. -/
theorem started_asyncLog (rest : List InitFn) : ∀ (i : ℕ) (log : List Event), T.drop i = rest →
    started (asyncLog rest i log) = started log ++ posFrom T .asynchronized i := by
  induction rest with
  | nil =>
    intro i log hrest
    rw [asyncLog, posFrom_of_le (List.drop_eq_nil_iff.mp hrest), List.append_nil]
  | cons e rest ih =>
    intro i log hrest
    obtain ⟨he, hrest'⟩ := drop_eq_cons hrest
    rw [asyncLog]
    by_cases ht : (initInfo e.id).type = .asynchronized
    · have hi : typeAt T i = some .asynchronized := by rw [typeAt_eq_some he, ht]
      rw [if_pos ht, ih _ _ hrest', started_callLog, started_cons_of_none rfl, posFrom_of_eq hi,
        List.append_assoc]
      rfl
    · have hi : typeAt T i ≠ some .asynchronized := by
        rw [typeAt_eq_some he]
        exact fun hcon => ht (Option.some.inj hcon)
      rw [if_neg ht, ih _ _ hrest', started_cons_of_none rfl, posFrom_of_ne hi]

/-- The loop of `device_read` starts nothing, and passes over no deferred
position. -/
theorem scanLog_spec (rest : List InitFn) : ∀ (i : ℕ) (log : List Event), T.drop i = rest →
    started (scanLog rest i log).2 = started log ∧
      posFrom T .deferred (scanLog rest i log).1 = posFrom T .deferred i ∧
      i ≤ (scanLog rest i log).1 ∧
      ∀ e, T[(scanLog rest i log).1]? = some e → (initInfo e.id).type = .deferred := by
  induction rest with
  | nil =>
    intro i log hrest
    refine ⟨rfl, rfl, Nat.le_refl i, fun e he => ?_⟩
    rw [scanLog, List.getElem?_eq_none (List.drop_eq_nil_iff.mp hrest)] at he
    simp at he
  | cons e rest ih =>
    intro i log hrest
    obtain ⟨he, hrest'⟩ := drop_eq_cons hrest
    rw [scanLog]
    by_cases ht : (initInfo e.id).type = .deferred
    · rw [if_neg (not_not.mpr ht)]
      refine ⟨started_cons_of_none rfl, rfl, Nat.le_refl i, fun e' he' => ?_⟩
      rw [he, Option.some.injEq] at he'
      rw [← he', ht]
    · have hi : typeAt T i ≠ some .deferred := by
        rw [typeAt_eq_some he]
        exact fun hcon => ht (Option.some.inj hcon)
      obtain ⟨hlog, hpos, hle, htype⟩ := ih (i + 1) (.loadId i :: log) hrest'
      rw [if_pos ht]
      exact ⟨hlog.trans (started_cons_of_none rfl), hpos.trans (posFrom_of_ne hi).symm,
        Nat.le_of_succ_le hle, htype⟩

/-- **What one read does**: it starts the first deferred position from the cursor
on and leaves the cursor behind it, or there is none and it starts nothing. -/
theorem deviceRead_cases (T : Table) (s : State) (f c n : ℕ) :
    (∃ j text, (deviceRead T s f c n).2 = some text ∧ c ≤ j ∧ j < T.length ∧
        posFrom T .deferred c = j :: posFrom T .deferred (j + 1) ∧
        (deviceRead T s f c n).1.files =
          s.files.modify f (fun f => { f with privateData := j + 1 }) ∧
        started (deviceRead T s f c n).1.log = started s.log ++ [j]) ∨
      ((deviceRead T s f c n).2 = none ∧ posFrom T .deferred c = [] ∧
        started (deviceRead T s f c n).1.log = started s.log) := by
  obtain ⟨hlog, hpos, hle, htype⟩ := scanLog_spec (T.drop c) c s.log rfl
  rw [deviceRead]
  generalize scanLog (T.drop c) c s.log = stop at hlog hpos hle htype ⊢
  obtain ⟨j, log⟩ := stop
  dsimp only at hlog hpos hle htype ⊢
  cases hj : T[j]? with
  | some e =>
    have hdef : typeAt T j = some .deferred := by rw [typeAt_eq_some hj, htype e hj]
    refine Or.inl ⟨j, _, rfl, hle, lt_length_of_typeAt hdef, ?_, rfl, ?_⟩
    · rw [← hpos, posFrom_of_eq hdef]
    · dsimp only
      rw [started_cons_of_none rfl, started_callLog, hlog]
  | none =>
    refine Or.inr ⟨rfl, ?_, started_dropInitRef.trans hlog⟩
    rw [← hpos, posFrom_of_le (List.getElem?_eq_none_iff.mp hj)]

/-! ### The client that reads to the end of the list -/

/-- **A client that reads to the end of the list**: read number `k` offers a
buffer of `sizes k` bytes. The first argument bounds the number of reads. -/
def readToEnd (T : Table) (f : ℕ) (sizes : ℕ → ℕ) : ℕ → ℕ → State → Option State
  | 0, _, _ => none
  | fuel + 1, k, s =>
    match s.files[f]? with
    | none => none
    | some file =>
      match deviceRead T s f file.privateData (sizes k) with
      | (s', some _) => readToEnd T f sizes fuel (k + 1) s'
      | (s', none) => some s'

/-- The client gets to the end of the list, and its reads start the deferred
positions from the cursor on. -/
theorem readToEnd_eq_some (sizes : ℕ → ℕ) (fuel : ℕ) : ∀ {k : ℕ} {s : State} {file : File},
    s.files[f]? = some file → T.length - file.privateData < fuel →
    ∃ s', readToEnd T f sizes fuel k s = some s' ∧
      started s'.log = started s.log ++ posFrom T .deferred file.privateData := by
  induction fuel with
  | zero => exact fun _ hlt => absurd hlt (Nat.not_lt_zero _)
  | succ fuel ih =>
    intro k s file hf hfuel
    rw [readToEnd, hf]
    dsimp only
    have hread := deviceRead_cases T s f file.privateData (sizes k)
    generalize deviceRead T s f file.privateData (sizes k) = answer at hread ⊢
    obtain ⟨s', text⟩ := answer
    dsimp only at hread ⊢
    rcases hread with ⟨j, text', rfl, hle, hlt, hpos, hfiles, hlog⟩ | ⟨rfl, hpos, hlog⟩
    · -- the next read finds the cursor behind the position just started
      have hf' : s'.files[f]? = some { file with privateData := j + 1 } := by
        rw [hfiles, List.getElem?_modify_eq, hf]
        rfl
      obtain ⟨s'', hend, hlog'⟩ := ih (k := k + 1) hf' (by dsimp only; omega)
      refine ⟨s'', hend, ?_⟩
      rw [hlog', hlog, hpos, List.append_assoc]
      rfl
    · refine ⟨s', rfl, ?_⟩
      rw [hlog, hpos, List.append_nil]

/-- **The split way**: the thread, then one open, then a client that reads to the
end of the list. -/
def splitPath (T : Table) (sizes : ℕ → ℕ) (s : State) : Option State :=
  readToEnd T s.files.length sizes (T.length + 1) 0 (deviceOpen (doAsynchronized T s)).1

/-- What the split way starts. -/
theorem splitPath_eq_some (hs : s.initDone = 0) (sizes : ℕ → ℕ) :
    ∃ s', splitPath T sizes s = some s' ∧
      started s'.log = started s.log ++ (positions T .asynchronized ++ positions T .deferred) := by
  have hopen : (deviceOpen (doAsynchronized T s)).1 =
      { doAsynchronized T s with initDone := 1, files := s.files ++ [⟨0, true⟩] } := by
    simp [deviceOpen, doAsynchronized, hs]
  have hf : ((deviceOpen (doAsynchronized T s)).1).files[s.files.length]? = some ⟨0, true⟩ := by
    rw [hopen]
    simp
  obtain ⟨s', hend, hlog⟩ := readToEnd_eq_some (T := T) sizes (T.length + 1) (k := 0) hf
    (Nat.lt_succ_of_le (Nat.sub_le _ _))
  refine ⟨s', hend, ?_⟩
  rw [hlog, hopen]
  dsimp only [doAsynchronized]
  rw [started_cons_of_none rfl, started_asyncLog T 0 s.log rfl, posFrom_zero, posFrom_zero,
    List.append_assoc]

/-- What the default way starts. -/
theorem started_doallDefault (hs : s.initDone = 0) :
    started (doallDefault T s).log = started s.log ++ List.range T.length := by
  rw [doallDefault]
  simp only [hs, if_true]
  rw [started_dropInitRef, started_callAllLog, List.range_eq_range']

/-! ### Agreement -/

/-- The positions neither loop of the split way selects. -/
def unselected (T : Table) : List ℕ :=
  (List.range T.length).filter fun i =>
    ¬(typeAt T i = some .asynchronized ∨ typeAt T i = some .deferred)

/-- The positions of the table are those of the two types and the others. -/
theorem range_perm : (List.range T.length).Perm
    (positions T .asynchronized ++ positions T .deferred ++ unselected T) := by
  have h₁ := List.filter_append_perm (fun i => decide (typeAt T i = some .asynchronized))
    (List.range T.length)
  have h₂ := List.filter_append_perm (fun i => decide (typeAt T i = some .deferred))
    ((List.range T.length).filter fun i => !decide (typeAt T i = some .asynchronized))
  have hdef : ((List.range T.length).filter fun i =>
      !decide (typeAt T i = some .asynchronized)).filter
        (fun i => decide (typeAt T i = some .deferred)) = positions T .deferred := by
    rw [List.filter_filter, positions, posBelow]
    refine List.filter_congr fun i _ => ?_
    by_cases hi : typeAt T i = some .deferred <;> simp [hi]
  have hother : ((List.range T.length).filter fun i =>
      !decide (typeAt T i = some .asynchronized)).filter
        (fun i => !decide (typeAt T i = some .deferred)) = unselected T := by
    rw [List.filter_filter, unselected]
    refine List.filter_congr fun i _ => ?_
    by_cases hi : typeAt T i = some .deferred <;> simp [hi]
  rw [hdef, hother] at h₂
  rw [List.append_assoc]
  exact h₁.symm.trans (h₂.symm.append_left _)

theorem filter_positions_self :
    (positions T t).filter (fun i => typeAt T i = some t) = positions T t :=
  List.filter_eq_self.mpr fun i hi => by simpa using (mem_posBelow.mp hi).2

theorem filter_positions_of_ne {t' : TaskType} (h : t ≠ t') :
    (positions T t).filter (fun i => typeAt T i = some t') = [] := by
  refine List.filter_eq_nil_iff.mpr fun i hi => ?_
  rw [(mem_posBelow.mp hi).2]
  simpa using h

/-- Nobody is left out exactly when every entry is of one of the two types. -/
theorem unselected_eq_nil :
    unselected T = [] ↔ ∀ i t, typeAt T i = some t → t = .asynchronized ∨ t = .deferred := by
  rw [unselected, List.filter_eq_nil_iff]
  constructor
  · intro h i t hi
    have hsel := h i (List.mem_range.mpr (lt_length_of_typeAt hi))
    rw [hi] at hsel
    simpa [or_iff_not_imp_left] using hsel
  · intro h i hi
    obtain ⟨e, he⟩ : ∃ e, T[i]? = some e :=
      ⟨_, List.getElem?_eq_getElem (List.mem_range.mp hi)⟩
    have hsel := h i _ (typeAt_eq_some he)
    rw [typeAt_eq_some he]
    simpa [or_iff_not_imp_left] using hsel

/-- **The default way and the split way agree but for the entries nobody
selects.** The default way starts what the split way starts and the entries of
neither type; each of the two types is started in the same order; and the two
ways start the same positions exactly when every entry is of one of the two
types. -/
theorem doallDefault_perm_splitPath (hs : s.initDone = 0) (sizes : ℕ → ℕ) :
    ∃ s', splitPath T sizes s = some s' ∧
      (started (doallDefault T s).log).Perm (started s'.log ++ unselected T) ∧
      (∀ t, t = .asynchronized ∨ t = .deferred →
        startedOf T t (doallDefault T s).log = startedOf T t s'.log) ∧
      ((started (doallDefault T s).log).Perm (started s'.log) ↔
        ∀ i t, typeAt T i = some t → t = .asynchronized ∨ t = .deferred) := by
  obtain ⟨s', hend, hlog⟩ := splitPath_eq_some (T := T) hs sizes
  have hperm : (started (doallDefault T s).log).Perm (started s'.log ++ unselected T) := by
    rw [started_doallDefault hs, hlog, List.append_assoc]
    exact range_perm.append_left _
  refine ⟨s', hend, hperm, fun t ht => ?_, ?_⟩
  · have hrange : (List.range T.length).filter (fun i => typeAt T i = some t) =
        positions T t := rfl
    rw [startedOf, startedOf, started_doallDefault hs, hlog]
    simp only [List.filter_append]
    rw [hrange]
    rcases ht with rfl | rfl
    · rw [filter_positions_self, filter_positions_of_ne (by decide), List.append_nil]
    · rw [filter_positions_self, filter_positions_of_ne (by decide), List.nil_append]
  · rw [← unselected_eq_nil]
    constructor
    · intro h
      -- the two lists have the same length only when nothing is left over
      have hlen := (hperm.symm.trans h).length_eq
      rw [List.length_append] at hlen
      exact List.eq_nil_of_length_eq_zero (by omega)
    · intro h
      rw [h, List.append_nil] at hperm
      exact hperm

/-- The three entries of `KernelConfiguration.acpiTable`, one of them disabled. -/
theorem doallDefault_acpiTable :
    ∃ s', splitPath acpiTable (fun _ => 30) bootState = some s' ∧
      started s'.log = [0, 1] ∧
      (started (doallDefault acpiTable bootState).log).Perm
        (started s'.log ++ unselected acpiTable) := by
  obtain ⟨s', hend, hperm, -⟩ :=
    doallDefault_perm_splitPath (T := acpiTable) (s := bootState) rfl fun _ => 30
  refine ⟨s', hend, ?_, hperm⟩
  obtain rfl := Option.some.inj hend
  decide

/-- **The disabled entry** of `KernelConfiguration.acpiTable` is started by the
default way only. -/
theorem not_doallDefault_perm_acpiTable :
    ¬∀ s', splitPath acpiTable (fun _ => 30) bootState = some s' →
      (started (doallDefault acpiTable bootState).log).Perm (started s'.log) := by
  intro h
  have hlen := (h _ rfl).length_eq
  revert hlen
  decide

end KernelConfiguration
