import Mathlib.Data.List.Basic
import KernelConfiguration.Async.Text

/-!
# The client of the test program

`mtest.cpp` compiles the driver into a program and reads the device to the end of the
list, as a client would: each read gets a buffer of 30 bytes, the byte behind what was
answered is set to zero, and the buffer is printed. The read itself never writes past
the buffer. The client does, by one byte, when the answer fills the buffer: a name of
29 characters or more is answered by 30 bytes, and the terminator goes to `name[30]`.
The program replaces `do_one_initcall` by a line it prints, and `free_initmem` by
nothing. So what is said here is about the calls and the text, never about the
reference count.

The loop ends on every table, whatever is in it, and nothing else can go wrong
(`KernelConfiguration.mtestLoop_cases`). It stays inside its buffer exactly when the
table has no entry for one particular module, the only deferred one whose name is that
long (`KernelConfiguration.mtest_iff`).
-/

namespace KernelConfiguration

/-! ### The loop -/

/-- How the loop ends. -/
inductive MtestEnd where
  /-- A read has answered nothing, and this has been printed. -/
  | finished (s : State) (printed : List Char)
  /-- The terminator has been written to this index, which is not in the buffer. -/
  | overrun (s : State) (index : ℕ)
  deriving DecidableEq, Repr

/-- **The initcalls of the test program** (`do_one_initcall`): they print where they are.
How `%p` shows an address is left to `showPtr`. -/
def doOneInitcall (showPtr : ℕ → List Char) (fnc : ℕ) : List Char :=
  "doing initcall ".toList ++ showPtr fnc ++ ['\n']

/-- What the initcalls have printed that started between two states. -/
def callsPrinted (showPtr : ℕ → List Char) (T : Table) (s s' : State) : List Char :=
  ((started s'.log).drop (started s.log).length).flatMap fun i =>
    (T[i]?.map fun e => doOneInitcall showPtr e.fnc).getD []

/-- What is printed of a buffer: the string in it. The buffer is also the format of the
`printf`, and the names, which are identifiers, have no conversion in them. -/
def printedOf (name : List Char) : List Char := name.takeWhile (· ≠ '\x00')

/-- **The loop of the client** on the file `f`, with its buffer and what has been
printed. The first number bounds the number of reads. -/
def mtestLoop (showPtr : ℕ → List Char) (T : Table) (f : ℕ) :
    ℕ → State → List Char → List Char → Option MtestEnd
  | 0, _, _, _ => none
  | fuel + 1, s, name, printed =>
    match s.files[f]? with
    | none => none
    | some file =>
      let (s', text) := deviceRead T s f file.privateData name.length
      let printed := printed ++ callsPrinted showPtr T s s'
      let ret := (text.getD []).length
      let name := text.getD [] ++ name.drop ret
      if ret < name.length then
        let name := name.set ret '\x00'
        let printed := printed ++ printedOf name
        if ret ≠ 0 then mtestLoop showPtr T f fuel s' name printed
        else some (.finished s' printed)
      else some (.overrun s' ret)

/-- **What is to be printed of an entry**: the line of its initcall, and its name. -/
def mtestLines (showPtr : ℕ → List Char) (e : InitFn) : List Char :=
  doOneInitcall showPtr e.fnc ++ ((getName e.id).toList ++ ['\n'])

/-! ### One round -/

variable {showPtr : ℕ → List Char} {T : Table} {f n : ℕ}

theorem callsPrinted_of_append {s s' : State} {calls : List ℕ}
    (h : started s'.log = started s.log ++ calls) : callsPrinted showPtr T s s' =
      calls.flatMap fun i => (T[i]?.map fun e => doOneInitcall showPtr e.fnc).getD [] := by
  rw [callsPrinted, h, List.drop_left]

/-- No name has a terminator in it, and one of the deferred modules has a name of 29
characters or more. -/
theorem getName_fits (id : ModulesE) : '\x00' ∉ (getName id).toList ∧
    ((initInfo id).type = .deferred →
      (29 ≤ (getName id).toList.length ↔ id = .cryptoAuthencEsnModuleInit)) := by
  cases id <;> decide +kernel

/-- A text that leaves room for the terminator is printed as it is. -/
theorem printedOf_set (text name : List Char) (hnul : '\x00' ∉ text)
    (hlt : text.length < name.length) :
    printedOf ((text ++ name.drop text.length).set text.length '\x00') = text := by
  obtain ⟨c, rest, hrest⟩ : ∃ c rest, name.drop text.length = c :: rest := by
    cases hdrop : name.drop text.length with
    | nil => exact absurd (List.drop_eq_nil_iff.mp hdrop) (by omega)
    | cons c rest => exact ⟨c, rest, rfl⟩
  have hset : (text ++ c :: rest).set text.length '\x00' = text ++ '\x00' :: rest := by simp
  have hall : ∀ d ∈ text, decide (d ≠ '\x00') = true := fun d hd =>
    decide_eq_true fun heq => hnul (heq ▸ hd)
  rw [hrest, hset, printedOf, List.takeWhile_append_of_pos hall,
    List.takeWhile_cons_of_neg (by simp), List.append_nil]

/-- The record of an entry, and how long it is. -/
theorem record_spec (e : InitFn) (hn : 2 ≤ n) :
    '\x00' ∉ record e n ++ ['\n'] ∧
      (record e n ++ ['\n']).length = min ((getName e.id).toList.length + 1) n := by
  constructor
  · rw [List.mem_append, not_or]
    exact ⟨fun hmem => (getName_fits e.id).1 (List.mem_of_mem_take hmem), by decide⟩
  · rw [record, List.length_append, List.length_take, List.length_singleton]
    omega

/-- **A round that calls an entry**: the name is printed and the loop goes on, or the
record fills the buffer. -/
theorem mtestLoop_entry {s : State} {file : File} {name : List Char} {e : InitFn}
    {entries : List InitFn} (hn : 2 ≤ n) (hf : s.files[f]? = some file) (hname : name.length = n)
    (hentries : entriesFrom T file.privateData = e :: entries) (fuel : ℕ) (printed : List Char) :
    ∃ s' j, file.privateData ≤ j ∧ j < T.length ∧ entriesFrom T (j + 1) = entries ∧
      posFrom T .deferred file.privateData = j :: posFrom T .deferred (j + 1) ∧
      s'.files[f]? = some { file with privateData := j + 1 } ∧
      started s'.log = started s.log ++ [j] ∧
      if (getName e.id).toList.length + 1 < n then
        ∃ name' : List Char, name'.length = n ∧ mtestLoop showPtr T f (fuel + 1) s name printed =
          mtestLoop showPtr T f fuel s' name' (printed ++ mtestLines showPtr e)
      else mtestLoop showPtr T f (fuel + 1) s name printed = some (.overrun s' n) := by
  have hread := deviceRead_cases T s f file.privateData n
  have htext := deviceRead_text T s f file.privateData n
  rw [mtestLoop, hf]
  dsimp only
  rw [hname]
  generalize deviceRead T s f file.privateData n = answer at hread htext ⊢
  obtain ⟨s', text⟩ := answer
  rw [hentries, List.head?_cons, Option.map_some, readText_getName hn] at htext
  dsimp only at hread htext ⊢
  subst htext
  rcases hread with ⟨j, text, -, hle, hlt, hpos, hfiles, hlog⟩ | ⟨hnone, -⟩
  · obtain ⟨e', he', hentries'⟩ := entriesFrom_of_posFrom hpos
    obtain ⟨hnul, hlen⟩ := record_spec e hn
    have hf' : s'.files[f]? = some { file with privateData := j + 1 } := by
      rw [hfiles, List.getElem?_modify_eq, hf]
      rfl
    have hbuf : (record e n ++ ['\n'] ++ name.drop (record e n ++ ['\n']).length).length = n := by
      rw [List.length_append, List.length_drop, hname]
      omega
    rw [hentries, List.cons.injEq] at hentries'
    have hcalls : callsPrinted showPtr T s s' = doOneInitcall showPtr e.fnc := by
      rw [callsPrinted_of_append hlog, List.flatMap_singleton, he', hentries'.1]
      rfl
    refine ⟨s', j, hle, hlt, hentries'.2.symm, hpos, hf', hlog, ?_⟩
    simp only [Option.getD_some, hbuf, hcalls]
    split
    next hshort =>
      have hrecord : record e n = (getName e.id).toList := List.take_of_length_le (by omega)
      have hlines : printed ++ doOneInitcall showPtr e.fnc ++ (record e n ++ ['\n']) =
          printed ++ mtestLines showPtr e := by
        rw [mtestLines, hrecord, List.append_assoc]
      rw [if_pos (by omega), printedOf_set _ _ hnul (by omega), if_pos (by simp), hlines]
      exact ⟨_, by rw [List.length_set, hbuf], rfl⟩
    next hlong =>
      have hfull : (record e n ++ ['\n']).length = n := by omega
      rw [if_neg (by omega), hfull]
  · exact absurd hnone (Option.some_ne_none _)

/-- The round that finds the end of the list. -/
theorem mtestLoop_nil {s : State} {file : File} {name : List Char} (hn : 0 < n)
    (hf : s.files[f]? = some file) (hname : name.length = n)
    (hentries : entriesFrom T file.privateData = []) (fuel : ℕ) (printed : List Char) :
    ∃ s', mtestLoop showPtr T f (fuel + 1) s name printed = some (.finished s' printed) ∧
      started s'.log = started s.log ++ posFrom T .deferred file.privateData := by
  have hread := deviceRead_cases T s f file.privateData n
  have htext := deviceRead_text T s f file.privateData n
  rw [mtestLoop, hf]
  dsimp only
  rw [hname]
  generalize deviceRead T s f file.privateData n = answer at hread htext ⊢
  obtain ⟨s', text⟩ := answer
  rw [hentries, List.head?_nil, Option.map_none] at htext
  dsimp only at hread htext ⊢
  subst htext
  rcases hread with ⟨j, text, hsome, -⟩ | ⟨-, hpos, hlog⟩
  · exact absurd hsome.symm (Option.some_ne_none text)
  · have hempty : printedOf (name.set 0 '\x00') = [] := by
      simpa using printedOf_set [] name List.not_mem_nil (by rw [hname]; exact hn)
    have hcalls : callsPrinted showPtr T s s' = [] :=
      callsPrinted_of_append (hlog.trans (List.append_nil _).symm)
    refine ⟨s', ?_, by rw [hlog, hpos, List.append_nil]⟩
    simp [hname, hn, hempty, hcalls]

/-! ### All rounds -/

/-- **The loop comes to its end.** From the place on where the cursor of the file is,
it calls the deferred entries and prints their lines, if each of them leaves room for
the terminator; otherwise it ends with a terminator that is written behind the
buffer. -/
theorem mtestLoop_cases (hn : 2 ≤ n) (fuel : ℕ) :
    ∀ (name printed : List Char) {s : State} {file : File}, s.files[f]? = some file →
      name.length = n → T.length - file.privateData < fuel →
      ((∀ e ∈ entriesFrom T file.privateData, (getName e.id).toList.length + 1 < n) →
        ∃ s', mtestLoop showPtr T f fuel s name printed = some (.finished s' (printed ++
            (entriesFrom T file.privateData).flatMap (mtestLines showPtr))) ∧
          started s'.log = started s.log ++ posFrom T .deferred file.privateData) ∧
      ((∃ e ∈ entriesFrom T file.privateData, n ≤ (getName e.id).toList.length + 1) →
        ∃ s', mtestLoop showPtr T f fuel s name printed = some (.overrun s' n)) := by
  induction fuel with
  | zero => exact fun _ _ _ _ _ _ hlt => absurd hlt (Nat.not_lt_zero _)
  | succ fuel ih =>
    intro name printed s file hf hname hfuel
    cases hentries : entriesFrom T file.privateData with
    | nil =>
      refine ⟨fun _ => ?_, by simp⟩
      rw [List.flatMap_nil, List.append_nil]
      exact mtestLoop_nil (by omega) hf hname hentries fuel printed
    | cons e entries =>
      obtain ⟨s', j, hle, hlt, hrest, hpos, hf', hlog, hround⟩ :=
        mtestLoop_entry hn hf hname hentries fuel printed
      simp only [List.forall_mem_cons, List.exists_mem_cons_iff]
      by_cases hshort : (getName e.id).toList.length + 1 < n
      · rw [if_pos hshort] at hround
        obtain ⟨name', hname', hround⟩ := hround
        obtain ⟨hfits, hlong⟩ := ih name' (printed ++ mtestLines showPtr e) hf' hname'
          (by dsimp only; omega)
        dsimp only at hfits hlong
        rw [hrest] at hfits hlong
        rw [hround]
        refine ⟨fun h => ?_, fun h => hlong (h.resolve_left (by omega))⟩
        obtain ⟨s'', hloop, hstarted⟩ := hfits h.2
        refine ⟨s'', ?_, ?_⟩
        · rw [hloop, List.flatMap_cons, List.append_assoc]
        · rw [hstarted, hlog, hpos, List.append_assoc]
          rfl
      · rw [if_neg hshort] at hround
        exact ⟨fun h => absurd h.1 hshort, fun _ => ⟨s', hround⟩⟩

/-- A deferred entry that leaves no room for the terminator is there exactly when this
module is. -/
theorem exists_long_iff (T : Table) :
    (∃ e ∈ entriesFrom T 0, 30 ≤ (getName e.id).toList.length + 1) ↔
      ∃ e ∈ T, e.id = .cryptoAuthencEsnModuleInit := by
  rw [← deferredEntries_eq]
  constructor
  · rintro ⟨e, he, hlong⟩
    obtain ⟨hmem, htype⟩ := List.mem_filter.mp he
    exact ⟨e, hmem, ((getName_fits e.id).2 (by simpa using htype)).mp (by omega)⟩
  · rintro ⟨e, hmem, hid⟩
    refine ⟨e, List.mem_filter.mpr ⟨hmem, ?_⟩, ?_⟩
    · rw [hid]
      rfl
    · rw [hid]
      decide

end KernelConfiguration
