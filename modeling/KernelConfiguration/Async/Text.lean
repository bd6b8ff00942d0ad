import Mathlib.Data.List.Basic
import Mathlib.Data.Option.Basic
import KernelConfiguration.Async.DefaultPath

/-!
# What a client reads

A client that reads `/proc/deferred_initcalls` gets the names of the modules that
its reads initialise. `device_read` counts the name with its terminator, cuts the
count at the size of the buffer, and then overwrites the last byte by a newline, so
that a name that is cut short is still a line of its own. An empty answer is how
the end of the list is told, and no name may be answered by one before.

Every record is a line (`KernelConfiguration.readText_eq`), and lines can be told
apart again (`KernelConfiguration.splitOn_flatMap`). So the text that a whole
sequence of reads gets can be decoded, whatever sizes the reads have
(`KernelConfiguration.deviceReads_decodes`).
-/

namespace KernelConfiguration

/-! ### Lines -/

/-- **Lines can be told apart**: what is ended by separators is what splitting at the
separator gives, with nothing left behind the last one. -/
theorem splitOn_flatMap {α : Type*} [DecidableEq α] {sep : α} {lines : List (List α)}
    (h : ∀ line ∈ lines, sep ∉ line) :
    (lines.flatMap (· ++ [sep])).splitOn sep = lines ++ [[]] := by
  induction lines with
  | nil => rfl
  | cons line lines ih =>
    rw [List.forall_mem_cons] at h
    rw [List.flatMap_cons, List.append_assoc, List.singleton_append,
      List.splitOn_append_cons_self_of_not_mem h.1, ih h.2, List.cons_append]

/-- Overwriting the last element of the beginning of a list. -/
theorem set_take_succ {α : Type*} {l : List α} {k : ℕ} (hk : k < l.length) (a : α) :
    (l.take (k + 1)).set k a = l.take k ++ [a] := by
  have hlen : (l.take k).length = k := List.length_take_of_le (Nat.le_of_lt hk)
  rw [List.take_succ_eq_append_getElem hk, List.set_append_right _ _ (Nat.le_of_eq hlen), hlen,
    Nat.sub_self]
  rfl

/-- **What a read with room for two bytes answers**: as much of the name as there is
room for, and a newline. -/
theorem readText_eq {name : List Char} {n : ℕ} (hname : name ≠ []) (hn : 2 ≤ n) :
    readText name n = name.take (n - 1) ++ ['\n'] := by
  have hlen : 0 < name.length := List.length_pos_iff.mpr hname
  obtain ⟨k, hk⟩ : ∃ k, min (name.length + 1) n = k + 1 :=
    Nat.exists_eq_succ_of_ne_zero (by omega)
  rw [readText]
  simp only [hname, if_false, show n ≠ 0 by omega, ne_eq, not_false_eq_true, if_true, hk,
    show k + 1 > 1 by omega, Nat.add_sub_cancel]
  rw [set_take_succ (by rw [List.length_append, List.length_singleton]; omega),
    List.take_append_of_le_length (by omega)]
  -- the name is cut at its end or at the size of the buffer, whichever comes first
  rcases Nat.le_total (name.length + 1) n with hle | hle
  · rw [List.take_of_length_le (by omega), List.take_of_length_le (by omega)]
  · rw [show k = n - 1 by omega]

/-! ### What is to be read -/

/-- The deferred entries from a position on, in table order. -/
def entriesFrom (T : Table) (c : ℕ) : List InitFn :=
  (T.drop c).filter fun e => (initInfo e.id).type = .deferred

/-- **The deferred entries**, in table order. -/
def deferredEntries (T : Table) : List InitFn :=
  T.filter fun e => (initInfo e.id).type = .deferred

/-- **The record of an entry** in a text that is read with a buffer of `n` bytes for
it: as much of the name as there is room for next to the newline. -/
def record (e : InitFn) (n : ℕ) : List Char := (getName e.id).toList.take (n - 1)

/-- **What the reads are to answer**: the entries one after the other, and nothing
when there is none left. -/
def answers : List InitFn → List ℕ → List (List Char)
  | _, [] => []
  | [], _ :: sizes => [] :: answers [] sizes
  | e :: entries, n :: sizes => readText (getName e.id).toList n :: answers entries sizes

/-- **The text of a sequence of reads can be decoded.** Every answer fits into its
buffer, the answers are empty from the end of the list on and no sooner, and the
lines of the whole text are the records of the entries. -/
structure Decodes (T : Table) (sizes : List ℕ) (texts : List (List Char)) : Prop where
  /-- Every answer fits into its buffer. -/
  fits : ∀ (r n : ℕ) (text : List Char), sizes[r]? = some n → texts[r]? = some text →
    text.length ≤ n
  /-- An empty answer tells the end of the list. -/
  empty_iff : ∀ (r : ℕ) (text : List Char), texts[r]? = some text →
    (text.length = 0 ↔ (deferredEntries T).length ≤ r)
  /-- The lines are the records. -/
  lines : texts.flatten.splitOn '\n' = List.zipWith record (deferredEntries T) sizes ++ [[]]

theorem readText_getName {e : InitFn} {n : ℕ} (hn : 2 ≤ n) :
    readText (getName e.id).toList n = record e n ++ ['\n'] :=
  readText_eq (getName_line e.id).1 hn

/-- What a single read is to answer. -/
theorem getElem?_answers (sizes : List ℕ) : ∀ (entries : List InitFn) (r : ℕ),
    (answers entries sizes)[r]? = sizes[r]?.map fun n =>
      (entries[r]?.map fun e => readText (getName e.id).toList n).getD [] := by
  induction sizes with
  | nil => exact fun _ _ => rfl
  | cons n sizes ih =>
    intro entries r
    cases entries with
    | nil =>
      cases r with
      | zero => rfl
      | succ r =>
        rw [answers, List.getElem?_cons_succ, ih, List.getElem?_cons_succ]
        rfl
    | cons e entries =>
      cases r with
      | zero => rfl
      | succ r =>
        rw [answers, List.getElem?_cons_succ, ih, List.getElem?_cons_succ, List.getElem?_cons_succ]

theorem length_answers (sizes : List ℕ) : ∀ entries : List InitFn,
    (answers entries sizes).length = sizes.length := by
  induction sizes with
  | nil => exact fun _ => rfl
  | cons n sizes ih =>
    rintro (_ | ⟨e, entries⟩)
    · exact congrArg (· + 1) (ih [])
    · exact congrArg (· + 1) (ih entries)

/-- The whole text is one line for each entry that is read. -/
theorem flatten_answers {sizes : List ℕ} (hsizes : ∀ n ∈ sizes, 2 ≤ n) :
    ∀ entries : List InitFn, (answers entries sizes).flatten =
      (List.zipWith record entries sizes).flatMap (· ++ ['\n']) := by
  induction sizes with
  | nil => exact fun entries => by rw [answers, List.zipWith_nil_right]; rfl
  | cons n sizes ih =>
    rw [List.forall_mem_cons] at hsizes
    rintro (_ | ⟨e, entries⟩)
    · rw [answers, List.flatten_cons, ih hsizes.2]
      rfl
    · rw [answers, List.flatten_cons, ih hsizes.2, List.zipWith_cons_cons, List.flatMap_cons,
        readText_getName hsizes.1]

/-- **What the reads are to answer can be decoded.** -/
theorem decodes_answers (T : Table) {sizes : List ℕ} (hsizes : ∀ n ∈ sizes, 2 ≤ n) :
    Decodes T sizes (answers (deferredEntries T) sizes) where
  fits r n text hn htext := by
    rw [getElem?_answers, hn, Option.map_some, Option.some.injEq] at htext
    have htwo := hsizes n (List.mem_of_getElem? hn)
    rw [← htext]
    cases (deferredEntries T)[r]? with
    | none => exact Nat.zero_le n
    | some e =>
      simp only [Option.map_some, Option.getD_some]
      rw [readText_getName htwo, record, List.length_append, List.length_take,
        List.length_singleton]
      omega
  empty_iff r text htext := by
    rw [getElem?_answers] at htext
    obtain ⟨n, hn, rfl⟩ := Option.map_eq_some_iff.mp htext
    have htwo := hsizes n (List.mem_of_getElem? hn)
    rw [← List.getElem?_eq_none_iff]
    cases (deferredEntries T)[r]? with
    | none => simp
    | some e =>
      simp only [Option.map_some, Option.getD_some]
      rw [readText_getName htwo, List.length_append, List.length_singleton]
      simp
  lines := by
    rw [flatten_answers hsizes]
    refine splitOn_flatMap fun line hline => ?_
    obtain ⟨i, hi⟩ := List.mem_iff_getElem?.mp hline
    obtain ⟨e, n, -, -, rfl⟩ := List.getElem?_zipWith_eq_some.mp hi
    exact fun hmem => (getName_line e.id).2 (List.mem_of_mem_take hmem)

/-! ### A client that reads -/

variable {T : Table} {s s' : State} {c i j f n r : ℕ}

/-- The entries at the deferred positions are the deferred entries. -/
theorem map_getElem?_posFrom (rest : List InitFn) : ∀ {c : ℕ}, T.drop c = rest →
    (posFrom T .deferred c).map (fun i => T[i]?) = (entriesFrom T c).map some := by
  induction rest with
  | nil =>
    intro c hrest
    rw [posFrom_of_le (List.drop_eq_nil_iff.mp hrest), entriesFrom, hrest]
    rfl
  | cons e rest ih =>
    intro c hrest
    obtain ⟨he, hrest'⟩ := drop_eq_cons hrest
    have ih' := ih hrest'
    rw [entriesFrom, hrest'] at ih'
    rw [entriesFrom, hrest]
    by_cases ht : (initInfo e.id).type = .deferred
    · have hc : typeAt T c = some .deferred := by rw [typeAt_eq_some he, ht]
      rw [posFrom_of_eq hc, List.map_cons, he, ih', List.filter_cons_of_pos (by simpa using ht),
        List.map_cons]
    · have hc : typeAt T c ≠ some .deferred := by
        rw [typeAt_eq_some he]
        exact fun hcon => ht (Option.some.inj hcon)
      rw [posFrom_of_ne hc, ih', List.filter_cons_of_neg (by simpa using ht)]

/-- The entries from the next deferred position on. -/
theorem entriesFrom_of_posFrom (h : posFrom T .deferred c = j :: posFrom T .deferred (j + 1)) :
    ∃ e, T[j]? = some e ∧ entriesFrom T c = e :: entriesFrom T (j + 1) := by
  have hmap := map_getElem?_posFrom (T.drop c) (T := T) rfl
  rw [h, List.map_cons, map_getElem?_posFrom (T.drop (j + 1)) rfl] at hmap
  cases hentries : entriesFrom T c with
  | nil => simp [hentries] at hmap
  | cons e entries =>
    rw [hentries, List.map_cons, List.cons.injEq] at hmap
    have hrest := List.map_injective_iff.mpr (Option.some_injective _) hmap.2
    exact ⟨e, hmap.1, congrArg (e :: ·) hrest.symm⟩

/-- **What one read answers**: the name of the next deferred entry. -/
theorem deviceRead_text (T : Table) (s : State) (f c n : ℕ) : (deviceRead T s f c n).2 =
    (entriesFrom T c).head?.map fun e => readText (getName e.id).toList n := by
  obtain ⟨-, hpos, -, htype⟩ := scanLog_spec (T.drop c) c s.log rfl
  rw [deviceRead]
  generalize scanLog (T.drop c) c s.log = stop at hpos htype ⊢
  obtain ⟨j, log⟩ := stop
  dsimp only at hpos htype ⊢
  cases hj : T[j]? with
  | some e =>
    have hdef : typeAt T j = some .deferred := by rw [typeAt_eq_some hj, htype e hj]
    rw [posFrom_of_eq hdef] at hpos
    obtain ⟨e', he', hentries⟩ := entriesFrom_of_posFrom hpos.symm
    rw [hj, Option.some.injEq] at he'
    rw [hentries, he']
    rfl
  | none =>
    rw [posFrom_of_le (List.getElem?_eq_none_iff.mp hj)] at hpos
    have hmap := map_getElem?_posFrom (T.drop c) (T := T) rfl
    rw [← hpos] at hmap
    rw [List.map_eq_nil_iff.mp hmap.symm]
    rfl

/-- A read that finds the end of the list moves no cursor. -/
theorem deviceRead_files_of_none (h : (deviceRead T s f c n).2 = none) :
    (deviceRead T s f c n).1.files = s.files := by
  rw [deviceRead] at h ⊢
  generalize scanLog (T.drop c) c s.log = stop at h ⊢
  obtain ⟨j, log⟩ := stop
  dsimp only at h ⊢
  cases hj : T[j]? with
  | some e => simp [hj] at h
  | none =>
    dsimp only
    rw [dropInitRef]
    split <;> rfl

/-- An open that succeeds gets a file with its cursor at the start of the table. -/
theorem files_of_deviceOpen (h : deviceOpen s = (s', 0)) : s'.files = s.files ++ [⟨0, true⟩] := by
  simp only [deviceOpen] at h
  split at h
  · exact absurd (Prod.mk.inj h).2 (show -einval ≠ 0 by decide)
  · rw [← (Prod.mk.inj h).1]

/-- **A client that makes a sequence of reads**, with a buffer of this size for
each: the state in the end, and the answers. -/
def deviceReads (T : Table) (f : ℕ) : List ℕ → State → Option (State × List (List Char))
  | [], s => some (s, [])
  | n :: sizes, s => do
    let file ← s.files[f]?
    let (s', text) := deviceRead T s f file.privateData n
    let (s'', texts) ← deviceReads T f sizes s'
    return (s'', text.getD [] :: texts)

/-- **The client gets what is to be answered**, from the place on where the cursor of
its file is, and the entries are called that are read. -/
theorem deviceReads_eq_some (sizes : List ℕ) : ∀ {s : State} {file : File},
    s.files[f]? = some file →
    ∃ s', deviceReads T f sizes s = some (s', answers (entriesFrom T file.privateData) sizes) ∧
      started s'.log =
        started s.log ++ (posFrom T .deferred file.privateData).take sizes.length := by
  induction sizes with
  | nil => exact fun {s} _ _ => ⟨s, rfl, (List.append_nil _).symm⟩
  | cons n sizes ih =>
    intro s file hf
    have hread := deviceRead_cases T s f file.privateData n
    have htext := deviceRead_text T s f file.privateData n
    have hfiles : (deviceRead T s f file.privateData n).2 = none → _ := deviceRead_files_of_none
    rw [deviceReads, hf]
    simp only [Option.bind_eq_bind, Option.bind_some]
    generalize deviceRead T s f file.privateData n = answer at hread htext hfiles ⊢
    obtain ⟨s', text⟩ := answer
    dsimp only at hread htext hfiles ⊢
    rcases hread with ⟨j, text', rfl, -, -, hpos, hfiles', hlog⟩ | ⟨rfl, hpos, hlog⟩
    · -- the next read finds the cursor behind the entry that has been called
      obtain ⟨e, -, hentries⟩ := entriesFrom_of_posFrom hpos
      have hf' : s'.files[f]? = some { file with privateData := j + 1 } := by
        rw [hfiles', List.getElem?_modify_eq, hf]
        rfl
      obtain ⟨s'', hrest, hlog'⟩ := ih hf'
      rw [hentries, List.head?_cons, Option.map_some, Option.some.injEq] at htext
      refine ⟨s'', ?_, ?_⟩
      · rw [hrest, hentries, answers, htext]
        rfl
      · rw [hlog', hlog, hpos, List.length_cons, List.take_succ_cons, List.append_assoc]
        rfl
    · have hnil : entriesFrom T file.privateData = [] := by
        cases hentries : entriesFrom T file.privateData with
        | nil => rfl
        | cons e entries => simp [hentries] at htext
      have hf' : s'.files[f]? = some file := by rw [hfiles rfl, hf]
      obtain ⟨s'', hrest, hlog'⟩ := ih hf'
      refine ⟨s'', ?_, ?_⟩
      · rw [hrest, hnil, answers]
        rfl
      · rw [hlog', hlog, hpos, List.take_nil, List.take_nil]

/-! ### The reads of the system -/

/-- What a single read is to answer, by its number. -/
def answer (T : Table) (r n : ℕ) : List Char :=
  ((deferredEntries T)[r]?.map fun e => readText (getName e.id).toList n).getD []

/-- What read number `r` is up to, when the reads are serialised: before its initcall
it has passed over the deferred positions of the earlier reads and no others, and
from then on it is at its own. -/
def ReadPc.Answers (T : Table) (r n : ℕ) : ReadPc → Prop
  | .scan i => posBelow T .deferred i = (positions T .deferred).take r
  | .call i | .inCall i | .store i => (positions T .deferred)[r]? = some i
  | .decRef | .free => (positions T .deferred).length ≤ r
  | .done text => text = answer T r n

variable (T s) in
/-- **Every read is up to what it is to answer.** -/
def AnswersAll : Prop := ∀ (r : ℕ) (a : Read), s.reads[r]? = some a → a.pc.Answers T r a.nbytes

theorem deferredEntries_eq (T : Table) : deferredEntries T = entriesFrom T 0 := rfl

/-- The entry at a deferred position. -/
theorem getElem?_deferredEntries {e : InitFn} (hi : (positions T .deferred)[r]? = some i)
    (he : T[i]? = some e) : (deferredEntries T)[r]? = some e := by
  have hmap := congrArg (·[r]?) (map_getElem?_posFrom T (c := 0) rfl)
  simp only [posFrom_zero, List.getElem?_map, hi, Option.map_some, he] at hmap
  rw [deferredEntries_eq]
  obtain ⟨e', he', heq⟩ := Option.map_eq_some_iff.mp hmap.symm
  rw [he', Option.some.inj heq]

theorem length_deferredEntries (T : Table) :
    (deferredEntries T).length = (positions T .deferred).length := by
  have hmap := congrArg List.length (map_getElem?_posFrom T (c := 0) rfl)
  rw [List.length_map, List.length_map, posFrom_zero] at hmap
  exact hmap.symm

/-- What is below a deferred position tells its number. -/
theorem getElem?_positions (h : posBelow T .deferred i = (positions T .deferred).take r)
    (hi : typeAt T i = some .deferred) : (positions T .deferred)[r]? = some i := by
  have hpre : posBelow T .deferred i ++ [i] <+: positions T .deferred := by
    rw [← posBelow_succ_of_eq hi]
    exact posBelow_prefix (lt_length_of_typeAt hi)
  have hlen := hpre.length_le
  rw [List.length_append, List.length_singleton, h, List.length_take] at hlen
  obtain ⟨rest, hrest⟩ := hpre
  have hr : (posBelow T .deferred i).length = r := by
    rw [h, List.length_take]
    omega
  rw [← hrest, List.append_assoc, List.getElem?_append_right (Nat.le_of_eq hr), hr, Nat.sub_self]
  rfl

/-- Nothing is left to be answered. -/
theorem answer_eq_nil (h : (positions T .deferred).length ≤ r) : answer T r n = [] := by
  rw [← length_deferredEntries] at h
  rw [answer, List.getElem?_eq_none h]
  rfl

/-- **The moves of a read keep to what it is to answer.** -/
theorem ReadMove.answers {pc pc' : ReadPc} {es log : List Event} (h : ReadMove T pc es pc')
    (hpc : pc.Sound T log) (ha : pc.Answers T r n) : pc'.Answers T r n := by
  cases h with
  | @skip i t hi ht =>
    have hne : typeAt T i ≠ some .deferred := by
      rw [hi]
      exact fun hcon => ht (Option.some.inj hcon)
    exact (posBelow_succ_of_ne hne).trans ha
  | pick hi => exact getElem?_positions ha hi
  | overrun hi hne =>
    -- the loop never goes past the end of the table
    exact absurd (Nat.le_antisymm hpc.1 (List.getElem?_eq_none_iff.mp hi)) hne
  | leave =>
    have hlen := congrArg List.length ha
    rw [List.length_take] at hlen
    change (posBelow T .deferred T.length).length ≤ r
    omega
  | start => exact ha
  | finish => exact ha
  | free => exact (answer_eq_nil ha).symm

/-- One read has moved. -/
theorem AnswersAll.set (h : AnswersAll T s) {b : Read} (hset : s'.reads = s.reads.set r b)
    (hb : b.pc.Answers T r b.nbytes) : AnswersAll T s' := by
  intro k a ha
  rw [hset, List.getElem?_set] at ha
  split at ha
  next hrk =>
    subst hrk
    split at ha
    · obtain rfl := Option.some.inj ha
      exact hb
    · cases ha
  next => exact h k a ha

/-- When all reads have returned, the cursor is behind the deferred positions of
these reads. -/
theorem Serial.cursor_of_idle (h : Serial T s) (hsound : Sound T s) (hone : OneFile s)
    (hidle : ∀ a ∈ s.reads, a.isDone) :
    posBelow T .deferred s.cursor = (positions T .deferred).take s.reads.length := by
  have hperformed : s.performed = s.reads.length := by
    refine List.countP_eq_length.mpr fun a ha => ?_
    have hdone := hidle a ha
    rw [Read.isDone] at hdone
    cases hpc : a.pc with
    | done text => rfl
    | _ => simp [hpc] at hdone
  rw [← hperformed, ← h.count.eq_take (h.prefix_positions hsound hone), h.calls_of_idle hidle]

/-- **Every step of a serialised run keeps the reads to what they are to answer.** -/
theorem AnswersAll.step {a : Action} (h : AnswersAll T s) (hsound : Sound T s) (hone : OneFile s)
    (hserial : Serial T s) (hok : serialised s a) (hstep : Step T s a s') : AnswersAll T s' := by
  cases hstep with
  | thread | openFail | openOk | close => exact h
  | @read f n file hf _ =>
    obtain ⟨rfl, -, hg, hr⟩ := hone.of_file hf
    have hcursor := hserial.cursor_of_idle hsound hone fun a ha => hok a ha (hr a ha)
    rw [cursor_of_files hg] at hcursor
    intro k a ha
    rw [List.getElem?_append] at ha
    split at ha
    · exact h k a ha
    · next hk =>
      obtain ⟨hzero, rfl⟩ : k - s.reads.length = 0 ∧
          (⟨0, n, .scan file.privateData⟩ : Read) = a := by
        simpa [List.getElem?_singleton] using ha
      obtain rfl : k = s.reads.length := by omega
      exact hcursor
  | @move r a es pc ha hmove =>
    exact h.set rfl (hmove.answers (hsound.reads a (List.mem_of_getElem? ha)) (h r a ha))
  | @store r a i e ha hpc he =>
    have hanswers := h r a ha
    rw [hpc] at hanswers
    refine h.set rfl ?_
    change readText (getName e.id).toList a.nbytes = answer T r a.nbytes
    rw [answer, getElem?_deferredEntries hanswers he]
    rfl
  | @decRef r a ha hpc =>
    have hanswers := h r a ha
    rw [hpc] at hanswers
    refine h.set rfl ?_
    dsimp only
    split
    · exact hanswers
    · exact (answer_eq_nil hanswers).symm

/-- **The reads of a serialised run answer what they are to answer**, whatever the
thread does between two steps of a read. -/
theorem Reach.answersAll (h : Reachable T serialised s) : AnswersAll T s := by
  refine (h.invariant (I := fun s => ((Sound T s ∧ OneFile s) ∧ Serial T s) ∧ AnswersAll T s)
    ⟨⟨⟨sound_asyncInit, Or.inl ⟨rfl, rfl, rfl⟩⟩, serial_asyncInit⟩, nofun⟩ ?_).2
  rintro s a s' ⟨⟨⟨hsound, hone⟩, hserial⟩, hanswers⟩ hok hnext
  have hstep := step_cases hnext
  exact ⟨⟨⟨hsound.step hstep, hone.step hstep⟩, hserial.step hsound hone hok hstep⟩,
    hanswers.step hsound hone hserial hok hstep⟩

/-! ### The text of all reads -/

/-- The reads that have returned. -/
def State.returned (s : State) : List Read := s.reads.filter Read.isDone

/-- The answer of a read that has returned. -/
def Read.text (a : Read) : List Char :=
  match a.pc with
  | .done text => text
  | _ => []

/-- Only the latest read may still be under way. -/
theorem Serial.returned_prefix (h : Serial T s) : s.returned <+: s.reads := by
  rcases List.eq_nil_or_concat s.reads with hnil | ⟨rs, b, hrs⟩
  · rw [State.returned, hnil]
    exact List.prefix_refl _
  · have hold := h.old
    rw [List.concat_eq_append] at hrs
    rw [hrs, List.dropLast_concat] at hold
    rw [State.returned, hrs, List.filter_append, List.filter_eq_self.mpr hold]
    refine (List.prefix_append_right_inj rs).mpr ?_
    rw [List.filter_singleton]
    cases b.isDone with
    | true => exact List.prefix_refl _
    | false => exact List.nil_prefix

/-- The answers of the reads that have returned are the ones that are to be
given. -/
theorem AnswersAll.map_text (h : AnswersAll T s) (hserial : Serial T s) :
    s.returned.map Read.text = answers (deferredEntries T) (s.returned.map Read.nbytes) := by
  refine List.ext_getElem? fun r => ?_
  rw [getElem?_answers, List.getElem?_map, List.getElem?_map]
  cases ha : s.returned[r]? with
  | none => rfl
  | some a =>
    have hdone : a.isDone := (List.mem_filter.mp (List.mem_of_getElem? ha)).2
    have hread : s.reads[r]? = some a := by
      obtain ⟨rest, hrest⟩ := hserial.returned_prefix
      rw [← hrest, List.getElem?_append_left (List.getElem?_eq_some_iff.mp ha).1, ha]
    have hanswer := h r a hread
    rw [Option.map_some, Option.map_some, Option.map_some, Read.text]
    rw [Read.isDone] at hdone
    cases hpc : a.pc with
    | done text =>
      rw [hpc] at hanswer
      exact congrArg some hanswer
    | _ => simp [hpc] at hdone

/-- **What a client reads can be decoded.** After an open that succeeds, any sequence
of reads with room for two bytes each is answered, calls the next deferred entries in
table order, and gets a text that can be decoded; and in every reachable state of a
run whose reads are serialised, so does the text of the reads that have returned. -/
theorem deviceReads_decodes (T : Table) :
    (∀ (s₀ s : State) (sizes : List ℕ), deviceOpen s₀ = (s, 0) → (∀ n ∈ sizes, 2 ≤ n) →
      ∃ s' texts, deviceReads T s₀.files.length sizes s = some (s', texts) ∧
        texts.length = sizes.length ∧
        started s'.log = started s.log ++ (positions T .deferred).take sizes.length ∧
        Decodes T sizes texts) ∧
    ∀ s, Reachable T serialised s → (∀ a ∈ s.reads, 2 ≤ a.nbytes) →
      Decodes T (s.returned.map Read.nbytes) (s.returned.map Read.text) := by
  constructor
  · intro s₀ s sizes hopen hsizes
    have hf : s.files[s₀.files.length]? = some ⟨0, true⟩ := by
      rw [files_of_deviceOpen hopen]
      exact List.getElem?_concat_length
    obtain ⟨s', hreads, hstarted⟩ := deviceReads_eq_some (T := T) sizes hf
    rw [posFrom_zero] at hstarted
    exact ⟨s', _, hreads, length_answers _ _, hstarted, decodes_answers T hsizes⟩
  · intro s hs hsizes
    rw [hs.answersAll.map_text hs.serial]
    refine decodes_answers T fun n hn => ?_
    obtain ⟨a, ha, rfl⟩ := List.mem_map.mp hn
    exact hsizes a (List.mem_filter.mp ha).1

/-- Two reads of `KernelConfiguration.acpiTable`, the first with a short buffer, and
one that the thread comes in between of. -/
theorem deviceReads_decodes_acpiTable :
    (∃ s' texts, deviceReads acpiTable 0 [5, 30] (deviceOpen (asyncInit bootState)).1 =
        some (s', texts) ∧ texts.flatten.splitOn '\n' = ["acpi".toList, []]) ∧
      ∃ s, Reachable acpiTable serialised s ∧ s.returned.map Read.nbytes = [9] ∧
        (s.returned.map Read.text).flatten.splitOn '\n' = ["acpi_pcc".toList, []] := by
  obtain ⟨hclient, hsystem⟩ := deviceReads_decodes acpiTable
  constructor
  · obtain ⟨s', texts, hreads, -, -, hdecodes⟩ :=
      hclient (asyncInit bootState) _ [5, 30] rfl (by decide)
    refine ⟨s', texts, hreads, hdecodes.lines.trans ?_⟩
    decide +kernel
  · obtain ⟨s, hs⟩ : ∃ s, runActions (step acpiTable) serialised (asyncInit bootState)
        [.openDevice, .read 0 9, .resume 0, .thread, .resume 0, .resume 0, .thread, .resume 0,
          .resume 0] = some s := ⟨_, rfl⟩
    have hreach : Reachable acpiTable serialised s := reach_of_runActions hs
    have hsizes : s.returned.map Read.nbytes = [9] ∧ ∀ a ∈ s.reads, 2 ≤ a.nbytes := by
      obtain rfl := Option.some.inj hs
      decide
    have hdecodes := hsystem s hreach hsizes.2
    rw [hsizes.1] at hdecodes
    refine ⟨s, hreach, hsizes.1, hdecodes.lines.trans ?_⟩
    decide +kernel

end KernelConfiguration
