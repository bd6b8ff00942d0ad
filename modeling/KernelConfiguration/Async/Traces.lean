import Mathlib.Data.List.Basic
import Mathlib.Data.List.Infix
import KernelConfiguration.Async.Partition
import KernelConfiguration.Async.Sequential
import KernelConfiguration.Scripts

/-!
# The traces of the driver

What the rest of the kernel sees of the driver is when initcalls start and when they
return. This file says exactly which sequences of these events there are, when the
reads of the device are serialised: the interleavings of two scripts
(`KernelConfiguration.Interleaves`). One script calls the asynchronized entries in
table order, the other the deferred ones, and each of them waits for an initcall to
return before it starts the next.

There are two directions. Every run keeps to the scripts: the place where a consumer
is says how much of its script it has played (`KernelConfiguration.Played`). And
every interleaving, cut off anywhere, is the trace of a run: nothing in the driver
makes one consumer wait for the other, so that whoever has the next event can be
driven to it (`KernelConfiguration.Settled`). No order between an asynchronized and a
deferred initcall can therefore be relied on, and no order within one type can be
broken.
-/

namespace KernelConfiguration

variable {T : Table} {s s' : State} {t : TaskType} {c i j : ℕ} {e : Event} {log : List Event}

/-! ### What is seen, and the scripts -/

/-- Whether an event is the start or the return of an initcall. -/
def Event.isCall : Event → Bool
  | .callStart _ | .callReturn _ => true
  | _ => false

/-- **The trace of a history**: the starts and returns of initcalls, in the order in
which they happened. -/
def visible (log : List Event) : List Event := (log.filter Event.isCall).reverse

/-- The type of the entry whose initcall starts or returns. -/
def Event.consumer (T : Table) : Event → Option TaskType
  | .callStart i | .callReturn i => typeAt T i
  | _ => none

/-- The script that calls some positions one after the other. -/
abbrev callScript (l : List ℕ) : List Event := jobScript .callStart .callReturn l

/-- **The scripts**: the entries of the two types that run are called in table order,
and no others. -/
def consumerScript (T : Table) : Option TaskType → List Event
  | some .asynchronized => callScript (positions T .asynchronized)
  | some .deferred => callScript (positions T .deferred)
  | _ => []

/-- The part of a trace that is about entries of type `t`. -/
def playedBy (T : Table) (t : TaskType) (log : List Event) : List Event :=
  partOf (Event.consumer T) (some t) (visible log)

theorem visible_cons : visible (e :: log) = visible log ++ if e.isCall then [e] else [] := by
  cases h : e.isCall <;> simp [visible, h]

/-- An event that is no call is not seen. -/
theorem playedBy_of_silent (h : e.isCall = false) :
    playedBy T t (e :: log) = playedBy T t log := by
  rw [playedBy, visible_cons, h]
  simp [playedBy]

/-- A call of an entry of another type is not seen. -/
theorem playedBy_of_ne (h : e.consumer T ≠ some t) :
    playedBy T t (e :: log) = playedBy T t log := by
  cases hcall : e.isCall with
  | false => exact playedBy_of_silent hcall
  | true =>
    rw [playedBy, visible_cons, if_pos hcall, partOf_snoc_of_ne h]
    rfl

theorem playedBy_of_eq (hcall : e.isCall) (h : e.consumer T = some t) :
    playedBy T t (e :: log) = playedBy T t log ++ [e] := by
  rw [playedBy, playedBy, visible_cons, if_pos hcall, ← h, partOf_snoc_self]

theorem playedBy_callStart (h : typeAt T i = some t) :
    playedBy T t (.callStart i :: log) = playedBy T t log ++ [.callStart i] :=
  playedBy_of_eq rfl h

theorem playedBy_callReturn (h : typeAt T i = some t) :
    playedBy T t (.callReturn i :: log) = playedBy T t log ++ [.callReturn i] :=
  playedBy_of_eq rfl h

/-- A position that is passed, with its entry called. -/
theorem callScript_succ (h : typeAt T c = some t) :
    callScript (posBelow T t (c + 1)) =
      callScript (posBelow T t c) ++ [.callStart c] ++ [.callReturn c] := by
  rw [posBelow_succ_of_eq h, callScript, jobScript_snoc, List.append_assoc]
  rfl

/-! ### How much has been played -/

/-- What the thread has played of its script. -/
def ThreadPc.played (T : Table) : ThreadPc → List Event
  | .absent => []
  | .loop i | .call i => callScript (posBelow T .asynchronized i)
  | .inCall i => callScript (posBelow T .asynchronized i) ++ [.callStart i]
  | .returned => callScript (positions T .asynchronized)

/-- What the reads have played of theirs, when the cursor is at `c` and the latest
read is where it is. -/
def ReadPc.played (T : Table) (c : ℕ) : ReadPc → List Event
  | .inCall i => callScript (posBelow T .deferred i) ++ [.callStart i]
  | .store i => callScript (posBelow T .deferred (i + 1))
  | _ => callScript (posBelow T .deferred c)

variable (T s) in
/-- **The invariant of the traces.** -/
structure Played : Prop where
  /-- What is seen of the asynchronized entries. -/
  thread : playedBy T .asynchronized s.log = s.thread.played T
  /-- What is seen of the deferred entries. -/
  reads : playedBy T .deferred s.log = s.current.played T s.cursor

theorem ThreadMove.played {pc pc' : ThreadPc} (h : ThreadMove T pc e pc') (hpc : pc.Sound T log)
    (hlog : playedBy T .asynchronized log = pc.played T) :
    playedBy T .asynchronized (e :: log) = pc'.played T := by
  cases h with
  | @leave i hi =>
    obtain rfl : i = T.length := Nat.le_antisymm hpc.1 (List.getElem?_eq_none_iff.mp hi)
    rw [playedBy_of_silent rfl, hlog]
    rfl
  | pick =>
    rw [playedBy_of_silent rfl, hlog]
    rfl
  | @skip i t hi ht =>
    have hne : typeAt T i ≠ some .asynchronized := by
      rw [hi]
      exact fun hcon => ht (Option.some.inj hcon)
    rw [playedBy_of_silent rfl, hlog, ThreadPc.played, ThreadPc.played, posBelow_succ_of_ne hne]
  | start =>
    rw [playedBy_callStart hpc.1, hlog]
    rfl
  | finish =>
    rw [playedBy_callReturn hpc.1.1, hlog, ThreadPc.played, ThreadPc.played,
      callScript_succ hpc.1.1]

/-- The thread is not seen to call deferred entries. -/
theorem ThreadMove.played_deferred {pc pc' : ThreadPc} (h : ThreadMove T pc e pc')
    (hpc : pc.Sound T log) : playedBy T .deferred (e :: log) = playedBy T .deferred log := by
  cases h with
  | start =>
    refine playedBy_of_ne ?_
    rw [Event.consumer, hpc.1]
    simp
  | finish =>
    refine playedBy_of_ne ?_
    rw [Event.consumer, hpc.1.1]
    simp
  | leave | pick | skip => exact playedBy_of_silent rfl

/-- The reads are not seen to call asynchronized entries. -/
theorem ReadMove.played_asynchronized {pc pc' : ReadPc} {es : List Event}
    (h : ReadMove T pc es pc') (hpc : pc.Sound T log) :
    playedBy T .asynchronized (es ++ log) = playedBy T .asynchronized log := by
  cases h with
  | start =>
    refine playedBy_of_ne ?_
    rw [Event.consumer, hpc.1]
    simp
  | finish =>
    refine playedBy_of_ne ?_
    rw [Event.consumer, hpc.1.1]
    simp
  | overrun | leave => rfl
  | skip | pick | free => exact playedBy_of_silent rfl

theorem ReadMove.played {pc pc' : ReadPc} {es : List Event} {called : List ℕ}
    (h : ReadMove T pc es pc') (hpc : pc.Sound T log) (hserial : pc.Serial T c called)
    (hlog : playedBy T .deferred log = pc.played T c) :
    playedBy T .deferred (es ++ log) = pc'.played T c := by
  cases h with
  | skip | pick | free => exact (playedBy_of_silent rfl).trans hlog
  | overrun | leave => exact hlog
  | @start i =>
    -- nothing deferred lies between the cursor and the entry
    change playedBy T .deferred (.callStart i :: log) = _
    rw [playedBy_callStart hpc.1, hlog]
    exact congrArg (callScript · ++ [.callStart i]) hserial.1.symm
  | @finish i =>
    change playedBy T .deferred (.callReturn i :: log) = _
    rw [playedBy_callReturn hpc.1.1, hlog, ReadPc.played, ReadPc.played,
      callScript_succ hpc.1.1]

/-- The latest read goes on. -/
theorem Serial.current_set {u : State} {r : ℕ} {a : Read} {pc : ReadPc} (h : Serial T s)
    (ha : s.reads[r]? = some a) (hd : a.isDone = false)
    (hset : u.reads = s.reads.set r { a with pc := pc }) : s.current = a.pc ∧ u.current = pc := by
  obtain ⟨rs, hrs, rfl⟩ := h.exists_last ha hd
  rw [hrs, set_append_last] at hset
  exact ⟨current_append hrs, current_append hset⟩

/-- The place of a read that has returned says nothing but the cursor. -/
theorem ReadPc.played_of_isDone {a : Read} (h : a.isDone) :
    a.pc.played T c = callScript (posBelow T .deferred c) := by
  rw [Read.isDone] at h
  cases hpc : a.pc with
  | done text => rfl
  | _ => simp [hpc] at h

/-- When no read is under way, the entries below the cursor have been played. -/
theorem played_of_idle (hidle : ∀ a ∈ s.reads, a.isDone) :
    s.current.played T c = callScript (posBelow T .deferred c) := by
  rcases List.eq_nil_or_concat s.reads with hnil | ⟨rs, b, hrs⟩
  · rw [State.current, hnil]
    rfl
  · rw [List.concat_eq_append] at hrs
    rw [current_append hrs]
    exact ReadPc.played_of_isDone (hidle b (by simp [hrs]))

/-- **Every step keeps to the scripts.** -/
theorem Played.step {a : Action} (h : Played T s) (hsound : Sound T s) (hone : OneFile s)
    (hserial : Serial T s) (hok : serialised s a) (hstep : Step T s a s') : Played T s' := by
  cases hstep with
  | thread hmove =>
    refine ⟨hmove.played hsound.thread h.thread, ?_⟩
    rw [hmove.played_deferred hsound.thread]
    exact h.reads
  | openFail => exact h
  | openOk hd =>
    have hf : s.files = [] := by
      rcases hone with ⟨-, hf, -⟩ | ⟨hd', -⟩
      · exact hf
      · exact absurd hd' hd
    have hcursor : ({ s with initDone := 1, files := s.files ++ [⟨0, true⟩] } : State).cursor =
        s.cursor := by simp [State.cursor, hf]
    refine ⟨h.thread, ?_⟩
    rw [hcursor]
    exact h.reads
  | @read f n file hf _ =>
    obtain ⟨rfl, -, hg, hr⟩ := hone.of_file hf
    refine ⟨h.thread, ?_⟩
    rw [current_append rfl]
    exact h.reads.trans (played_of_idle fun a ha => hok a ha (hr a ha))
  | @move r a es pc ha hmove =>
    have hpc := hsound.reads a (List.mem_of_getElem? ha)
    obtain ⟨hcur, hcur'⟩ := hserial.current_set (u := { s with
      reads := s.reads.set r { a with pc := pc }
      log := es ++ s.log }) ha (isDone_eq_false hmove) rfl
    have hcalls := hserial.calls
    have hreads := h.reads
    rw [hcur] at hcalls hreads
    refine ⟨(hmove.played_asynchronized hpc).trans h.thread, ?_⟩
    rw [hcur']
    exact hmove.played hpc hcalls hreads
  | @store r a i e ha hpc he =>
    obtain ⟨-, ⟨g, hg⟩, hr⟩ := hone.of_read ha
    have ha0 : a.file = 0 := hr a (List.mem_of_getElem? ha)
    obtain ⟨hcur, hcur'⟩ := hserial.current_set (u := { s with
      reads := s.reads.set r { a with pc := .done (readText (getName e.id).toList a.nbytes) }
      files := s.files.modify a.file fun f => { f with privateData := i + 1 }
      log := .loadId i :: s.log }) ha (by simp [Read.isDone, hpc]) rfl
    have hreads := h.reads
    rw [hcur, hpc] at hreads
    refine ⟨(playedBy_of_silent rfl).trans h.thread, ?_⟩
    rw [hcur']
    refine (playedBy_of_silent rfl).trans (hreads.trans ?_)
    -- the cursor moves to where the call already is
    simp [State.cursor, hg, ha0, ReadPc.played]
  | @decRef r a ha hpc =>
    obtain ⟨hcur, hcur'⟩ := hserial.current_set (u := { s with
      freeInitRef := s.freeInitRef - 1
      reads := s.reads.set r { a with pc := if s.freeInitRef - 1 = 0 then .free else .done [] }
      log := .decRef :: s.log }) ha (by simp [Read.isDone, hpc]) rfl
    have hreads := h.reads
    rw [hcur, hpc] at hreads
    refine ⟨(playedBy_of_silent rfl).trans h.thread, ?_⟩
    rw [hcur']
    refine (playedBy_of_silent rfl).trans (hreads.trans ?_)
    split <;> rfl
  | @close f file hf _ _ =>
    obtain ⟨rfl, -, hg, -⟩ := hone.of_file hf
    refine ⟨h.thread, h.reads.trans ?_⟩
    simp only [State.cursor, hg]
    rfl

/-- **Every run whose reads are serialised keeps to the scripts.** -/
theorem Reach.played (h : Reachable T serialised s) : Played T s := by
  refine (h.invariant (I := fun s => Reachable T serialised s ∧ Played T s)
    ⟨.refl, rfl, rfl⟩ ?_).2
  rintro s a s' ⟨hs, hplayed⟩ hok hnext
  exact ⟨hs.step a hok hnext, hplayed.step hs.sound hs.oneFile hs.serial hok (step_cases hnext)⟩

/-! ### Every trace interleaves the scripts -/

/-- Nothing is seen but calls of the two types that run. -/
theorem Sound.consumer_of_visible (h : Sound T s) (he : e ∈ visible s.log) :
    e.consumer T = some .asynchronized ∨ e.consumer T = some .deferred := by
  rw [visible, List.mem_reverse, List.mem_filter] at he
  cases e with
  | callStart i => exact h.typeAt_of_started (mem_started.mpr he.1)
  | callReturn i => exact h.typeAt_of_started (h.mem_started_of_return he.1)
  | _ => simp [Event.isCall] at he

/-- The calls of the positions below some place are the beginning of the script. -/
theorem callScript_posBelow (h : c ≤ T.length) :
    callScript (posBelow T t c) <+: callScript (positions T t) := by
  have hpre : posBelow T t c <+: positions T t := posBelow_prefix h
  exact jobScript_prefix hpre

/-- What has been played of a script is the beginning of it. -/
theorem ThreadPc.played_prefix {pc : ThreadPc} (h : pc.Sound T log) :
    pc.played T <+: callScript (positions T .asynchronized) := by
  cases pc with
  | absent => exact List.nil_prefix
  | loop i => exact callScript_posBelow h.1
  | call i => exact callScript_posBelow (Nat.le_of_lt (lt_length_of_typeAt h.1))
  | inCall i =>
    refine List.IsPrefix.trans ?_ (callScript_posBelow (lt_length_of_typeAt h.1.1))
    rw [callScript_succ h.1.1]
    exact List.prefix_append _ _
  | returned => exact List.prefix_refl _

theorem ReadPc.played_prefix {pc : ReadPc} (h : pc.Sound T log) (hc : c ≤ T.length) :
    pc.played T c <+: callScript (positions T .deferred) := by
  cases pc with
  | inCall i =>
    refine List.IsPrefix.trans ?_ (callScript_posBelow (lt_length_of_typeAt h.1.1))
    rw [callScript_succ h.1.1]
    exact List.prefix_append _ _
  | store i => exact callScript_posBelow (lt_length_of_typeAt h.1)
  | _ => exact callScript_posBelow hc

/-- The cursor is in the table, and so is the latest read. -/
theorem Reach.cursor_current {ok : State → Action → Prop} (h : Reachable T ok s) :
    s.cursor ≤ T.length ∧ s.current.Sound T s.log := by
  constructor
  · rcases h.oneFile with ⟨-, hf, -⟩ | ⟨-, ⟨g, hg⟩, -⟩
    · simp [State.cursor, hf]
    · rw [cursor_of_files hg]
      exact (h.sound.files g (by simp [hg])).1
  · rcases List.eq_nil_or_concat s.reads with hnil | ⟨rs, b, hrs⟩
    · rw [State.current, hnil]
      trivial
    · rw [List.concat_eq_append] at hrs
      rw [current_append hrs]
      exact h.sound.reads b (by simp [hrs])

theorem Reach.interleaves (h : Reachable T serialised s) :
    Interleaves (Event.consumer T) (consumerScript T) (visible s.log) := by
  obtain ⟨hthread, hreads⟩ := h.played
  obtain ⟨hcursor, hcurrent⟩ := h.cursor_current
  intro w
  by_cases hasync : w = some .asynchronized
  · subst hasync
    change playedBy T .asynchronized s.log <+: _
    rw [hthread]
    exact ThreadPc.played_prefix h.sound.thread
  · by_cases hdef : w = some .deferred
    · subst hdef
      change playedBy T .deferred s.log <+: _
      rw [hreads]
      exact ReadPc.played_prefix hcurrent hcursor
    · have hnil : partOf (Event.consumer T) w (visible s.log) = [] := by
        refine List.filter_eq_nil_iff.mpr fun e he hw => ?_
        obtain rfl : e.consumer T = w := by simpa using hw
        rcases h.sound.consumer_of_visible he with hcon | hcon
        · exact hasync hcon
        · exact hdef hcon
      rw [hnil]
      exact List.nil_prefix

/-! ### Every interleaving is a trace -/

/-- What comes next in a script is the next position of its type. -/
theorem next_position (h : posBelow T t c ++ [j] <+: positions T t) :
    c ≤ j ∧ typeAt T j = some t ∧ ∀ k, c ≤ k → k < j → typeAt T k ≠ some t := by
  obtain ⟨hlt, htype⟩ := mem_posBelow.mp (h.subset (List.mem_append_right _ (.head _)))
  have hle : c ≤ j := by
    by_contra hcon
    have hmem : j ∈ posBelow T t c := mem_posBelow.mpr ⟨Nat.not_le.mp hcon, htype⟩
    have hnodup := h.sublist.nodup nodup_posBelow
    exact List.disjoint_of_nodup_append hnodup hmem (.head _)
  refine ⟨hle, htype, fun k hk hkj hcon => ?_⟩
  -- the positions between the cursor and the next one would come before it
  have hself : posBelow T t j ++ [j] <+: positions T t := by
    rw [← posBelow_succ_of_eq htype]
    exact posBelow_prefix hlt
  obtain ⟨tail, htail⟩ := h
  obtain ⟨between, hbetween⟩ := posBelow_prefix (T := T) (t := t) hle
  rw [← hbetween, ← htail, List.append_assoc, List.append_assoc,
    List.prefix_append_right_inj] at hself
  have hmem : k ∈ posBelow T t j := mem_posBelow.mpr ⟨hkj, hcon⟩
  rw [← hbetween, List.mem_append, mem_posBelow] at hmem
  cases between with
  | nil => exact absurd (hmem.resolve_right (List.not_mem_nil)).1 (Nat.not_lt.mpr hk)
  | cons k' between =>
    obtain rfl : k' = j := (List.cons_prefix_cons.mp hself).1
    have hmem' : k' ∈ posBelow T t k' := by
      rw [← hbetween]
      exact List.mem_append_right _ (.head _)
    exact absurd (mem_posBelow.mp hmem').1 (Nat.lt_irrefl k')

/-- The thread passes over the entries that are not its own. -/
theorem reach_loop (hcj : c ≤ j) (hj : j ≤ T.length)
    (hskip : ∀ k, c ≤ k → k < j → typeAt T k ≠ some .asynchronized) (hs : s.thread = .loop c) :
    ∃ log, visible log = visible s.log ∧
      Reach (step T) serialised s { s with thread := .loop j, log := log } := by
  induction j, hcj using Nat.le_induction with
  | base => exact ⟨s.log, rfl, by rw [← hs]; exact .refl⟩
  | succ m hm ih =>
    obtain ⟨log, hlog, hrun⟩ := ih (Nat.le_of_succ_le hj) fun k hk hkm => hskip k hk (by omega)
    have he := List.getElem?_eq_getElem (l := T) (i := m) hj
    have ht : (initInfo (T[m]).id).type ≠ .asynchronized := fun hcon =>
      hskip m hm (Nat.lt_succ_self m) (by rw [typeAt_eq_some he, hcon])
    refine ⟨.loadId m :: log, ?_, hrun.step .thread trivial ?_⟩
    · rw [visible_cons, hlog]
      exact List.append_nil _
    · simp [step, stepThread, he, ht]

/-- A read passes over the entries that are not deferred. -/
theorem reach_scan {f n : ℕ} (hcj : c ≤ j) (hj : j ≤ T.length)
    (hskip : ∀ k, c ≤ k → k < j → typeAt T k ≠ some .deferred) :
    ∃ log, visible log = visible s.log ∧
      Reach (step T) serialised (s.withRead ⟨f, n, .scan c⟩)
        ({ s with log := log }.withRead ⟨f, n, .scan j⟩) := by
  induction j, hcj using Nat.le_induction with
  | base => exact ⟨s.log, rfl, .refl⟩
  | succ m hm ih =>
    obtain ⟨log, hlog, hrun⟩ := ih (Nat.le_of_succ_le hj) fun k hk hkm => hskip k hk (by omega)
    have he := List.getElem?_eq_getElem (l := T) (i := m) hj
    have ht : (initInfo (T[m]).id).type ≠ .deferred := fun hcon =>
      hskip m hm (Nat.lt_succ_self m) (by rw [typeAt_eq_some he, hcon])
    refine ⟨.loadId m :: log, ?_, hrun.step (.resume s.reads.length) trivial ?_⟩
    · rw [visible_cons, hlog]
      exact List.append_nil _
    · rw [step_withRead (s := { s with log := log })]
      simp [stepRead, he, ht, State.emit, State.goto, State.withRead]

variable (s) in
/-- **The states from which whoever has the next event can be driven to it**: a client
holds the file, the thread is at its loop or inside an initcall, and so is the latest
read, if it is under way. -/
structure Settled : Prop where
  /-- The file is open. -/
  file : ∃ c, s.files = [⟨c, true⟩]
  /-- The thread has not returned, and is not about to call. -/
  thread : ∃ i, s.thread = .loop i ∨ s.thread = .inCall i
  /-- No read is under way, or the latest one is inside its initcall. -/
  reads : (∀ a ∈ s.reads, a.isDone) ∨
    ∃ rs n i, s.reads = rs ++ [⟨0, n, .inCall i⟩] ∧ ∀ a ∈ rs, a.isDone

/-- The next event of the thread. -/
theorem Settled.thread_step (h : Settled s) (hs : Reachable T serialised s)
    (he : playedBy T .asynchronized s.log ++ [e] <+: callScript (positions T .asynchronized)) :
    ∃ s', Reach (step T) serialised s s' ∧ Settled s' ∧ visible s'.log = visible s.log ++ [e] := by
  rw [hs.played.thread] at he
  have hsound := hs.sound.thread
  obtain ⟨i, hi | hi⟩ := h.thread
  · -- the loop goes on to the next entry of the thread, which is called
    rw [hi] at he hsound
    have hpre : posBelow T .asynchronized i <+: positions T .asynchronized :=
      posBelow_prefix hsound.1
    obtain ⟨j, rfl, hj⟩ := exists_start_of_prefix hpre he
    obtain ⟨hle, htype, hskip⟩ := next_position hj
    have hlt := lt_length_of_typeAt htype
    obtain ⟨log, hlog, hrun⟩ := reach_loop hle (Nat.le_of_lt hlt) hskip hi
    have hget := List.getElem?_eq_getElem hlt
    have ht : (initInfo (T[j]).id).type = .asynchronized := by
      rw [typeAt_eq_some hget] at htype
      exact Option.some.inj htype
    have h₁ : step T { s with thread := .loop j, log := log } .thread =
        some { s with thread := .call j, log := .loadId j :: log } := by
      simp [step, stepThread, hget, ht]
    have h₂ : step T { s with thread := .call j, log := .loadId j :: log } .thread =
        some { s with thread := .inCall j, log := .callStart j :: .loadId j :: log } := rfl
    refine ⟨_, (hrun.step Action.thread trivial h₁).step Action.thread trivial h₂,
      ⟨h.file, ⟨j, Or.inr rfl⟩, h.reads⟩, ?_⟩
    rw [← hlog]
    simp [visible_cons, Event.isCall]
  · -- the initcall returns
    rw [hi] at he hsound
    have hj : posBelow T .asynchronized i ++ [i] <+: positions T .asynchronized := by
      rw [← posBelow_succ_of_eq hsound.1.1]
      exact posBelow_prefix (lt_length_of_typeAt hsound.1.1)
    obtain rfl := eq_finish_of_prefix hj he
    have h₁ : step T s .thread =
        some { s with thread := .loop (i + 1), log := .callReturn i :: s.log } := by
      simp [step, stepThread, hi]
    refine ⟨_, Reach.refl.step .thread trivial h₁,
      ⟨h.file, ⟨i + 1, Or.inl rfl⟩, h.reads⟩, ?_⟩
    simp [visible_cons, Event.isCall]

/-- The next event of the reads. -/
theorem Settled.read_step (h : Settled s) (hs : Reachable T serialised s)
    (he : playedBy T .deferred s.log ++ [e] <+: callScript (positions T .deferred)) :
    ∃ s', Reach (step T) serialised s s' ∧ Settled s' ∧ visible s'.log = visible s.log ++ [e] := by
  rw [hs.played.reads] at he
  obtain ⟨c, hfile⟩ := h.file
  rcases h.reads with hidle | ⟨rs, n, i, hrs, hdone⟩
  · -- a new read is called, which scans to the next deferred entry and calls it
    have hc : c ≤ T.length := (hs.sound.files ⟨c, true⟩ (by simp [hfile])).1
    rw [played_of_idle hidle, cursor_of_files hfile] at he
    have hpre : posBelow T .deferred c <+: positions T .deferred := posBelow_prefix hc
    obtain ⟨j, rfl, hj⟩ := exists_start_of_prefix hpre he
    obtain ⟨hle, htype, hskip⟩ := next_position hj
    have hlt := lt_length_of_typeAt htype
    have hread : step T s (.read 0 1) = some (s.withRead ⟨0, 1, .scan c⟩) :=
      step_read (show s.files[0]? = some ⟨c, true⟩ by simp [hfile]) rfl
    obtain ⟨log, hlog, hrun⟩ := reach_scan (s := s) (f := 0) (n := 1) hle (Nat.le_of_lt hlt) hskip
    have hget := List.getElem?_eq_getElem hlt
    have ht : (initInfo (T[j]).id).type = .deferred := by
      rw [typeAt_eq_some hget] at htype
      exact Option.some.inj htype
    have h₁ : step T ({ s with log := log }.withRead ⟨0, 1, .scan j⟩) (.resume s.reads.length) =
        some ({ s with log := .loadId j :: log }.withRead ⟨0, 1, .call j⟩) := by
      rw [step_withRead (s := { s with log := log })]
      simp [stepRead, hget, ht, State.emit, State.goto, State.withRead]
    have h₂ : step T ({ s with log := .loadId j :: log }.withRead ⟨0, 1, .call j⟩)
        (.resume s.reads.length) =
        some ({ s with log := .callStart j :: .loadId j :: log }.withRead ⟨0, 1, .inCall j⟩) := by
      rw [step_withRead (s := { s with log := .loadId j :: log })]
      simp [stepRead, State.emit, State.goto, State.withRead]
    have hstart := (Reach.refl.step (.read 0 1) (fun a ha _ => hidle a ha) hread).trans hrun
    refine ⟨_, (hstart.step (Action.resume _) trivial h₁).step (Action.resume _) trivial h₂,
      ⟨⟨c, hfile⟩, h.thread, Or.inr ⟨s.reads, 1, j, rfl, hidle⟩⟩, ?_⟩
    rw [← hlog]
    simp [State.withRead, visible_cons, Event.isCall]
  · -- the initcall returns, and the read stores its cursor at once
    have hsound := hs.sound.reads ⟨0, n, .inCall i⟩ (by simp [hrs])
    rw [current_append hrs] at he
    have hj : posBelow T .deferred i ++ [i] <+: positions T .deferred := by
      rw [← posBelow_succ_of_eq hsound.1.1]
      exact posBelow_prefix (lt_length_of_typeAt hsound.1.1)
    obtain rfl := eq_finish_of_prefix hj he
    have hlt := lt_length_of_typeAt hsound.1.1
    have hget := List.getElem?_eq_getElem hlt
    have hs₀ : s = { s with reads := rs }.withRead ⟨0, n, .inCall i⟩ := by
      rw [State.withRead, ← hrs]
    have h₁ : step T s (.resume rs.length) =
        some ({ s with reads := rs, log := .callReturn i :: s.log }.withRead
          ⟨0, n, .store i⟩) := by
      rw [hs₀, step_withRead (s := { s with reads := rs })]
      simp [stepRead, State.emit, State.goto, State.withRead]
    have h₂ : step T ({ s with reads := rs, log := .callReturn i :: s.log }.withRead
        ⟨0, n, .store i⟩) (.resume rs.length) =
        some ({ s with
          files := [⟨i + 1, true⟩]
          reads := rs
          log := .loadId i :: .callReturn i :: s.log }.withRead
            ⟨0, n, .done (readText (getName (T[i]).id).toList n)⟩) := by
      rw [step_withRead (s := { s with reads := rs, log := .callReturn i :: s.log })]
      simp [stepRead, hget, hfile, State.emit, State.goto, State.withRead]
    refine ⟨_, (Reach.refl.step (Action.resume _) trivial h₁).step (Action.resume _) trivial h₂,
      ⟨⟨i + 1, rfl⟩, h.thread, Or.inl (forall_mem_snoc hdone rfl)⟩, ?_⟩
    simp [State.withRead, visible_cons, Event.isCall]

/-- **The traces of the driver are the interleavings of its two scripts**, when the
reads are serialised: what is seen of the asynchronized entries is the beginning of
their calls in table order, one after the other, and so for the deferred entries; and
every way to interleave two such beginnings is the trace of a run. -/
theorem traces_iff_interleaves (h : List Event) :
    (∃ s, Reachable T serialised s ∧ visible s.log = h) ↔
      Interleaves (Event.consumer T) (consumerScript T) h := by
  constructor
  · rintro ⟨s, hs, rfl⟩
    exact hs.interleaves
  · intro hint
    -- the run opens the device first
    have hopen : Reachable T serialised (deviceOpen (asyncInit bootState)).1 :=
      Reach.refl.step .openDevice trivial rfl
    have hsettled : Settled (deviceOpen (asyncInit bootState)).1 :=
      ⟨⟨0, rfl⟩, ⟨0, Or.inl rfl⟩, Or.inl (by simp [deviceOpen, asyncInit, bootState])⟩
    refine (Reach.realises (fun s => visible s.log) hsettled ?_
      (reach_play_iff.mpr hint)).imp fun s hs => ⟨hopen.trans hs.1, hs.2.2⟩
    intro s e t hs hR _ hplay
    have hs' := hopen.trans hs
    rw [play] at hplay
    split at hplay
    case isFalse => exact absurd hplay.symm (Option.some_ne_none t)
    case isTrue hnext =>
      rw [← Option.some.inj hplay]
      generalize hw : e.consumer T = w at hnext
      by_cases hasync : w = some .asynchronized
      · subst hasync
        exact hR.thread_step hs' hnext
      · by_cases hdef : w = some .deferred
        · subst hdef
          exact hR.read_step hs' hnext
        · -- nobody plays the other entries
          have hnil : consumerScript T w = [] := by
            rcases w with - | ⟨- | - | -⟩ <;> simp_all [consumerScript]
          simp [hnil] at hnext

end KernelConfiguration
