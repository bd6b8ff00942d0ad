import Mathlib.Data.List.Basic
import KernelConfiguration.Depends.Scanner
import KernelConfiguration.Runs

/-!
# The scanner works in place

The scanner looks up to three characters ahead, moves its cursor by one, three or
four, and writes NULs into the buffer it is still reading. Whether that stays
inside the line is a matter of what it has seen before it looks further: a
character is only looked at when the one before it was none of the terminator,
and only what is not the terminator is overwritten and stepped over.

Here the loop is taken round by round, on any line at all. A round reads and
writes the indices listed by `KernelConfiguration.Scanner.accesses`; the list is
complete, since a round fails exactly when one of them is outside the buffer
(`KernelConfiguration.next_eq_none_iff`) and changes nothing else
(`KernelConfiguration.getElem?_of_next`). What a round keeps is
`KernelConfiguration.InPlace`: from the cursor on the buffer is the line, the
current name is a slice of the line, and the names pushed are slices of it that
lie one behind the other, each closed by a NUL. It follows that no round leaves
the line, and that the pointers pushed are still good at the end
(`KernelConfiguration.scan_inPlace`).
-/

namespace KernelConfiguration

/-! ### Rounds -/

/-- **One round of the loop**, if the cursor is not at a NUL. -/
def Scanner.next (s : Scanner) : Option Scanner := do
  let c ← s.cline[s.pos]?
  if c = nul then none else s.step c

/-- **How far a round looks ahead** of the cursor: behind a `.` at which a name ends,
up to the first character that rules out `.ko`. -/
def Scanner.ahead (s : Scanner) : ℕ :=
  if s.key ≠ none ∧ s.cline[s.pos]? = some '.' then
    if s.cline[s.pos + 1]? = some 'k' then if s.cline[s.pos + 2]? = some 'o' then 3 else 2 else 1
  else 0

/-- **The indices a round reads or writes.** If a round writes, it is at the last of
them. -/
def Scanner.accesses (s : Scanner) : List ℕ := List.range' s.pos (s.ahead + 1)

/-- The states of the loop on a given buffer. -/
abbrev Scanning (cline : List Char) : Scanner → Prop :=
  Reach (fun s (_ : Unit) => s.next) (fun _ _ => True) ⟨cline, 0, none, []⟩

variable {s s' : Scanner} {line stale : List Char}

/-- A round that does not end a name looks at the cursor only. -/
theorem step_of_not_dot {c : Char} (h : ¬(s.key ≠ none ∧ c = '.')) :
    ∃ key, s.step c = some { s with key := key, pos := s.pos + 1 } := by
  rw [Scanner.step]
  by_cases hwait : s.key = none ∧ ¬c.isAlpha
  · exact ⟨s.key, by rw [if_pos hwait]⟩
  · rw [if_neg hwait]
    by_cases hslash : c = '/'
    · exact ⟨_, by rw [if_pos hslash]⟩
    · have hdot : c ≠ '.' := by
        rintro rfl
        refine h ⟨fun hkey => hwait ⟨hkey, by decide⟩, rfl⟩
      exact ⟨_, by rw [if_neg hslash, if_neg hdot]⟩

/-- The last character behind `.ko` is what may be overwritten. -/
theorem step_dot_ko_spec (hkey : s.key ≠ none) (h₁ : s.cline[s.pos + 1]? = some 'k')
    (h₂ : s.cline[s.pos + 2]? = some 'o') :
    s.step '.' = none ∧ s.cline.length ≤ s.pos + 3 ∨
      ∃ s', s.step '.' = some s' ∧ s.pos + 3 < s.cline.length ∧
        (s'.cline = s.cline ∨ s'.cline = s.cline.set (s.pos + 3) nul) := by
  cases h₃ : s.cline[s.pos + 3]? with
  | none =>
    have hstep : s.step '.' = none := by simp [Scanner.step, hkey, h₁, h₂, h₃]
    exact Or.inl ⟨hstep, List.getElem?_eq_none_iff.mp h₃⟩
  | some d =>
    have hin := (List.getElem?_eq_some_iff.mp h₃).1
    by_cases hd : d = nul
    · have hstep : s.step '.' = some { s with
          key := none, keys := s.keys ++ [s.key.getD s.pos], pos := s.pos + 3 } := by
        simp [Scanner.step, hkey, h₁, h₂, h₃, hd]
      exact Or.inr ⟨_, hstep, hin, Or.inl rfl⟩
    · have hstep : s.step '.' = some
          ⟨s.cline.set (s.pos + 3) nul, s.pos + 4, none, s.keys ++ [s.key.getD s.pos]⟩ := by
        simp [Scanner.step, hkey, h₁, h₂, h₃, hd]
      exact Or.inr ⟨_, hstep, hin, Or.inr rfl⟩

/-- A `.` behind a name has up to three characters looked at, each only if the one
before allows it. -/
theorem step_dot_spec (hkey : s.key ≠ none) (hc : s.cline[s.pos]? = some '.') :
    s.step '.' = none ∧ s.cline.length ≤ s.pos + s.ahead ∨
      ∃ s', s.step '.' = some s' ∧ s.pos + s.ahead < s.cline.length ∧
        (s'.cline = s.cline ∨ s'.cline = s.cline.set (s.pos + s.ahead) nul) := by
  by_cases h₁ : s.cline[s.pos + 1]? = some 'k'
  · by_cases h₂ : s.cline[s.pos + 2]? = some 'o'
    · have hahead : s.ahead = 3 := by simp [Scanner.ahead, hkey, hc, h₁, h₂]
      rw [hahead]
      exact step_dot_ko_spec hkey h₁ h₂
    · have hahead : s.ahead = 2 := by simp [Scanner.ahead, hkey, hc, h₁, h₂]
      rw [hahead]
      cases hb : s.cline[s.pos + 2]? with
      | none =>
        have hstep : s.step '.' = none := by simp [Scanner.step, hkey, h₁, hb]
        exact Or.inl ⟨hstep, List.getElem?_eq_none_iff.mp hb⟩
      | some b =>
        have hne : b ≠ 'o' := fun heq => h₂ (heq ▸ hb)
        have hstep : s.step '.' = some { s with key := none, pos := s.pos + 1 } := by
          simp [Scanner.step, hkey, h₁, hb, hne]
        exact Or.inr ⟨_, hstep, (List.getElem?_eq_some_iff.mp hb).1, Or.inl rfl⟩
  · have hahead : s.ahead = 1 := by simp [Scanner.ahead, hkey, hc, h₁]
    rw [hahead]
    cases ha : s.cline[s.pos + 1]? with
    | none =>
      have hstep : s.step '.' = none := by simp [Scanner.step, hkey, ha]
      exact Or.inl ⟨hstep, List.getElem?_eq_none_iff.mp ha⟩
    | some a =>
      have hne : a ≠ 'k' := fun heq => h₁ (heq ▸ ha)
      have hstep : s.step '.' = some { s with key := none, pos := s.pos + 1 } := by
        simp [Scanner.step, hkey, ha, hne]
      exact Or.inr ⟨_, hstep, (List.getElem?_eq_some_iff.mp ha).1, Or.inl rfl⟩

/-- **What a round does**: it fails when the last index it looks at is outside the
buffer, and if it writes, it writes a NUL there. -/
theorem next_spec {c : Char} (hc : s.cline[s.pos]? = some c) (hnul : c ≠ nul) :
    s.next = none ∧ s.cline.length ≤ s.pos + s.ahead ∨
      ∃ s', s.next = some s' ∧ s.pos + s.ahead < s.cline.length ∧
        (s'.cline = s.cline ∨ s'.cline = s.cline.set (s.pos + s.ahead) nul) := by
  have hnext : s.next = s.step c := by simp [Scanner.next, hc, hnul]
  rw [hnext]
  by_cases hdot : s.key ≠ none ∧ c = '.'
  · obtain ⟨hkey, rfl⟩ := hdot
    exact step_dot_spec hkey hc
  · have hahead : s.ahead = 0 := by
      refine if_neg fun h => hdot ⟨h.1, ?_⟩
      rw [hc, Option.some.injEq] at h
      exact h.2
    obtain ⟨key, hstep⟩ := step_of_not_dot hdot
    rw [hahead]
    exact Or.inr ⟨_, hstep, (List.getElem?_eq_some_iff.mp hc).1, Or.inl rfl⟩

theorem mem_accesses {i : ℕ} : i ∈ s.accesses ↔ s.pos ≤ i ∧ i ≤ s.pos + s.ahead := by
  rw [Scanner.accesses, List.mem_range'_1]
  omega

/-- **The indices listed are those that are looked at**: a round that does not end
the loop fails exactly when one of them is outside the buffer. -/
theorem next_eq_none_iff :
    s.next = none ↔ s.cline[s.pos]? = some nul ∨ ∃ i ∈ s.accesses, s.cline.length ≤ i := by
  have hlast : (∃ i ∈ s.accesses, s.cline.length ≤ i) ↔ s.cline.length ≤ s.pos + s.ahead := by
    constructor
    · rintro ⟨i, hi, hle⟩
      exact hle.trans (mem_accesses.mp hi).2
    · exact fun hle => ⟨_, mem_accesses.mpr ⟨Nat.le_add_right _ _, Nat.le_refl _⟩, hle⟩
  rw [hlast]
  cases hc : s.cline[s.pos]? with
  | none =>
    have hout := List.getElem?_eq_none_iff.mp hc
    exact iff_of_true (by simp [Scanner.next, hc]) (Or.inr (Nat.le_add_right_of_le hout))
  | some c =>
    by_cases hnul : c = nul
    · exact iff_of_true (by simp [Scanner.next, hc, hnul]) (Or.inl (congrArg some hnul))
    · rcases next_spec hc hnul with ⟨hnext, hout⟩ | ⟨s', hnext, hin, -⟩
      · exact iff_of_true hnext (Or.inr hout)
      · refine iff_of_false (by simp [hnext]) ?_
        rintro (hcon | hcon)
        · exact hnul (Option.some.inj hcon)
        · exact absurd hin (Nat.not_lt.mpr hcon)

/-- What is not listed is not written. -/
theorem getElem?_of_next (h : s.next = some s') {i : ℕ} (hi : i ∉ s.accesses) :
    s'.cline[i]? = s.cline[i]? := by
  obtain ⟨c, hc, hstep⟩ := Option.bind_eq_some_iff.mp h
  have hnul : c ≠ nul := by
    rintro rfl
    simp at hstep
  rcases next_spec hc hnul with ⟨hnext, -⟩ | ⟨t, hnext, -, hcline⟩
  · simp [h] at hnext
  · obtain rfl := Option.some.inj (h.symm.trans hnext)
    rcases hcline with heq | heq
    · rw [heq]
    · rw [heq]
      refine List.getElem?_set_ne fun hcon => hi (mem_accesses.mpr ?_)
      exact ⟨hcon ▸ Nat.le_add_right _ _, hcon.symm.le⟩

/-- The loop goes through its states to one at which the cursor is at a NUL. -/
theorem scanning_of_scanLoop (fuel : ℕ) : ∀ {s : Scanner}, scanLoop fuel s = some s' →
    Reach (fun s (_ : Unit) => s.next) (fun _ _ => True) s s' ∧ s'.cline[s'.pos]? = some nul := by
  induction fuel with
  | zero => exact nofun
  | succ fuel ih =>
    intro s h
    rw [scanLoop] at h
    obtain ⟨c, hc, h⟩ := Option.bind_eq_some_iff.mp h
    by_cases hnul : c = nul
    · obtain rfl : s = s' := by simpa [hnul] using h
      exact ⟨.refl, hnul ▸ hc⟩
    · rw [if_neg hnul] at h
      obtain ⟨t, ht, h⟩ := Option.bind_eq_some_iff.mp h
      have hnext : s.next = some t := by simp [Scanner.next, hc, hnul, ht]
      obtain ⟨hreach, hend⟩ := ih h
      exact ⟨(Reach.refl.step () trivial hnext).trans hreach, hend⟩

/-! ### What a round keeps -/

/-- The name of a module file: one component of a path, with no `.` before the
extension. -/
def IsKoName (name : List Char) : Prop :=
  ∃ base, name = base ++ ['.', 'k', 'o'] ∧ '/' ∉ base ∧ '.' ∉ base

/-- A pointer and a name are those of a slice of the line, still readable in the
buffer. -/
def IsSlice (line cline : List Char) (x : ℕ × List Char) : Prop :=
  IsKoName x.2 ∧ x.2 <+: line.drop x.1 ∧ Sealed cline x.1 x.2

/-- One slice ends before the other begins. -/
def EndsBefore (x y : ℕ × List Char) : Prop := x.1 + x.2.length ≤ y.1

/-- **The invariant of the loop**, with the part of the line behind the cursor, what
the buffer now holds there, the part of the line before it, and the names
pushed. -/
structure InPlace (line stale : List Char) (s : Scanner) (done pre text : List Char)
    (names : List (ℕ × List Char)) : Prop where
  /-- The line. -/
  line_eq : line = done ++ text
  /-- The buffer. -/
  cline_eq : s.cline = pre ++ (text ++ nul :: stale)
  /-- Where the cursor is, in the buffer. -/
  pos_eq : s.pos = pre.length
  /-- Where the cursor is, in the line. -/
  done_length : done.length = pre.length
  /-- The current name is a slice of the line, and is what its pointer points to. -/
  key : ∀ i ∈ s.key, ∃ name, KeyAt pre (some i) (some name) ∧ done.drop i = name ∧
    '/' ∉ name ∧ '.' ∉ name
  /-- The pointers pushed. -/
  keys_eq : s.keys = names.map Prod.fst
  /-- They point to slices of the line. -/
  slices : ∀ x ∈ names, IsSlice line s.cline x
  /-- The slices lie one behind the other. -/
  ordered : names.Pairwise EndsBefore
  /-- The current name, or the next one, lies behind them. -/
  behind : ∀ x ∈ names, x.1 + x.2.length ≤ s.key.getD s.pos

variable {done pre text : List Char} {names : List (ℕ × List Char)} {c : Char} {key : Option ℕ}

theorem inPlace_start (line stale : List Char) :
    InPlace line stale ⟨line ++ nul :: stale, 0, none, []⟩ [] [] line [] where
  line_eq := rfl
  cline_eq := rfl
  pos_eq := rfl
  done_length := rfl
  key := nofun
  keys_eq := rfl
  slices := nofun
  ordered := .nil
  behind := nofun

theorem InPlace.getElem? (h : InPlace line stale s done pre text names) (k : ℕ) :
    s.cline[s.pos + k]? = (text ++ nul :: stale)[k]? := by
  rw [h.cline_eq, h.pos_eq, getElem?_behind]

/-- A character that is not the terminator is inside the line. -/
theorem lt_length_of_ne_nul {k : ℕ} (hk : k ≤ text.length)
    (hc : (text ++ nul :: stale)[k]? = some c) (hne : c ≠ nul) : k < text.length := by
  refine Nat.lt_of_le_of_ne hk ?_
  rintro rfl
  rw [List.getElem?_append_right (Nat.le_refl _), Nat.sub_self, List.getElem?_cons_zero,
    Option.some.injEq] at hc
  exact hne hc.symm

/-- **A round does not look beyond the terminator of the line.** -/
theorem InPlace.ahead_le (h : InPlace line stale s done pre text names) :
    s.ahead ≤ text.length := by
  have h₀ := h.getElem? 0
  rw [Scanner.ahead]
  split
  next hdot =>
    have hlt := lt_length_of_ne_nul (Nat.zero_le _) (h₀.symm.trans hdot.2) (by decide)
    split
    next hk =>
      have hlt₁ := lt_length_of_ne_nul hlt ((h.getElem? 1).symm.trans hk) (by decide)
      split
      next ho => exact lt_length_of_ne_nul hlt₁ ((h.getElem? 2).symm.trans ho) (by decide)
      next => exact hlt₁
    next => exact hlt
  next => exact Nat.zero_le _

/-- A round that passes one character. -/
theorem InPlace.pass (h : InPlace line stale s done pre (c :: text) names) (key : Option ℕ)
    (hkey : ∀ i ∈ key, ∃ name, KeyAt (pre ++ [c]) (some i) (some name) ∧
      (done ++ [c]).drop i = name ∧ '/' ∉ name ∧ '.' ∉ name)
    (hbehind : s.key.getD s.pos ≤ key.getD (s.pos + 1)) :
    InPlace line stale { s with key := key, pos := s.pos + 1 } (done ++ [c]) (pre ++ [c]) text
      names where
  line_eq := by rw [h.line_eq, List.append_assoc]; rfl
  cline_eq := by rw [h.cline_eq, List.append_assoc]; rfl
  pos_eq := by rw [h.pos_eq, List.length_append]; rfl
  done_length := by rw [List.length_append, List.length_append, h.done_length]
  key := hkey
  keys_eq := h.keys_eq
  slices := h.slices
  ordered := h.ordered
  behind x hx := (h.behind x hx).trans hbehind

/-- A name is sealed by what is in front of its NUL. -/
theorem Sealed.of_append {a b : List Char} {i : ℕ} {name : List Char} (b' : List Char)
    (h : Sealed (a ++ b) i name) (hi : i + name.length < a.length) : Sealed (a ++ b') i name := by
  obtain ⟨hn, rest, hrest⟩ := h
  refine ⟨hn, (a.drop i).drop (name.length + 1) ++ b', ?_⟩
  have hle : i ≤ a.length := by omega
  have htake : (a.drop i).take (name.length + 1) = name ++ [nul] := by
    have htake' := congrArg (List.take (name.length + 1)) hrest
    rw [List.drop_append_of_le_length hle, List.take_append_of_le_length
      (by rw [List.length_drop]; omega)] at htake'
    rw [htake', List.take_length_add_append]
    rfl
  rw [List.drop_append_of_le_length hle, ← List.take_append_drop (name.length + 1) (a.drop i),
    htake]
  simp

/-- A round that pushes a name. What is behind the extension is the terminator, or a
character that is overwritten by a NUL. -/
theorem InPlace.push (gap gap' rest : List Char) {tail : List Char} {i : ℕ}
    (h : InPlace line stale s done pre ('.' :: 'k' :: 'o' :: (gap ++ rest)) names)
    (hkey : s.key = some i) (hgap : gap.length = gap'.length)
    (htail : gap' ++ (rest ++ nul :: stale) = nul :: tail) :
    ∃ name, InPlace line stale
      ⟨pre ++ '.' :: 'k' :: 'o' :: (gap' ++ (rest ++ nul :: stale)), pre.length + 3 + gap'.length,
        none, s.keys ++ [i]⟩
      (done ++ '.' :: 'k' :: 'o' :: gap) (pre ++ '.' :: 'k' :: 'o' :: gap') rest
      (names ++ [(i, name ++ ['.', 'k', 'o'])]) := by
  obtain ⟨name, hname, hslice, hslash, hdot⟩ := h.key i hkey
  have hend : i + name.length = pre.length := by
    rw [← hname.2.1, List.length_drop]
    exact Nat.add_sub_cancel' hname.1
  have hbehind : ∀ x ∈ names, x.1 + x.2.length ≤ i := by
    simpa only [hkey, Option.getD_some] using h.behind
  refine ⟨name, ?_, ?_, ?_, ?_, nofun, ?_, ?_, ?_, ?_⟩
  · rw [h.line_eq, List.append_assoc]
    rfl
  · rw [List.append_assoc]
    rfl
  · simp only [List.length_append, List.length_cons]
    omega
  · simp only [List.length_append, List.length_cons, h.done_length, hgap]
  · rw [h.keys_eq, List.map_append]
    rfl
  · intro x hx
    rcases List.mem_append.mp hx with hx | hx
    · -- an earlier name was closed before the cursor
      obtain ⟨hko, hpre, hsealed⟩ := h.slices x hx
      have hlt := hbehind x hx
      rw [h.cline_eq] at hsealed
      have hshort : x.1 + x.2.length < (pre ++ ['.', 'k', 'o']).length := by
        rw [List.length_append]
        simp only [List.length_cons]
        omega
      refine ⟨hko, hpre, ?_⟩
      have hsealed' : Sealed (pre ++ ['.', 'k', 'o'] ++ (gap ++ rest ++ nul :: stale)) x.1 x.2 := by
        simpa using hsealed
      have hsame := hsealed'.of_append (gap' ++ (rest ++ nul :: stale)) hshort
      simpa using hsame
    · obtain rfl := List.mem_singleton.mp hx
      refine ⟨⟨name, rfl, hslash, hdot⟩, ?_, ?_, ?_⟩
      · rw [h.line_eq, List.drop_append_of_le_length (h.done_length.symm ▸ hname.1), hslice]
        exact ⟨gap ++ rest, by simp⟩
      · rw [List.mem_append, not_or]
        exact ⟨hname.2.2, by decide⟩
      · refine ⟨tail, ?_⟩
        rw [hname.append, htail]
        simp
  · refine List.pairwise_append.mpr ⟨h.ordered, List.pairwise_singleton _ _, ?_⟩
    rintro x hx y hy
    obtain rfl := List.mem_singleton.mp hy
    exact hbehind x hx
  · intro x hx
    simp only [Option.getD_none]
    rcases List.mem_append.mp hx with hx | hx
    · have hle := hbehind x hx
      omega
    · obtain rfl := List.mem_singleton.mp hx
      simp only [List.length_append, List.length_cons, List.length_nil]
      omega

variable {cline : List Char} {pos i : ℕ} {keys : List ℕ}

/-- A round outside a name: a letter begins one. -/
theorem InPlace.step_none
    (h : InPlace line stale ⟨cline, pos, none, keys⟩ done pre (c :: text) names)
    (hc : c ≠ nul) (hstep : Scanner.step ⟨cline, pos, none, keys⟩ c = some s') :
    ∃ pre' names', InPlace line stale s' (done ++ [c]) pre' text names' := by
  by_cases halpha : c.isAlpha
  · obtain ⟨hslash, hdot⟩ := ne_of_isAlpha halpha
    rw [step_of_ne hslash hdot fun _ => halpha, Option.some.injEq] at hstep
    subst hstep
    refine ⟨_, _, h.pass (some pos) ?_ (Nat.le_refl _)⟩
    rintro i hi
    obtain rfl := Option.some.inj hi
    obtain rfl : pos = pre.length := h.pos_eq
    refine ⟨[c], keyAt_singleton hc, ?_, ?_, ?_⟩
    · rw [← h.done_length, List.drop_left]
    · simpa using hslash.symm
    · simpa using hdot.symm
  · rw [Scanner.step, if_pos ⟨rfl, halpha⟩, Option.some.injEq] at hstep
    subst hstep
    exact ⟨_, _, h.pass none (fun i hi => absurd hi (Option.not_mem_none i)) (Nat.le_succ _)⟩

/-- A round at a `/`: the name begins anew behind it. -/
theorem InPlace.step_slash
    (h : InPlace line stale ⟨cline, pos, some i, keys⟩ done pre ('/' :: text) names)
    (hi : i ≤ pos) :
    InPlace line stale ⟨cline, pos + 1, some (pos + 1), keys⟩ (done ++ ['/']) (pre ++ ['/']) text
      names := by
  have hpos : pos = pre.length := h.pos_eq
  refine h.pass (some (pos + 1)) ?_ (Nat.le_succ_of_le hi)
  rintro j hj
  obtain rfl := Option.some.inj hj
  refine ⟨[], ?_, ?_, List.not_mem_nil, List.not_mem_nil⟩
  · have hnil := keyAt_nil (pre ++ ['/'])
    rw [List.length_append, ← hpos] at hnil
    exact hnil
  · rw [List.drop_eq_nil_iff, List.length_append, h.done_length, hpos]
    exact Nat.le_refl _

/-- A round at a `.`: the name is pushed if the `.` begins the extension, and given up
if not. -/
theorem InPlace.step_dot
    (h : InPlace line stale ⟨cline, pos, some i, keys⟩ done pre ('.' :: text) names)
    (hi : i ≤ pos) (hnul : nul ∉ text)
    (hstep : Scanner.step ⟨cline, pos, some i, keys⟩ '.' = some s') :
    ∃ done' pre' text' names', InPlace line stale s' done' pre' text' names' := by
  obtain rfl : pos = pre.length := h.pos_eq
  obtain rfl : cline = pre ++ ('.' :: text ++ nul :: stale) := h.cline_eq
  by_cases hko : text.take 2 = ['k', 'o']
  · obtain ⟨rest, rfl⟩ := eq_of_take_two hko
    cases rest with
    | nil =>
      obtain rfl := Option.some.inj (step_dot_ko_nul.symm.trans hstep)
      obtain ⟨_, hpush⟩ := InPlace.push [] [] [] h rfl rfl rfl
      exact ⟨_, _, _, _, hpush⟩
    | cons d rest =>
      have hd : d ≠ nul := by
        rintro rfl
        exact hnul (by simp)
      obtain rfl := Option.some.inj ((step_dot_ko hd).symm.trans hstep)
      obtain ⟨_, hpush⟩ := InPlace.push [d] [nul] rest h rfl rfl rfl
      exact ⟨_, _, _, _, hpush⟩
  · obtain rfl := Option.some.inj ((step_dot_of_ne hko).symm.trans hstep)
    exact ⟨_, _, _, _, h.pass none (fun i hi => absurd hi (Option.not_mem_none i))
      (Nat.le_succ_of_le hi)⟩

/-- A round at a character of a name. -/
theorem InPlace.step_name
    (h : InPlace line stale ⟨cline, pos, some i, keys⟩ done pre (c :: text) names)
    (hc : c ≠ nul) (hslash : c ≠ '/') (hdot : c ≠ '.') :
    InPlace line stale ⟨cline, pos + 1, some i, keys⟩ (done ++ [c]) (pre ++ [c]) text names := by
  obtain ⟨name, hname, hslice, hslash', hdot'⟩ := h.key i rfl
  refine h.pass (some i) ?_ (Nat.le_refl _)
  rintro j hj
  obtain rfl := Option.some.inj hj
  refine ⟨name ++ [c], hname.snoc hc, ?_, ?_, ?_⟩
  · rw [List.drop_append_of_le_length (h.done_length.symm ▸ hname.1), hslice]
  · simpa [hslash'] using fun heq : '/' = c => hslash heq.symm
  · simpa [hdot'] using fun heq : '.' = c => hdot heq.symm

/-- **Every round keeps the invariant.** -/
theorem InPlace.next (h : InPlace line stale s done pre text names) (hnul : nul ∉ text)
    (hnext : s.next = some s') :
    ∃ done' pre' text' names', InPlace line stale s' done' pre' text' names' := by
  have hcursor := h.getElem? 0
  obtain ⟨cline, pos, key, keys⟩ := s
  cases text with
  | nil => simp_all [Scanner.next]
  | cons c text =>
    rw [List.mem_cons, not_or] at hnul
    have hc : c ≠ nul := fun heq => hnul.1 heq.symm
    have hstep : Scanner.step ⟨cline, pos, key, keys⟩ c = some s' := by
      simpa [Scanner.next, show cline[pos]? = some c from hcursor, hc] using hnext
    cases key with
    | none =>
      obtain ⟨pre', names', hs'⟩ := h.step_none hc hstep
      exact ⟨_, pre', _, names', hs'⟩
    | some i =>
      have hi : i ≤ pos := by
        obtain ⟨_, hname, -⟩ := h.key i rfl
        exact hname.1.trans h.pos_eq.symm.le
      by_cases hslash : c = '/'
      · subst hslash
        obtain rfl : (⟨cline, pos + 1, some (pos + 1), keys⟩ : Scanner) = s' := by
          simpa [Scanner.step] using hstep
        exact ⟨_, _, _, _, h.step_slash hi⟩
      · by_cases hdot : c = '.'
        · subst hdot
          exact h.step_dot hi hnul.2 hstep
        · rw [step_of_ne hslash hdot (absurd · (Option.some_ne_none i)), Option.some.injEq] at hstep
          subst hstep
          exact ⟨_, _, _, _, h.step_name hc hslash hdot⟩

/-- The invariant holds in every state of the loop. -/
theorem Scanning.inPlace (hnul : nul ∉ line) (h : Scanning (line ++ nul :: stale) s) :
    ∃ done pre text names, InPlace line stale s done pre text names := by
  refine h.invariant
    (I := fun s => ∃ done pre text names, InPlace line stale s done pre text names)
    ⟨[], [], line, [], inPlace_start line stale⟩ ?_
  rintro s a s' ⟨done, pre, text, names, hs⟩ - hnext
  refine hs.next (fun hmem => hnul ?_) hnext
  rw [hs.line_eq]
  exact List.mem_append_right _ hmem

/-! ### The whole scan -/

/-- **The scanner is safe on any line.** The indices listed for a round are all it
reads and writes: it fails exactly when one of them is outside the buffer, and what is
not among them it leaves as it was. In every state of the loop the cursor has not
passed the terminator of the line, and a round reads and writes nothing beyond it.
The loop ends, at the terminator, with everything from there on as it was; and the
pointers pushed are those of slices of the line, each closed by a NUL, each a file
name with its extension, and one behind the other. -/
theorem scan_inPlace (hnul : nul ∉ line) (stale : List Char) :
    (∀ s : Scanner,
      (s.next = none ↔ s.cline[s.pos]? = some nul ∨ ∃ i ∈ s.accesses, s.cline.length ≤ i) ∧
      ∀ s', s.next = some s' → ∀ i, i ∉ s.accesses → s'.cline[i]? = s.cline[i]?) ∧
    (∀ s, Scanning (line ++ nul :: stale) s →
      s.pos ≤ line.length ∧ ∀ i ∈ s.accesses, i ≤ line.length) ∧
    ∃ s, scanBuffer (line ++ nul :: stale) = some s ∧ Scanning (line ++ nul :: stale) s ∧
      s.pos = line.length ∧ s.cline.drop line.length = nul :: stale ∧
      ∃ names : List (ℕ × List Char), s.keys = names.map Prod.fst ∧
        (∀ x ∈ names, IsSlice line s.cline x) ∧ names.Pairwise EndsBefore := by
  refine ⟨fun s => ⟨next_eq_none_iff, fun s' hnext i => getElem?_of_next hnext⟩, fun s hs => ?_, ?_⟩
  · obtain ⟨done, pre, text, names, h⟩ := Scanning.inPlace hnul hs
    have hahead := h.ahead_le
    have hlen : line.length = s.pos + text.length := by
      rw [h.line_eq, List.length_append, h.done_length, h.pos_eq]
    refine ⟨by omega, fun i hi => ?_⟩
    have hle := (mem_accesses.mp hi).2
    omega
  · obtain ⟨s, hscan, -⟩ := scanBuffer_names line stale
    obtain ⟨hreach, hend⟩ := scanning_of_scanLoop _ hscan
    obtain ⟨done, pre, text, names, h⟩ := Scanning.inPlace hnul hreach
    -- the only NUL left in front of the cursor is the terminator
    obtain rfl : text = [] := by
      cases text with
      | nil => rfl
      | cons c text =>
        have hc := (h.getElem? 0).symm.trans hend
        obtain rfl : c = nul := by simpa using hc
        exact absurd (by simp [h.line_eq]) hnul
    have hlen : line.length = pre.length := by
      rw [h.line_eq, List.append_nil, h.done_length]
    refine ⟨s, hscan, hreach, h.pos_eq.trans hlen.symm, ?_, names, h.keys_eq, h.slices, h.ordered⟩
    rw [h.cline_eq, hlen, List.drop_left]
    rfl

/-- A line in which `.ko` is a whole name, is followed by another extension, begins a
longer one, and ends the line. -/
theorem scan_inPlace_kofoo :
    ∃ s, scanBuffer ("a/.ko.ko b.kofoo.ko".toList ++ [nul]) = some s ∧ s.keys = [2, 6, 14] ∧
      s.pos = 19 ∧ ∃ names : List (ℕ × List Char), s.keys = names.map Prod.fst ∧
        (∀ x ∈ names, IsSlice "a/.ko.ko b.kofoo.ko".toList s.cline x) ∧
        names.Pairwise EndsBefore := by
  obtain ⟨-, -, s, hscan, -, hpos, -, hnames⟩ :=
    scan_inPlace (show nul ∉ "a/.ko.ko b.kofoo.ko".toList by decide) []
  refine ⟨s, hscan, ?_, hpos, hnames⟩
  have hkeys : (scanBuffer ("a/.ko.ko b.kofoo.ko".toList ++ [nul])).map Scanner.keys =
      some [2, 6, 14] := by decide
  rw [hscan] at hkeys
  exact Option.some.inj hkeys

end KernelConfiguration
