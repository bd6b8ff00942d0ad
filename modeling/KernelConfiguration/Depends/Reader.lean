import Mathlib.Data.List.Basic
import Mathlib.Order.WithBot
import KernelConfiguration.Depends.Modules
import KernelConfiguration.Depends.Scanner
import KernelConfiguration.OrdMap

/-!
# The read loop of build-depends

`main` reads the dependency file line by line into a buffer of 1000 bytes, scans
each line, and records the first name found as depending on the others. The loop
looks at the state of the stream *before* it scans the line just read, and there
are two ways for a line to be read and not scanned.

* A line of 1000 characters or more does not fit. `getline` sets the failure bit,
  and the loop ends there, with the rest of the file.
* The last line, when no newline ends it, is read up to the end of the file, and
  `getline` sets the end-of-file bit.

`KernelConfiguration.readFile_spec` says which lines are recorded, and
`KernelConfiguration.readFile_complete_iff` that nothing is lost exactly when the
others had nothing to say. The scan itself is that of
`KernelConfiguration.Depends.Scanner`; the buffer keeps what longer lines have
left behind the terminator, which the scanner does not see.
-/

namespace KernelConfiguration

/-! ### Reading a line -/

/-- What a call of `getline` leaves. -/
structure Getline where
  /-- The characters stored, without the terminator. -/
  stored : List Char
  /-- What is left to read. -/
  rest : List Char
  /-- The end of the file was met. -/
  eofbit : Bool
  /-- The characters did not fit, or there were none. -/
  failbit : Bool
  deriving DecidableEq, Repr

/-- The loop of `getline`, with room for this many more characters. The end of the
file is looked for first, then the delimiter, then the room. -/
def getlineLoop : ℕ → List Char → Getline
  | _, [] => ⟨[], [], true, false⟩
  | room, c :: cs =>
    if c = '\n' then ⟨[], cs, false, false⟩
    else if room = 0 then ⟨[], c :: cs, false, true⟩
    else
      let g := getlineLoop (room - 1) cs
      { g with stored := c :: g.stored }

/-- **Reading a line** (`getline`) into a buffer of `n` bytes. -/
def getline (n : ℕ) (content : List Char) : Getline :=
  let g := getlineLoop (n - 1) content
  -- a call that extracts nothing fails
  if content = [] then { g with failbit := true } else g

variable {line rest : List Char} {n : ℕ}

theorem getlineLoop_line (hline : '\n' ∉ line) :
    ∀ {room : ℕ}, line.length ≤ room →
      getlineLoop room (line ++ '\n' :: rest) = ⟨line, rest, false, false⟩ := by
  induction line with
  | nil => exact fun _ => by rw [List.nil_append, getlineLoop, if_pos rfl]
  | cons c line ih =>
    intro room hroom
    rw [List.mem_cons, not_or] at hline
    rw [List.length_cons] at hroom
    rw [List.cons_append, getlineLoop, if_neg fun h => hline.1 h.symm, if_neg (by omega),
      ih hline.2 (by omega)]

theorem getlineLoop_long (hline : '\n' ∉ line) (rest : List Char) :
    ∀ {room : ℕ}, room < line.length → (getlineLoop room (line ++ rest)).failbit = true := by
  induction line with
  | nil => exact fun h => absurd h (Nat.not_lt_zero _)
  | cons c line ih =>
    intro room hroom
    rw [List.mem_cons, not_or] at hline
    rw [List.length_cons] at hroom
    rw [List.cons_append, getlineLoop, if_neg fun h => hline.1 h.symm]
    by_cases hzero : room = 0
    · rw [if_pos hzero]
    · rw [if_neg hzero]
      exact ih hline.2 (by omega)

theorem getlineLoop_last (hline : '\n' ∉ line) :
    ∀ {room : ℕ}, (getlineLoop room line).eofbit = true ∨
      (getlineLoop room line).failbit = true := by
  induction line with
  | nil => exact fun {_} => Or.inl rfl
  | cons c line ih =>
    intro room
    rw [List.mem_cons, not_or] at hline
    rw [getlineLoop, if_neg fun h => hline.1 h.symm]
    by_cases hzero : room = 0
    · rw [if_pos hzero]
      exact Or.inr rfl
    · rw [if_neg hzero]
      exact ih hline.2

/-- A line that fits is read as it is. -/
theorem getline_line (hline : '\n' ∉ line) (hlen : line.length < n) :
    getline n (line ++ '\n' :: rest) = ⟨line, rest, false, false⟩ := by
  rw [getline, getlineLoop_line hline (by omega)]
  simp

/-- A line that does not fit is a failure. -/
theorem getline_long (hline : '\n' ∉ line) (hn : 0 < n) (hlen : n ≤ line.length) :
    (getline n (line ++ rest)).failbit = true := by
  have hfail := getlineLoop_long hline rest (show n - 1 < line.length by omega)
  rw [getline]
  split
  · rfl
  · exact hfail

/-- A line that nothing ends is the end of the file, or a failure. -/
theorem getline_last (hline : '\n' ∉ line) :
    (getline n line).eofbit = true ∨ (getline n line).failbit = true := by
  rw [getline]
  split
  · exact Or.inr rfl
  · exact getlineLoop_last hline

/-! ### Recording a line -/

/-- An edge of the graph written out, between two nodes. -/
structure DotEdge where
  /-- The node depended on. -/
  source : List Char
  /-- The node that depends on it. -/
  target : List Char
  deriving DecidableEq, Repr

/-- The state of the read loop. -/
structure Reader where
  /-- What is left of the file. -/
  content : List Char
  /-- The buffer `cline`. -/
  cline : List Char
  /-- The set `modules`. -/
  modules : List Module
  /-- The map `depends`. -/
  depends : OrdMap (WithBot Module) (List Module)
  /-- The edges written to `cluster_0`. -/
  cluster0 : List DotEdge

section

variable [LinearOrder Module]

/-- Recording one dependency of the module `mod`, whose name is `first`. -/
def Reader.push (first : List Char) (mod : Module) (r : Reader) (name : List Char) : Reader :=
  let (dep, modules) := getModule name r.modules
  { r with
    cluster0 := r.cluster0 ++ [⟨name, first⟩]
    modules := modules
    depends := r.depends.modify mod fun v => v ++ [dep] }

/-- **Recording the names of a line**, if there is more than one. -/
def Reader.addLine (r : Reader) : List (List Char) → Reader
  | first :: second :: rest =>
    let (mod, modules) := getModule first r.modules
    (second :: rest).foldl (Reader.push first mod)
      { r with modules := modules, depends := r.depends.access mod }
  | _ => r

/-- **The read loop of `main`.** The first argument bounds the number of lines
read. -/
def readLoop : ℕ → Reader → Option Reader
  | 0, _ => none
  | fuel + 1, r => do
    let g := getline 1000 r.content
    let r : Reader := { r with
      content := g.rest
      cline := g.stored ++ nul :: r.cline.drop (g.stored.length + 1) }
    -- the stream is looked at before the line is
    if g.eofbit || g.failbit then return r
    else
      let s ← scanBuffer r.cline
      readLoop fuel ({ r with cline := s.cline }.addLine (s.keys.map (cstr s.cline)))

/-- Reading a file, with what the buffer holds at first. -/
def readFile (cline content : List Char) : Option Reader :=
  readLoop (content.length + 1) ⟨content, cline, [], .empty, []⟩

/-! ### What is recorded -/

/-- **What a line records under a pointer**: when it points to the module of the
first name, the modules of the other names. -/
def namesDeps (p : WithBot Module) : List (List Char) → List Module
  | [] => []
  | first :: rest => if p = moduleOf first then rest.map moduleOf else []

/-- What a line of the file records under a pointer. -/
def lineDeps (p : WithBot Module) (line : List Char) : List Module := namesDeps p (lineNames line)

variable {r : Reader} {p : WithBot Module} {first : List Char} {mod : Module}

theorem push_get (name : List Char) : (r.push first mod name).depends.get p =
    r.depends.get p ++ if p = mod then [moduleOf name] else [] := by
  simp only [Reader.push, OrdMap.modify_get, getModule_fst]
  split
  · rfl
  · rw [List.append_nil]

theorem foldl_push_get (names : List (List Char)) : ∀ {r : Reader},
    (names.foldl (Reader.push first mod) r).depends.get p =
      r.depends.get p ++ if p = mod then names.map moduleOf else [] := by
  induction names with
  | nil => exact fun {_} => by simp
  | cons name names ih =>
    intro r
    rw [List.foldl_cons, ih, push_get, List.append_assoc]
    split <;> rfl

theorem foldl_push_content (names : List (List Char)) : ∀ {r : Reader},
    (names.foldl (Reader.push first mod) r).content = r.content := by
  induction names with
  | nil => exact fun {_} => rfl
  | cons name names ih => exact fun {_} => ih

/-- **Recording a line adds what it says and nothing else.** -/
theorem addLine_get (names : List (List Char)) :
    (r.addLine names).depends.get p = r.depends.get p ++ namesDeps p names := by
  match names with
  | [] => exact (List.append_nil _).symm
  | [first] => simp [Reader.addLine, namesDeps]
  | first :: second :: rest =>
    simp only [Reader.addLine, foldl_push_get, getModule_fst, OrdMap.access_get, namesDeps]

theorem addLine_content (names : List (List Char)) : (r.addLine names).content = r.content := by
  match names with
  | [] | [first] => rfl
  | first :: second :: rest => exact foldl_push_content _

/-! ### Which lines are recorded -/

/-- **The lines that are recorded**: those ended by a newline, up to the first one
that does not fit. -/
def processedLines (content : List Char) : List (List Char) :=
  (content.splitOn '\n').dropLast.takeWhile fun line => line.length < 1000

/-- The lines that are not. -/
def droppedLines (content : List Char) : List (List Char) :=
  (content.splitOn '\n').drop (processedLines content).length

omit [LinearOrder Module] in
theorem processedLines_append_droppedLines (content : List Char) :
    processedLines content ++ droppedLines content = content.splitOn '\n' :=
  List.prefix_iff_eq_append.mp ((List.takeWhile_prefix _).trans (List.dropLast_prefix _))

omit [LinearOrder Module] in
theorem processedLines_of_not_mem {content : List Char} (h : '\n' ∉ content) :
    processedLines content = [] := by
  rw [processedLines, List.splitOn_eq_singleton h]
  rfl

omit [LinearOrder Module] in
theorem processedLines_line (hline : '\n' ∉ line) (rest : List Char) :
    processedLines (line ++ '\n' :: rest) =
      if line.length < 1000 then line :: processedLines rest else [] := by
  rw [processedLines, List.splitOn_append_cons_self_of_not_mem hline,
    List.dropLast_cons_of_ne_nil (List.splitOn_ne_nil _ _), List.takeWhile_cons, processedLines]
  simp only [decide_eq_true_eq]

/-- A round of the loop that scans the line it has read. -/
theorem readLoop_line (fuel : ℕ) (hcontent : r.content = line ++ '\n' :: rest)
    (hline : '\n' ∉ line) (hlen : line.length < 1000) :
    ∃ r', readLoop (fuel + 1) r = readLoop fuel r' ∧ r'.content = rest ∧
      ∀ p, r'.depends.get p = r.depends.get p ++ lineDeps p line := by
  obtain ⟨s, hscan, hnames⟩ := scanBuffer_names line (r.cline.drop (line.length + 1))
  refine ⟨Reader.addLine { r with content := rest, cline := s.cline } (lineNames line), ?_,
    addLine_content _, fun p => addLine_get _⟩
  rw [readLoop, hcontent, getline_line hline hlen]
  simp [hscan, hnames]

/-- The round that leaves the loop. -/
theorem readLoop_break (fuel : ℕ) (h : (getline 1000 r.content).eofbit = true ∨
      (getline 1000 r.content).failbit = true) :
    ∃ r', readLoop (fuel + 1) r = some r' ∧ r'.depends = r.depends := by
  refine ⟨{ r with
    content := (getline 1000 r.content).rest
    cline := (getline 1000 r.content).stored ++
      nul :: r.cline.drop ((getline 1000 r.content).stored.length + 1) }, ?_, rfl⟩
  rw [readLoop]
  rcases h with h | h <;> simp [h]

/-- **The read loop ends, and records the lines it processes, in their order.** -/
theorem readLoop_spec (fuel : ℕ) : ∀ {r : Reader}, r.content.length < fuel →
    ∃ r', readLoop fuel r = some r' ∧
      ∀ p, r'.depends.get p =
        r.depends.get p ++ (processedLines r.content).flatMap (lineDeps p) := by
  induction fuel with
  | zero => exact fun h => absurd h (Nat.not_lt_zero _)
  | succ fuel ih =>
    intro r hfuel
    -- either way of leaving the loop records nothing more
    have hbreak : processedLines r.content = [] →
        ((getline 1000 r.content).eofbit = true ∨ (getline 1000 r.content).failbit = true) →
        ∃ r', readLoop (fuel + 1) r = some r' ∧ ∀ p, r'.depends.get p =
          r.depends.get p ++ (processedLines r.content).flatMap (lineDeps p) := by
      intro hnil h
      obtain ⟨r', hr', hdep⟩ := readLoop_break fuel h
      exact ⟨r', hr', fun p => by rw [hdep, hnil, List.flatMap_nil, List.append_nil]⟩
    by_cases hmem : '\n' ∈ r.content
    · obtain ⟨line, rest, hcontent, hline⟩ := List.eq_append_cons_of_mem hmem
      have hlines := processedLines_line hline rest
      rw [← hcontent] at hlines
      by_cases hlen : line.length < 1000
      · obtain ⟨r₁, hr₁, hrest, hget⟩ := readLoop_line fuel hcontent hline hlen
        have hshort : r₁.content.length < fuel := by
          rw [hcontent, List.length_append, List.length_cons] at hfuel
          rw [hrest]
          omega
        obtain ⟨r', hr', hget'⟩ := ih hshort
        refine ⟨r', hr₁.trans hr', fun p => ?_⟩
        rw [hget', hget, hrest, hlines, if_pos hlen, List.flatMap_cons, List.append_assoc]
      · rw [if_neg hlen] at hlines
        refine hbreak hlines (Or.inr ?_)
        rw [hcontent]
        exact getline_long hline (by decide) (Nat.not_lt.mp hlen)
    · exact hbreak (processedLines_of_not_mem hmem) (getline_last hmem)

/-- **What is read from a file**: under every pointer, what the processed lines
say. -/
theorem readFile_spec (cline content : List Char) :
    ∃ r, readFile cline content = some r ∧
      ∀ p, r.depends.get p = (processedLines content).flatMap (lineDeps p) :=
  readLoop_spec (content.length + 1) (r := ⟨content, cline, [], .empty, []⟩) (Nat.lt_succ_self _)

/-- A line says nothing exactly when it has at most one name. -/
theorem lineDeps_eq_nil : (∀ p, lineDeps p line = []) ↔ (lineNames line).length ≤ 1 := by
  simp only [lineDeps]
  match lineNames line with
  | [] => simp [namesDeps]
  | [first] => simp [namesDeps]
  | first :: second :: rest =>
    constructor
    · intro h
      have hnil := h (moduleOf first)
      simp [namesDeps] at hnil
    · intro h
      simp at h

/-- **Every line of the file is recorded exactly when the lines that are dropped
have nothing to say**: the loop ends for every file, and what it has recorded
under every pointer is what all lines say, in file order, if and only if each
dropped line has at most one name. -/
theorem readFile_complete_iff (cline content : List Char) :
    ∃ r, readFile cline content = some r ∧
      ((∀ p, r.depends.get p = (content.splitOn '\n').flatMap (lineDeps p)) ↔
        ∀ line ∈ droppedLines content, (lineNames line).length ≤ 1) := by
  obtain ⟨r, hr, hget⟩ := readFile_spec cline content
  have hall : ∀ p, (content.splitOn '\n').flatMap (lineDeps p) =
      r.depends.get p ++ (droppedLines content).flatMap (lineDeps p) := fun p => by
    rw [hget, ← List.flatMap_append, processedLines_append_droppedLines]
  refine ⟨r, hr, ?_⟩
  constructor
  · rintro h line hline
    refine lineDeps_eq_nil.mp fun p => ?_
    have hnil : (droppedLines content).flatMap (lineDeps p) = [] := by
      have hp := h p
      rw [hall p] at hp
      exact List.self_eq_append_right.mp hp
    exact List.flatMap_eq_nil_iff.mp hnil line hline
  · intro h p
    rw [hall p, List.flatMap_eq_nil_iff.mpr fun line hline => lineDeps_eq_nil.mpr (h line hline) p,
      List.append_nil]

end

/-- **A last line that no newline ends** is not recorded. -/
theorem not_readFile_complete :
    ¬∀ (_ : LinearOrder Module) (cline content : List Char) (r : Reader),
      readFile cline content = some r →
        ∀ p, r.depends.get p = (content.splitOn '\n').flatMap (lineDeps p) := by
  intro h
  let _ := nameOrder
  have hnl : '\n' ∉ "kernel/b.ko: kernel/c.ko".toList := by decide
  have hnames : lineNames "kernel/b.ko: kernel/c.ko".toList = ["b.ko".toList, "c.ko".toList] := by
    decide
  obtain ⟨r, hr, hget⟩ := readFile_spec [] "kernel/b.ko: kernel/c.ko".toList
  have hb := h nameOrder [] _ r hr (moduleOf "b.ko".toList)
  rw [hget, processedLines_of_not_mem hnl, List.splitOn_eq_singleton hnl, List.flatMap_nil,
    List.flatMap_singleton, lineDeps, hnames, namesDeps, if_pos rfl] at hb
  exact absurd hb nofun

end KernelConfiguration
