import Mathlib.Data.List.Basic
import Mathlib.Data.List.Count
import KernelConfiguration.Depends.Reader

/-!
# What the read loop keeps, and what it writes

For every dependency it records, the read loop of `build-depends` writes an edge of
`cluster_0` at once. The record is made in two containers: `modules` keeps the
modules, one for each name, and `depends` keeps the lists, under the addresses of the
modules. So the first graph of the output and what the second one is computed from
are two images of the same file, made side by side and never compared.

They agree (`KernelConfiguration.readFile_records`), down to the number of times that
a dependency is given. Nothing else is kept: a module that is in `modules` is at an
end of an edge, and a key that is in `depends` is the target of one, although the key
is entered before the first dependency is.
-/

namespace KernelConfiguration

/-! ### The loop as a fold over the lines -/

/-- The edges written for the names of a line. -/
def namesEdges : List (List Char) → List DotEdge
  | [] => []
  | first :: rest => rest.map fun name => ⟨name, first⟩

/-- The edges written for a line. -/
def lineEdges (line : List Char) : List DotEdge := namesEdges (lineNames line)

/-- The name is at an end of the edge. -/
def DotEdge.HasEnd (e : DotEdge) (name : List Char) : Prop := name = e.source ∨ name = e.target

section

variable [LinearOrder Module] {r : Reader} {line rest first name : List Char} {mod m : Module}
  {p : WithBot Module}

/-- The reader with the stream and the buffer in another place. -/
def Reader.moveTo (r : Reader) (content cline : List Char) : Reader :=
  { r with content := content, cline := cline }

theorem foldl_push_moveTo (content cline : List Char) (names : List (List Char)) :
    ∀ {r : Reader}, names.foldl (Reader.push first mod) (r.moveTo content cline) =
      (names.foldl (Reader.push first mod) r).moveTo content cline := by
  induction names with
  | nil => exact fun {_} => rfl
  | cons name names ih => exact fun {r} => ih (r := r.push first mod name)

/-- What is recorded does not depend on the stream or the buffer. -/
theorem addLine_moveTo (content cline : List Char) (names : List (List Char)) :
    (r.moveTo content cline).addLine names = (r.addLine names).moveTo content cline := by
  match names with
  | [] | [first] => rfl
  | first :: second :: rest => exact foldl_push_moveTo content cline _ (r := { r with
      modules := (getModule first r.modules).2
      depends := r.depends.access (getModule first r.modules).1 })

theorem foldl_addLine_moveTo (content cline : List Char) (lines : List (List Char)) :
    ∀ {r : Reader},
      lines.foldl (fun r line => r.addLine (lineNames line)) (r.moveTo content cline) =
        (lines.foldl (fun r line => r.addLine (lineNames line)) r).moveTo content cline := by
  induction lines with
  | nil => exact fun {_} => rfl
  | cons line lines ih =>
    intro r
    rw [List.foldl_cons, addLine_moveTo, ih, List.foldl_cons]

/-- **The read loop records the processed lines, one after the other.** -/
theorem readLoop_eq_foldl (fuel : ℕ) : ∀ {r : Reader}, r.content.length < fuel →
    ∃ content cline, readLoop fuel r = some (((processedLines r.content).foldl
      (fun r line => r.addLine (lineNames line)) r).moveTo content cline) := by
  induction fuel with
  | zero => exact fun h => absurd h (Nat.not_lt_zero _)
  | succ fuel ih =>
    intro r hfuel
    have hbreak : processedLines r.content = [] →
        ((getline 1000 r.content).eofbit = true ∨ (getline 1000 r.content).failbit = true) →
        ∃ content cline, readLoop (fuel + 1) r = some (((processedLines r.content).foldl
          (fun r line => r.addLine (lineNames line)) r).moveTo content cline) := by
      intro hnil h
      refine ⟨(getline 1000 r.content).rest, (getline 1000 r.content).stored ++
        nul :: r.cline.drop ((getline 1000 r.content).stored.length + 1), ?_⟩
      rw [hnil, List.foldl_nil, readLoop]
      rcases h with h | h <;> simp [h, Reader.moveTo]
    by_cases hmem : '\n' ∈ r.content
    · obtain ⟨line, rest, hcontent, hline⟩ := List.eq_append_cons_of_mem hmem
      have hlines := processedLines_line hline rest
      rw [← hcontent] at hlines
      by_cases hlen : line.length < 1000
      · rw [if_pos hlen] at hlines
        obtain ⟨s, hscan, hnames⟩ := scanBuffer_names line (r.cline.drop (line.length + 1))
        have hround : readLoop (fuel + 1) r =
            readLoop fuel ((r.moveTo rest s.cline).addLine (lineNames line)) := by
          rw [readLoop, hcontent, getline_line hline hlen]
          simp [hscan, hnames, Reader.moveTo]
        have hrest : ((r.moveTo rest s.cline).addLine (lineNames line)).content = rest :=
          addLine_content _
        have hshort : ((r.moveTo rest s.cline).addLine (lineNames line)).content.length < fuel := by
          rw [hcontent, List.length_append, List.length_cons] at hfuel
          rw [hrest]
          omega
        obtain ⟨content, cline, hloop⟩ := ih hshort
        refine ⟨content, cline, ?_⟩
        rw [hround, hloop, hrest, hlines, addLine_moveTo, foldl_addLine_moveTo]
        rfl
      · rw [if_neg hlen] at hlines
        refine hbreak hlines (Or.inr ?_)
        rw [hcontent]
        exact getline_long hline (by decide) (Nat.not_lt.mp hlen)
    · exact hbreak (processedLines_of_not_mem hmem) (getline_last hmem)

/-! ### What a line adds -/

omit [LinearOrder Module] in
theorem mem_getModule {modules : List Module} :
    m ∈ (getModule name modules).2 ↔ m ∈ modules ∨ m = moduleOf name := by
  rw [getModule]
  cases h : modules.find? (·.name = name) with
  | none =>
    rw [List.mem_cons]
    exact or_comm
  | some m' =>
    refine ⟨Or.inl, ?_⟩
    rintro (hm | rfl)
    · exact hm
    · have hname : m'.name = name := by simpa using List.find?_some h
      rw [← hname, moduleOf_name]
      exact List.mem_of_find?_eq_some h

omit [LinearOrder Module] in
/-- No module is made twice. -/
theorem nodup_getModule {modules : List Module} (h : (modules.map Module.name).Nodup) :
    ((getModule name modules).2.map Module.name).Nodup := by
  rw [getModule]
  cases hfind : modules.find? (·.name = name) with
  | none =>
    rw [List.map_cons, List.nodup_cons]
    refine ⟨?_, h⟩
    rintro hmem
    obtain ⟨m, hm, hname⟩ := List.mem_map.mp hmem
    have hne := List.find?_eq_none.mp hfind m hm
    exact hne (decide_eq_true hname)
  | some m' => exact h

theorem foldl_push_cluster0 (names : List (List Char)) : ∀ {r : Reader},
    (names.foldl (Reader.push first mod) r).cluster0 =
      r.cluster0 ++ names.map fun name => ⟨name, first⟩ := by
  induction names with
  | nil => exact fun {_} => (List.append_nil _).symm
  | cons name names ih =>
    intro r
    rw [List.foldl_cons, ih, List.map_cons, Reader.push, List.append_assoc]
    rfl

theorem foldl_push_modules (names : List (List Char)) : ∀ {r : Reader},
    m ∈ (names.foldl (Reader.push first mod) r).modules ↔ m ∈ r.modules ∨ m.name ∈ names := by
  induction names with
  | nil => exact fun {_} => by simp
  | cons name names ih =>
    intro r
    have hname : m = moduleOf name ↔ m.name = name := by
      rw [← moduleOf_inj, moduleOf_name]
    rw [List.foldl_cons, ih, Reader.push, mem_getModule, hname, List.mem_cons, or_assoc]

theorem foldl_push_nodup (names : List (List Char)) : ∀ {r : Reader},
    (r.modules.map Module.name).Nodup →
      ((names.foldl (Reader.push first mod) r).modules.map Module.name).Nodup := by
  induction names with
  | nil => exact fun h => h
  | cons name names ih => exact fun h => ih (nodup_getModule h)

theorem foldl_push_keys (names : List (List Char)) : ∀ {r : Reader}, ↑mod ∈ r.depends.keys →
    (names.foldl (Reader.push first mod) r).depends.keys = r.depends.keys := by
  induction names with
  | nil => exact fun _ => rfl
  | cons name names ih =>
    intro r h
    have hpush : (r.push first mod name).depends.keys = r.depends.keys :=
      Finset.insert_eq_self.mpr h
    rw [List.foldl_cons, ih (by rw [hpush]; exact h), hpush]

/-- What a line writes. -/
theorem addLine_cluster0 (names : List (List Char)) :
    (r.addLine names).cluster0 = r.cluster0 ++ namesEdges names := by
  match names with
  | [] | [first] => exact (List.append_nil _).symm
  | first :: second :: rest => exact foldl_push_cluster0 _

omit [LinearOrder Module] in
/-- The modules a line names are those at the ends of its edges. -/
theorem exists_hasEnd_namesEdges (first second : List Char) (rest : List (List Char)) :
    (∃ e ∈ namesEdges (first :: second :: rest), e.HasEnd name) ↔
      name ∈ first :: second :: rest := by
  simp only [namesEdges, List.mem_map, DotEdge.HasEnd]
  constructor
  · rintro ⟨e, ⟨other, hother, rfl⟩, rfl | rfl⟩
    · exact List.mem_cons_of_mem _ hother
    · exact List.mem_cons_self
  · intro h
    rcases List.mem_cons.mp h with rfl | h
    · exact ⟨_, ⟨second, List.mem_cons_self, rfl⟩, Or.inr rfl⟩
    · exact ⟨_, ⟨name, h, rfl⟩, Or.inl rfl⟩

theorem addLine_modules (names : List (List Char)) : m ∈ (r.addLine names).modules ↔
    m ∈ r.modules ∨ ∃ e ∈ namesEdges names, e.HasEnd m.name := by
  match names with
  | [] | [first] => simp [Reader.addLine, namesEdges]
  | first :: second :: rest =>
    have hname : m = moduleOf first ↔ m.name = first := by
      rw [← moduleOf_inj, moduleOf_name]
    rw [exists_hasEnd_namesEdges, List.mem_cons, ← hname, ← or_assoc, ← mem_getModule]
    exact foldl_push_modules _

theorem addLine_nodup (names : List (List Char)) (h : (r.modules.map Module.name).Nodup) :
    ((r.addLine names).modules.map Module.name).Nodup := by
  match names with
  | [] | [first] => exact h
  | first :: second :: rest => exact foldl_push_nodup _ (nodup_getModule h)

theorem addLine_keys (names : List (List Char)) : p ∈ (r.addLine names).depends.keys ↔
    p ∈ r.depends.keys ∨ ∃ e ∈ namesEdges names, p = moduleOf e.target := by
  match names with
  | [] | [first] => simp [Reader.addLine, namesEdges]
  | first :: second :: rest =>
    have htarget : (∃ e ∈ namesEdges (first :: second :: rest), p = moduleOf e.target) ↔
        p = moduleOf first := by
      simp [namesEdges]
    have hkeys : (r.addLine (first :: second :: rest)).depends.keys =
        insert ↑(moduleOf first) r.depends.keys := by
      refine (foldl_push_keys _ (Finset.mem_insert_self _ _)).trans ?_
      change insert (↑(getModule first r.modules).1) r.depends.keys = _
      rw [getModule_fst]
    rw [htarget, hkeys, Finset.mem_insert, or_comm]

/-- A line gives a dependency as often as it writes the edge. -/
theorem count_namesEdges (a b : Module) (names : List (List Char)) :
    (namesEdges names).count ⟨b.name, a.name⟩ = (namesDeps a names).count b := by
  match names with
  | [] => rfl
  | first :: rest =>
    have hfirst : (a : WithBot Module) = moduleOf first ↔ a.name = first := by
      rw [WithBot.coe_inj, ← moduleOf_inj, moduleOf_name]
    rw [namesEdges, namesDeps, if_congr hfirst rfl rfl]
    by_cases ha : a.name = first
    · subst ha
      rw [if_pos rfl]
      refine List.count_map_of_injective rest (fun name => (⟨name, a.name⟩ : DotEdge)) ?_ b.name
        |>.trans ?_
      · exact fun x y hxy => (DotEdge.mk.inj hxy).1
      · rw [← List.count_map_of_injective rest moduleOf (fun x y hxy => moduleOf_inj.mp hxy),
          moduleOf_name]
    · rw [if_neg ha, List.count_nil, List.count_eq_zero]
      intro hmem
      obtain ⟨name, -, heq⟩ := List.mem_map.mp hmem
      exact ha (DotEdge.mk.inj heq).2.symm

/-! ### What is kept of a file -/

variable (r) in
/-- **The record agrees with the edges written.** -/
structure Recorded : Prop where
  /-- There is one module for each name. -/
  nodup : (r.modules.map Module.name).Nodup
  /-- The modules are those at the ends of the edges. -/
  modules : ∀ m, m ∈ r.modules ↔ ∃ e ∈ r.cluster0, e.HasEnd m.name
  /-- The keys are the modules that an edge leads to. -/
  keys : ∀ p, p ∈ r.depends.keys ↔ ∃ e ∈ r.cluster0, p = moduleOf e.target
  /-- A dependency is held as often as its edge is written. -/
  count : ∀ a b : Module, (r.depends.get a).count b = r.cluster0.count ⟨b.name, a.name⟩

/-- **Recording a line keeps the agreement.** -/
theorem Recorded.addLine (h : Recorded r) (names : List (List Char)) :
    Recorded (r.addLine names) where
  nodup := addLine_nodup names h.nodup
  modules m := by
    rw [addLine_modules, h.modules, addLine_cluster0]
    simp only [List.mem_append, or_and_right, exists_or]
  keys p := by
    rw [addLine_keys, h.keys, addLine_cluster0]
    simp only [List.mem_append, or_and_right, exists_or]
  count a b := by
    rw [addLine_get, List.count_append, h.count, addLine_cluster0, List.count_append,
      count_namesEdges]

theorem foldl_addLine_recorded (lines : List (List Char)) : ∀ {r : Reader}, Recorded r →
    Recorded (lines.foldl (fun r line => r.addLine (lineNames line)) r) ∧
      (lines.foldl (fun r line => r.addLine (lineNames line)) r).cluster0 =
        r.cluster0 ++ lines.flatMap lineEdges := by
  induction lines with
  | nil => exact fun h => ⟨h, (List.append_nil _).symm⟩
  | cons line lines ih =>
    intro r h
    obtain ⟨hrec, hedges⟩ := ih (h.addLine (lineNames line))
    refine ⟨hrec, ?_⟩
    rw [List.foldl_cons, hedges, addLine_cluster0, List.append_assoc, List.flatMap_cons]
    rfl

/-- What the read loop leaves, once it has ended. -/
theorem recorded_of_readFile {cline content : List Char} (hread : readFile cline content = some r) :
    r.cluster0 = (processedLines content).flatMap lineEdges ∧ Recorded r := by
  obtain ⟨content', cline', hloop⟩ := readLoop_eq_foldl (content.length + 1)
    (r := ⟨content, cline, [], .empty, []⟩) (Nat.lt_succ_self _)
  have hempty : Recorded ⟨content, cline, [], .empty, []⟩ :=
    ⟨List.nodup_nil, by simp, by simp [OrdMap.empty], fun _ _ => rfl⟩
  obtain ⟨hrec, hedges⟩ := foldl_addLine_recorded (processedLines content) hempty
  obtain rfl := Option.some.inj (hread.symm.trans hloop)
  exact ⟨hedges, hrec.nodup, hrec.modules, hrec.keys, hrec.count⟩

/-- **What is written of a file and what is kept of it are the same.** For every file
the read loop ends; the edges it has written are those of the processed lines, in
their order; there is one module for each name, and the modules are those at the ends
of the edges; the keys of the map are the modules that an edge leads to, and a
dependency is held as often as its edge is written. -/
theorem readFile_records (cline content : List Char) :
    ∃ r, readFile cline content = some r ∧
      r.cluster0 = (processedLines content).flatMap lineEdges ∧ Recorded r := by
  obtain ⟨r, hread, -⟩ := readFile_spec cline content
  exact ⟨r, hread, recorded_of_readFile hread⟩

end

end KernelConfiguration
