import Mathlib.Data.List.Basic
import KernelConfiguration.Depends.Paths
import KernelConfiguration.Depends.Termination

/-!
# The text build-depends writes

The output of the program is a text for `dot`: a header, the edges of `cluster_0` one
to a line, the symbols in blue and the subsystems in green, and the edges of
`cluster_1`. A name is put between quotes as it stands, and nothing is escaped.

A reader that takes for a name what stands between two quotes
(`KernelConfiguration.readDot`) gets both graphs back from the text exactly when no
name in the file has a quote in it (`KernelConfiguration.readDot_main_iff`). An edge with
such a name is none to this reader, and the others are not touched. With what is
known of the scanner, of the read loop and of the reduction, this says what the program
does to a well-formed file as a whole, from the text it reads to the text it writes
(`KernelConfiguration.main_depLines`).
-/

namespace KernelConfiguration

/-! ### The text -/

/-- The quote that names are put between. -/
def quote : Char := '\x22'

/-- The line of an edge. -/
def edgeText (e : DotEdge) : List Char :=
  quote :: (e.source ++ quote :: (" -> ".toList ++ quote :: (e.target ++ [quote])))

/-- The line that gives a node its color. -/
def colorText (color : String) (name : String) : List Char :=
  "\"".toList ++ name.toList ++ "\" [color=".toList ++ color.toList ++ "];".toList

/-- The header, up to the line of `cluster_0`. -/
def dotHeader : List (List Char) :=
  ["digraph \x7b", "    concentrate=true;", "    rankdir=TB;", "    node [fontsize=10];",
    "    node [nodesep=0.75];", "    node [ranksep=0.75];", "#    node [color=none];",
    "    node [shape=box];", "#    graph [bb=\"0,0,1000,1000\"];", "#graph[size=\"100,100\"]; ",
    "# graph [ratio=0.5];", "    edge [weight=1.2];", "", "    subgraph cluster_0 \x7b"].map
      String.toList

/-- What is left of the header in front of the first edge. -/
def dotIndent : List Char := "    ".toList

/-- The line that begins `cluster_1`. -/
def cluster1Line : List Char := "   subgraph cluster_1 \x7b ".toList

/-- Lines, each with its end. -/
def unlines (lines : List (List Char)) : List Char := lines.flatMap (· ++ ['\n'])

/-- The lines that give the nodes of `cluster_0` their colors. -/
def colorLines : List (List Char) :=
  symbols.map (colorText "blue") ++ subsys.map (colorText "green")

/-- **The text that is written.** -/
def dotText (out : Output) : List Char :=
  unlines dotHeader ++ dotIndent ++ unlines (out.cluster0.map edgeText) ++ unlines colorLines ++
    unlines ["\x7d".toList, cluster1Line] ++ unlines (out.cluster1.map edgeText) ++
    "\n\x7d\n     \x7d".toList

/-- What a run of the program leaves. -/
structure Run where
  /-- What has been written. -/
  stdout : List Char
  /-- The exit status. -/
  status : ℤ
  deriving DecidableEq, Repr

/-- **The program** (`main`), with its arguments and the contents of the files. A file
that cannot be opened reads as an empty one. -/
def main [LinearOrder Module] (fuel : ℕ) (cline : List Char) (files : List Char → List Char)
    (argv : List (List Char)) : Option Run :=
  match argv with
  | _ :: name :: _ => do
    let out ← buildDepends fuel cline (files name)
    return ⟨dotText out, 0⟩
  | _ => some ⟨"Invalid number of arguments".toList, -1⟩

/-! ### Reading it -/

/-- The edge of a line, if it is one: two names between quotes, with an arrow between
them. -/
def readEdge (line : List Char) : Option DotEdge :=
  match (line.dropWhile (· = ' ')).splitOn quote with
  | [[], source, arrow, target, []] =>
    if arrow = " -> ".toList then some ⟨source, target⟩ else none
  | _ => none

/-- **Reading a text that names are put between quotes in**: the edges of the two
graphs. -/
def readDot (text : List Char) : List DotEdge × List DotEdge :=
  let lines := text.splitOn '\n'
  ((lines.takeWhile (· ≠ cluster1Line)).filterMap readEdge,
    (lines.dropWhile (· ≠ cluster1Line)).filterMap readEdge)

variable {e : DotEdge} {name line : List Char}

/-- The ends of the edge have no quote. -/
def DotEdge.Unquoted (e : DotEdge) : Prop := quote ∉ e.source ∧ quote ∉ e.target

instance (e : DotEdge) : Decidable e.Unquoted :=
  inferInstanceAs (Decidable (quote ∉ e.source ∧ quote ∉ e.target))

/-- A quote in a name makes two parts of it. -/
theorem one_lt_length_splitOn (h : quote ∈ name) : 1 < (name.splitOn quote).length := by
  obtain ⟨u, v, rfl⟩ := List.append_of_mem h
  rw [List.splitOn_append_cons_self, List.length_append]
  have hu := List.length_pos_iff.mpr (List.splitOn_ne_nil quote u)
  have hv := List.length_pos_iff.mpr (List.splitOn_ne_nil quote v)
  omega

theorem splitOn_edgeText : ((edgeText e).dropWhile (· = ' ')).splitOn quote =
    [] :: (e.source.splitOn quote ++ " -> ".toList :: (e.target.splitOn quote ++ [[]])) := by
  have hdrop : (edgeText e).dropWhile (· = ' ') = [] ++ quote :: (e.source ++
      quote :: (" -> ".toList ++ quote :: (e.target ++ quote :: []))) := rfl
  rw [hdrop, List.splitOn_append_cons_self, List.splitOn_append_cons_self,
    List.splitOn_append_cons_self, List.splitOn_append_cons_self]
  rfl

/-- **The line of an edge is read as the edge, if its ends have no quote, and as no
edge otherwise.** -/
theorem readEdge_edgeText : readEdge (edgeText e) = if e.Unquoted then some e else none := by
  rw [readEdge, splitOn_edgeText]
  by_cases h : e.Unquoted
  · rw [if_pos h, List.splitOn_eq_singleton h.1, List.splitOn_eq_singleton h.2]
    rfl
  · rw [if_neg h]
    have hlen : 2 < (e.source.splitOn quote).length + (e.target.splitOn quote).length := by
      have hs := List.length_pos_iff.mpr (List.splitOn_ne_nil quote e.source)
      have ht := List.length_pos_iff.mpr (List.splitOn_ne_nil quote e.target)
      rcases not_and_or.mp h with h | h
      · have := one_lt_length_splitOn (not_not.mp h)
        omega
      · have := one_lt_length_splitOn (not_not.mp h)
        omega
    -- the line has more than the five parts of an edge
    generalize hparts : ([] : List Char) ::
      (e.source.splitOn quote ++ " -> ".toList :: (e.target.splitOn quote ++ [[]])) = parts
    have hmany : 5 < parts.length := by
      rw [← hparts]
      simp only [List.length_cons, List.length_append, List.length_nil]
      omega
    match parts, hmany with
    | _ :: _ :: _ :: _ :: _ :: _ :: _, _ => split <;> simp_all

/-- Blanks in front of a line are of no account. -/
theorem readEdge_indent : readEdge (dotIndent ++ line) = readEdge line := by
  have hblank : ∀ c ∈ dotIndent, decide (c = ' ') = true := by simp [dotIndent]
  have hdrop : (dotIndent ++ line).dropWhile (· = ' ') = line.dropWhile (· = ' ') :=
    List.dropWhile_append_of_pos hblank
  rw [readEdge, readEdge, hdrop]

/-! ### The lines of the text -/

theorem splitOn_unlines {lines : List (List Char)} (h : ∀ line ∈ lines, '\n' ∉ line)
    (rest : List Char) : (unlines lines ++ rest).splitOn '\n' = lines ++ rest.splitOn '\n' := by
  induction lines with
  | nil => rfl
  | cons line lines ih =>
    rw [List.forall_mem_cons] at h
    rw [unlines, List.flatMap_cons, ← unlines, List.append_assoc, List.append_assoc,
      List.singleton_append, List.splitOn_append_cons_self_of_not_mem h.1, ih h.2, List.cons_append]

theorem unlines_append (lines lines' : List (List Char)) :
    unlines (lines ++ lines') = unlines lines ++ unlines lines' := List.flatMap_append

/-- The lines of `cluster_0`. -/
def cluster0Lines (out : Output) : List (List Char) :=
  (out.cluster0.map edgeText ++ colorLines).modifyHead (dotIndent ++ ·)

/-- The text, line by line. -/
theorem dotText_eq_unlines (out : Output) : dotText out =
    unlines (dotHeader ++ cluster0Lines out ++ ["\x7d".toList, cluster1Line] ++
      out.cluster1.map edgeText) ++ "\n\x7d\n     \x7d".toList := by
  have hindent : unlines (cluster0Lines out) =
      dotIndent ++ (unlines (out.cluster0.map edgeText) ++ unlines colorLines) := by
    rw [cluster0Lines, ← unlines_append]
    -- there is a first line, since there are nodes with a color
    cases hbody : out.cluster0.map edgeText ++ colorLines with
    | nil => exact absurd (List.append_eq_nil_iff.mp hbody).2 (by decide)
    | cons line lines => simp [unlines]
  rw [unlines_append, unlines_append, unlines_append, hindent, dotText]
  simp only [List.append_assoc]

/-- An edge is on one line. -/
def DotEdge.OneLine (e : DotEdge) : Prop := '\n' ∉ e.source ∧ '\n' ∉ e.target

theorem newline_not_mem_edgeText (h : e.OneLine) : '\n' ∉ edgeText e := by
  have hsep : '\n' ≠ quote ∧ '\n' ∉ " -> ".toList := by decide
  simp only [edgeText, List.mem_cons, List.mem_append, List.not_mem_nil, or_false, not_or]
  exact ⟨hsep.1, h.1, hsep.1, hsep.2, hsep.1, h.2, hsep.1⟩

theorem quote_mem_edgeText : quote ∈ edgeText e := List.mem_cons_self

/-- The first line of a list is indented. -/
theorem mem_modifyHead_indent {lines : List (List Char)}
    (h : line ∈ lines.modifyHead (dotIndent ++ ·)) :
    line ∈ lines ∨ ∃ line' ∈ lines, line = dotIndent ++ line' := by
  cases lines with
  | nil => exact absurd h List.not_mem_nil
  | cons line' lines =>
    rcases List.mem_cons.mp h with rfl | h
    · exact Or.inr ⟨line', List.mem_cons_self, rfl⟩
    · exact Or.inl (List.mem_cons_of_mem _ h)

/-- What holds of the lines of edges and colors, and does not mind blanks, holds of
the lines of `cluster_0`. -/
theorem forall_mem_cluster0Lines {P : List Char → Prop} {out : Output}
    (hedges : ∀ e ∈ out.cluster0, P (edgeText e)) (hcolors : ∀ line ∈ colorLines, P line)
    (hindent : ∀ line, P line → P (dotIndent ++ line)) : ∀ line ∈ cluster0Lines out, P line := by
  have hall : ∀ line ∈ out.cluster0.map edgeText ++ colorLines, P line := by
    refine List.forall_mem_append.mpr ⟨fun line hline => ?_, hcolors⟩
    obtain ⟨e, he, rfl⟩ := List.mem_map.mp hline
    exact hedges e he
  rintro line hline
  rcases mem_modifyHead_indent hline with hline | ⟨line', hline', rfl⟩
  · exact hall line hline
  · exact hindent line' (hall line' hline')

theorem filterMap_readEdge_edgeText (edges : List DotEdge) :
    (edges.map edgeText).filterMap readEdge = edges.filter fun e => e.Unquoted := by
  rw [List.filterMap_map, ← List.filterMap_eq_filter]
  refine congrArg (List.filterMap · edges) (funext fun e => ?_)
  rw [Function.comp_apply, readEdge_edgeText, Option.guard_eq_ite]
  simp only [decide_eq_true_eq]

/-- The edges in the lines of `cluster_0`. -/
theorem filterMap_readEdge_cluster0Lines (out : Output) :
    (cluster0Lines out).filterMap readEdge = out.cluster0.filter fun e => e.Unquoted := by
  have hindent : ∀ lines : List (List Char),
      (lines.modifyHead (dotIndent ++ ·)).filterMap readEdge = lines.filterMap readEdge := by
    rintro (- | ⟨line, lines⟩)
    · rfl
    · simp only [List.modifyHead_cons, List.filterMap_cons, readEdge_indent]
  have hcolors : colorLines.filterMap readEdge = [] := by decide +kernel
  rw [cluster0Lines, hindent, List.filterMap_append, hcolors, List.append_nil,
    filterMap_readEdge_edgeText]

/-- **What can be read back from the text**: of each graph, the edges whose ends have
no quote, in their order. -/
theorem readDot_dotText {out : Output} (h₀ : ∀ e ∈ out.cluster0, e.OneLine)
    (h₁ : ∀ e ∈ out.cluster1, e.OneLine) : readDot (dotText out) =
      (out.cluster0.filter fun e => e.Unquoted, out.cluster1.filter fun e => e.Unquoted) := by
  have hnl : ∀ line ∈ dotHeader ++ cluster0Lines out ++ ["\x7d".toList, cluster1Line] ++
      out.cluster1.map edgeText, '\n' ∉ line := by
    have hcluster0 : ∀ line ∈ cluster0Lines out, '\n' ∉ line :=
      forall_mem_cluster0Lines (fun e he => newline_not_mem_edgeText (h₀ e he)) (by decide +kernel)
        fun line hline => by simpa [dotIndent] using hline
    refine List.forall_mem_append.mpr ⟨List.forall_mem_append.mpr ⟨List.forall_mem_append.mpr
      ⟨by decide +kernel, hcluster0⟩, by decide⟩, fun line hline => ?_⟩
    obtain ⟨e, he, rfl⟩ := List.mem_map.mp hline
    exact newline_not_mem_edgeText (h₁ e he)
  have hlast : "\n\x7d\n     \x7d".toList.splitOn '\n' =
      [[], "\x7d".toList, "     \x7d".toList] := by decide
  -- the line that begins `cluster_1` is the only one like it up to there
  have hbefore : ∀ line ∈ dotHeader ++ cluster0Lines out ++ ["\x7d".toList],
      line ≠ cluster1Line := by
    have hcluster0 : ∀ line ∈ cluster0Lines out, quote ∈ line :=
      forall_mem_cluster0Lines (fun e _ => quote_mem_edgeText) (by decide +kernel)
        fun line hline => List.mem_append_right _ hline
    refine List.forall_mem_append.mpr ⟨List.forall_mem_append.mpr ⟨by decide +kernel,
      fun line hline heq => ?_⟩, by decide⟩
    exact absurd (heq ▸ hcluster0 line hline) (by decide)
  have hlines : (dotText out).splitOn '\n' =
      (dotHeader ++ cluster0Lines out ++ ["\x7d".toList]) ++
        (cluster1Line :: (out.cluster1.map edgeText ++
          [[], "\x7d".toList, "     \x7d".toList])) := by
    rw [dotText_eq_unlines, splitOn_unlines hnl, hlast]
    simp only [List.append_assoc, List.cons_append, List.nil_append]
  have hheader : dotHeader.filterMap readEdge = [] := by decide +kernel
  have hclose : ["\x7d".toList].filterMap readEdge = [] := by decide +kernel
  have hstart : readEdge cluster1Line = none := by decide +kernel
  have hfooter : [[], "\x7d".toList, "     \x7d".toList].filterMap readEdge = [] := by
    decide +kernel
  rw [readDot, hlines,
    List.takeWhile_append_of_pos fun line hline => decide_eq_true (hbefore line hline),
    List.dropWhile_append_of_pos fun line hline => decide_eq_true (hbefore line hline),
    List.takeWhile_cons_of_neg (by simp), List.dropWhile_cons_of_neg (by simp), List.append_nil,
    List.filterMap_append, List.filterMap_append, hheader, hclose, List.nil_append, List.append_nil,
    List.filterMap_cons_none hstart, List.filterMap_append, hfooter, List.append_nil,
    filterMap_readEdge_cluster0Lines, filterMap_readEdge_edgeText]

/-! ### The names in a file -/

/-- A line that is split off has no newline. -/
theorem newline_not_mem_of_mem_splitOn (content : List Char) :
    ∀ line ∈ content.splitOn '\n', '\n' ∉ line := by
  induction content with
  | nil => simp
  | cons c content ih =>
    rw [List.splitOn_cons_eq_if_modifyHead]
    split
    case isTrue => exact List.forall_mem_cons.mpr ⟨List.not_mem_nil, ih⟩
    case isFalse hne =>
      cases hlines : content.splitOn '\n' with
      | nil => exact absurd hlines (List.splitOn_ne_nil _ _)
      | cons line lines =>
        rw [hlines, List.forall_mem_cons] at ih
        refine List.forall_mem_cons.mpr ⟨?_, ih.2⟩
        rw [List.mem_cons, not_or]
        exact ⟨fun heq => hne (beq_iff_eq.mpr heq.symm), ih.1⟩

/-- A name is made of characters of the text, of the name being read, and of its
extension. -/
theorem mem_of_mem_scanText (skip : ℕ) (key : Option (List Char)) (text : List Char) {c : Char} :
    ∀ name ∈ scanText skip key text, c ∈ name →
      c ∈ text ∨ c ∈ key.getD [] ∨ c ∈ ['.', 'k', 'o'] := by
  induction skip, key, text using scanText.induct with
  | case1 skip key => simp [scanText]
  | case2 skip key d text ih =>
    intro name hname hc
    rw [scanText] at hname
    exact (ih name hname hc).imp_left (List.mem_cons_of_mem _)
  | case3 d text halpha ih =>
    intro name hname hc
    rw [scanText, if_pos halpha] at hname
    rcases ih name hname hc with h | h | h
    · exact Or.inl (List.mem_cons_of_mem _ h)
    · exact Or.inl (List.mem_singleton.mp h ▸ List.mem_cons_self)
    · exact Or.inr (Or.inr h)
  | case4 d text halpha ih =>
    intro name hname hc
    rw [scanText, if_neg halpha] at hname
    exact (ih name hname hc).imp_left (List.mem_cons_of_mem _)
  | case5 first text ih =>
    intro name hname hc
    rw [scanText, if_pos rfl] at hname
    rcases ih name hname hc with h | h | h
    · exact Or.inl (List.mem_cons_of_mem _ h)
    · exact absurd h List.not_mem_nil
    · exact Or.inr (Or.inr h)
  | case6 first text hko hne ih =>
    intro name hname hc
    rw [scanText, if_neg hne, if_pos rfl, if_pos hko, List.mem_cons] at hname
    rcases hname with rfl | hname
    · exact Or.inr (List.mem_append.mp hc)
    · rcases ih name hname hc with h | h | h
      · exact Or.inl (List.mem_cons_of_mem _ h)
      · exact absurd h List.not_mem_nil
      · exact Or.inr (Or.inr h)
  | case7 first text hko hne ih =>
    intro name hname hc
    rw [scanText, if_neg hne, if_pos rfl, if_neg hko] at hname
    rcases ih name hname hc with h | h | h
    · exact Or.inl (List.mem_cons_of_mem _ h)
    · exact absurd h List.not_mem_nil
    · exact Or.inr (Or.inr h)
  | case8 first d text hslash hdot ih =>
    intro name hname hc
    rw [scanText, if_neg hslash, if_neg hdot] at hname
    rcases ih name hname hc with h | h | h
    · exact Or.inl (List.mem_cons_of_mem _ h)
    · rcases List.mem_append.mp h with h | h
      · exact Or.inr (Or.inl h)
      · exact Or.inl (List.mem_singleton.mp h ▸ List.mem_cons_self)
    · exact Or.inr (Or.inr h)

/-- The names on a line have no newline if the line has none. -/
theorem newline_not_mem_lineNames (hline : '\n' ∉ line) : ∀ name ∈ lineNames line, '\n' ∉ name := by
  intro name hname hmem
  rcases mem_of_mem_scanText 0 none _ name hname hmem with h | h | h
  · exact hline (List.takeWhile_subset _ h)
  · exact absurd h List.not_mem_nil
  · exact absurd h (by decide)

/-- The edge between the nodes of `cluster_1`. -/
def DotEdge.second (e : DotEdge) : DotEdge := ⟨e.source ++ ['.', '2'], e.target ++ ['.', '2']⟩

/-- The edges of a file are on one line. -/
theorem oneLine_of_mem_lineEdges {content : List Char}
    (he : e ∈ (processedLines content).flatMap lineEdges) : e.OneLine := by
  obtain ⟨line, hline, he⟩ := List.mem_flatMap.mp he
  have hnl : '\n' ∉ line := by
    refine newline_not_mem_of_mem_splitOn content line ?_
    exact (List.dropLast_subset _) ((List.takeWhile_subset _) hline)
  have hnames := newline_not_mem_lineNames hnl
  rw [lineEdges] at he
  cases hlist : lineNames line with
  | nil => simp [hlist, namesEdges] at he
  | cons first rest =>
    rw [hlist] at he hnames
    obtain ⟨name, hname, rfl⟩ := List.mem_map.mp he
    exact ⟨hnames name (List.mem_cons_of_mem _ hname), hnames first List.mem_cons_self⟩

theorem DotEdge.oneLine_second (h : e.OneLine) : e.second.OneLine := by
  simpa [DotEdge.OneLine, DotEdge.second] using h

theorem DotEdge.unquoted_second : e.second.Unquoted ↔ e.Unquoted := by
  have hsuffix : quote ∉ ['.', '2'] := by decide
  simp only [DotEdge.Unquoted, DotEdge.second, List.mem_append, hsuffix, or_false]

/-- The edges of a line have no quotes exactly when its names have none. -/
theorem unquoted_namesEdges (names : List (List Char)) :
    (∀ e ∈ namesEdges names, e.Unquoted) ↔
      (1 < names.length → ∀ name ∈ names, quote ∉ name) := by
  match names with
  | [] | [first] => simp [namesEdges]
  | first :: second :: rest =>
    simp only [namesEdges, List.forall_mem_map, DotEdge.Unquoted, List.length_cons,
      Nat.lt_add_left_iff_pos, Nat.zero_lt_succ, true_implies]
    constructor
    · intro h
      exact List.forall_mem_cons.mpr ⟨(h second List.mem_cons_self).2, fun name hname =>
        (h name hname).1⟩
    · intro h name hname
      exact ⟨h name (List.mem_cons_of_mem _ hname), h first List.mem_cons_self⟩

/-! ### The whole program -/

section

variable [LinearOrder Module] {fuel : ℕ} {cline content : List Char} {out : Output}

/-- **Every edge of `cluster_1` is one of `cluster_0`**, whenever the program comes to
its end, and the edges of `cluster_0` are those of the processed lines. -/
theorem buildDepends_edges (h : buildDepends fuel cline content = some out) :
    out.cluster0 = (processedLines content).flatMap lineEdges ∧
      ∀ e ∈ out.cluster1, ∃ e₀ ∈ out.cluster0, e = e₀.second := by
  obtain ⟨r, hread, -⟩ := readFile_spec cline content
  obtain ⟨hedges, hrec⟩ := recorded_of_readFile hread
  rw [buildDepends, hread, Option.bind_eq_bind, Option.bind_some] at h
  obtain ⟨⟨kept, m'⟩, hwalk, h⟩ := Option.bind_eq_some_iff.mp h
  obtain ⟨cluster1, hprint, h⟩ := Option.bind_eq_some_iff.mp h
  obtain rfl := Option.some.inj h
  obtain ⟨hprinted, hkept⟩ := printDepends_of_reduceDepends hread hwalk
  obtain rfl := Option.some.inj (hprinted.symm.trans hprint)
  refine ⟨hedges, fun e he => ?_⟩
  obtain ⟨⟨p, deps⟩, hx, he⟩ := List.mem_flatMap.mp he
  cases p with
  | bot => exact absurd he List.not_mem_nil
  | coe mod =>
    obtain ⟨it1, hit1, rfl⟩ := List.mem_map.mp he
    have hedge : Edge r.depends mod it1 :=
      (hkept _ hx).subset (List.mem_filter.mp hit1).1
    exact ⟨_, hrec.edge_iff.mp hedge, rfl⟩

/-- The text that is written can be read back exactly when no name has a quote. -/
theorem readDot_dotText_iff (hbuild : buildDepends fuel cline content = some out) :
    readDot (dotText out) = (out.cluster0, out.cluster1) ↔
      ∀ line ∈ processedLines content, 1 < (lineNames line).length →
        ∀ name ∈ lineNames line, quote ∉ name := by
  obtain ⟨hedges, hsecond⟩ := buildDepends_edges hbuild
  have hone : ∀ e ∈ out.cluster0, e.OneLine := by
    rw [hedges]
    exact fun e he => oneLine_of_mem_lineEdges he
  have hone₁ : ∀ e ∈ out.cluster1, e.OneLine := by
    intro e he
    obtain ⟨e₀, he₀, rfl⟩ := hsecond e he
    exact DotEdge.oneLine_second (hone e₀ he₀)
  have hlines : (∀ line ∈ processedLines content, 1 < (lineNames line).length →
      ∀ name ∈ lineNames line, quote ∉ name) ↔ ∀ e ∈ out.cluster0, e.Unquoted := by
    rw [hedges]
    simp only [List.mem_flatMap, forall_exists_index, and_imp]
    constructor
    · intro h e line hline
      exact (unquoted_namesEdges _).mpr (h line hline) e
    · intro h line hline
      exact (unquoted_namesEdges _).mp fun e he => h e line hline he
  rw [readDot_dotText hone hone₁, Prod.mk.injEq, List.filter_eq_self, List.filter_eq_self, hlines]
  simp only [decide_eq_true_eq]
  refine ⟨fun h => h.1, fun h => ⟨h, fun e he => ?_⟩⟩
  obtain ⟨e₀, he₀, rfl⟩ := hsecond e he
  exact DotEdge.unquoted_second.mpr (h e₀ he₀)

/-- With a file to read, the program writes the text of the two graphs. -/
theorem main_of_buildDepends (files : List Char → List Char) (prog name : List Char)
    (argv : List (List Char)) (hbuild : buildDepends fuel cline (files name) = some out) :
    main fuel cline files (prog :: name :: argv) = some ⟨dotText out, 0⟩ := by
  rw [main, hbuild]
  rfl

/-- **The quotes tell the names apart exactly when no name has one.** Whenever the
program comes to its end, on any file, the two graphs are what
`KernelConfiguration.readDot`, which takes names between quotes, reads in the text it has
written, if and only if no line that is processed and has more than one name has a name
with a quote. -/
theorem readDot_main_iff (files : List Char → List Char) (prog name : List Char)
    (argv : List (List Char)) (hbuild : buildDepends fuel cline (files name) = some out) :
    main fuel cline files (prog :: name :: argv) = some ⟨dotText out, 0⟩ ∧
      (readDot (dotText out) = (out.cluster0, out.cluster1) ↔
        ∀ line ∈ processedLines (files name), 1 < (lineNames line).length →
          ∀ name' ∈ lineNames line, quote ∉ name') :=
  ⟨main_of_buildDepends files prog name argv hbuild, readDot_dotText_iff hbuild⟩

end

/-- The text written for `KernelConfiguration.sndSeq` can be read back. -/
theorem readDot_main_sndSeq :
    ∃ fuel out, @main nameOrder fuel [] (fun _ => sndSeq) [[], []] = some ⟨dotText out, 0⟩ ∧
      readDot (dotText out) = (out.cluster0, out.cluster1) := by
  let _ := nameOrder
  obtain ⟨r, hread, -⟩ := readFile_spec [] sndSeq
  obtain ⟨N, hN⟩ := buildDepends_spec hread (detour_sndSeq.acyclic hread)
  obtain ⟨out, hout, -⟩ := hN N (Nat.le_refl N)
  obtain ⟨hmain, hiff⟩ := readDot_main_iff (fun _ => sndSeq) [] [] [] hout
  exact ⟨N, out, hmain, hiff.mpr (by decide +kernel)⟩

/-! ### Well-formed files -/

/-- The file names on a well-formed line. -/
def DepLine.names (l : DepLine) : List (List Char) := l.parts.map fun x => x.1.file

/-- The text of a file of well-formed lines. -/
def depText (lines : List DepLine) : List Char := unlines (lines.map fun l => lineText l.parts)

/-- **The module needs the other one**: some line says so. -/
def Needs (lines : List DepLine) (a b : Module) : Prop :=
  ∃ l ∈ lines, ⟨b.name, a.name⟩ ∈ namesEdges l.names

/-- The names that the scanner finds on a well-formed line. -/
theorem lineNames_depLine (l : DepLine) : lineNames (lineText l.parts) = l.names := by
  have hnul : nul ∉ lineText l.parts := nul_not_mem_lineText fun x hx => (l.sep_chars x hx).1
  have hall : (lineText l.parts).takeWhile (· ≠ nul) = lineText l.parts := by
    rw [List.takeWhile_eq_self_iff]
    intro c hc
    simpa using fun heq : c = nul => hnul (heq ▸ hc)
  rw [lineNames, hall]
  exact scanText_lineText [] l.sep_ne fun k hk => by
    simpa only [List.length_nil, Nat.zero_add] using l.ko_only k hk

theorem newline_not_mem_lineText {parts : List (ModulePath × List Char)}
    (h : ∀ x ∈ parts, '\n' ∉ x.2) : '\n' ∉ lineText parts := by
  induction parts with
  | nil => exact List.not_mem_nil
  | cons x parts ih =>
    obtain ⟨p, sep⟩ := x
    have hsep : '\n' ∉ sep := h (p, sep) List.mem_cons_self
    have hrest := ih fun x hx => h x (List.mem_cons_of_mem _ hx)
    simp [lineText, ModulePath.stem, p.dir_chars.2, p.base_chars.2.2.2, hsep, hrest]

/-- Lines that are short enough and ended by a newline are all processed. -/
theorem processedLines_unlines {lines : List (List Char)} (hnl : ∀ line ∈ lines, '\n' ∉ line)
    (hlen : ∀ line ∈ lines, line.length < 1000) : processedLines (unlines lines) = lines := by
  induction lines with
  | nil => rfl
  | cons line lines ih =>
    rw [List.forall_mem_cons] at hnl hlen
    rw [unlines, List.flatMap_cons, ← unlines, List.append_assoc, List.singleton_append,
      processedLines_line hnl.1, if_pos hlen.1, ih hnl.2 hlen.2]

/-- The edges that are written for a well-formed file. -/
theorem lineEdges_depText {lines : List DepLine}
    (hlen : ∀ l ∈ lines, (lineText l.parts).length < 1000) :
    processedLines (depText lines) = lines.map (fun l => lineText l.parts) ∧
      (processedLines (depText lines)).flatMap lineEdges =
        lines.flatMap fun l => namesEdges l.names := by
  have hlines : processedLines (depText lines) = lines.map fun l => lineText l.parts := by
    refine processedLines_unlines ?_ ?_
    · rw [List.forall_mem_map]
      exact fun l _ => newline_not_mem_lineText fun x hx => (l.sep_chars x hx).2
    · rwa [List.forall_mem_map]
  refine ⟨hlines, ?_⟩
  rw [hlines, List.flatMap_map]
  refine congrArg (List.flatMap · lines) (funext fun l => ?_)
  rw [lineEdges, lineNames_depLine]

/-- The graph that the program reads in a well-formed file. -/
theorem edge_eq_needs [LinearOrder Module] {lines : List DepLine} {cline : List Char} {r : Reader}
    (hlen : ∀ l ∈ lines, (lineText l.parts).length < 1000)
    (hread : readFile cline (depText lines) = some r) : Edge r.depends = Needs lines := by
  obtain ⟨hcluster0, hrec⟩ := recorded_of_readFile hread
  funext a b
  rw [hrec.edge_iff, hcluster0, (lineEdges_depText hlen).2, List.mem_flatMap, Needs]

/-- **What the program makes of a well-formed file**, from the text it reads to the
text it writes. If the lines are short enough, no file name has a quote, and no module
needs itself, the program ends with status zero, and
`KernelConfiguration.readDot` reads in the text it has written: as the first graph, the
list of what the lines say; as the second one, an edge wherever a module needs an
ordinary module directly and through no other one. If all modules named are ordinary,
a module can be followed to another one in the second graph exactly when it needs it,
directly or not. -/
theorem main_depLines [LinearOrder Module] (lines : List DepLine) (cline prog name : List Char)
    (argv : List (List Char)) (files : List Char → List Char) (hfile : files name = depText lines)
    (hlen : ∀ l ∈ lines, (lineText l.parts).length < 1000)
    (hquote : ∀ l ∈ lines, ∀ x ∈ l.parts, quote ∉ x.1.base)
    (hac : ∀ a, ¬Relation.TransGen (Needs lines) a a) :
    ∃ N, ∀ fuel ≥ N, ∃ text, main fuel cline files (prog :: name :: argv) = some ⟨text, 0⟩ ∧
      (readDot text).1 = (lines.flatMap fun l => namesEdges l.names) ∧
      (∀ a b, PrintedEdge (readDot text).2 a b ↔ Kept (Needs lines) a b ∧ b.type = .module) ∧
      ((∀ l ∈ lines, ∀ x ∈ l.parts, getType x.1.file = .module) →
        ∀ a b, Relation.TransGen (PrintedEdge (readDot text).2) a b ↔
          Relation.TransGen (Needs lines) a b) := by
  obtain ⟨hlines, hedges⟩ := lineEdges_depText hlen
  obtain ⟨r, hread, -⟩ := readFile_spec cline (files name)
  have hneeds : Edge r.depends = Needs lines := edge_eq_needs hlen (hfile ▸ hread)
  have hac' : ∀ a, ¬Relation.TransGen (Edge r.depends) a a := hneeds ▸ hac
  obtain ⟨rank, hsearch, -⟩ := exists_searchable (readFile_get_bot hread) hac'
  obtain ⟨N, hN⟩ := buildDepends_spec hread hac'
  refine ⟨N, fun fuel hfuel => ?_⟩
  obtain ⟨out, hout, hprinted⟩ := hN fuel hfuel
  have hback : readDot (dotText out) = (out.cluster0, out.cluster1) := by
    refine (readDot_dotText_iff hout).mpr ?_
    rw [hfile, hlines, List.forall_mem_map]
    intro l hl _ name' hname'
    rw [lineNames_depLine, DepLine.names] at hname'
    obtain ⟨x, hx, rfl⟩ := List.mem_map.mp hname'
    have hko : quote ∉ ['.', 'k', 'o'] := by decide
    simp only [ModulePath.file, List.mem_append, hquote l hl x hx, hko, or_false, not_false_eq_true]
  refine ⟨dotText out, main_of_buildDepends files prog name argv hout, ?_, ?_, ?_⟩
  · rw [hback, (buildDepends_edges hout).1, hfile, hedges]
  · rw [hback, ← hneeds]
    exact hprinted
  · intro htype a b
    rw [hback, ← hneeds, ← transGen_kept hsearch.isRank]
    refine iff_of_eq (congrArg (Relation.TransGen · a b) ?_)
    funext a b
    refine propext ((hprinted a b).trans (and_iff_left_of_imp fun hkept => ?_))
    -- what is needed is named on a line, and what is named is ordinary
    have hneed : Needs lines a b := hneeds ▸ hkept.1
    obtain ⟨l, hl, hmem⟩ := hneed
    rw [DepLine.names] at hmem
    cases hparts : l.parts with
    | nil => exact absurd hparts l.parts_ne
    | cons x rest =>
      rw [hparts] at hmem
      obtain ⟨file, hin, heq⟩ := List.mem_map.mp hmem
      obtain ⟨y, hy, rfl⟩ := List.mem_map.mp hin
      rw [b.type_eq, ← (DotEdge.mk.inj heq).1]
      exact htype l hl y (hparts ▸ List.mem_cons_of_mem _ hy)

/-- The path of a module in the directory `kernel`. -/
def kernelPath (base : List Char) (base_ne : base ≠ [])
    (base_chars : '.' ∉ base ∧ '/' ∉ base ∧ nul ∉ base ∧ '\n' ∉ base) : ModulePath where
  dir := "kernel".toList
  base := base
  base_ne := base_ne
  base_chars := base_chars
  dir_chars := by decide
  dir_letter := ⟨[], 'k', "ernel".toList, rfl, by decide, by decide⟩

/-- The lines of `KernelConfiguration.sndSeq`. -/
def sndSeqLines : List DepLine :=
  let seq := kernelPath "snd-seq".toList (by decide) (by decide)
  let device := kernelPath "snd-seq-device".toList (by decide) (by decide)
  let midi := kernelPath "snd-seq-midi".toList (by decide) (by decide)
  [.pair seq device (by decide) (by decide), .pair midi device (by decide) (by decide),
    .pair midi seq (by decide) (by decide)]

/-- Of the three dependencies of `KernelConfiguration.sndSeq`, the one that the other two
make superfluous is written to the first graph only, and can be followed in the
second. -/
theorem main_sndSeqLines : ∃ N, ∀ fuel ≥ N, ∃ text,
    @main nameOrder fuel [] (fun _ => sndSeq) [[], []] = some ⟨text, 0⟩ ∧
      (readDot text).1 = [⟨"snd-seq-device.ko".toList, "snd-seq.ko".toList⟩,
        ⟨"snd-seq-device.ko".toList, "snd-seq-midi.ko".toList⟩,
        ⟨"snd-seq.ko".toList, "snd-seq-midi.ko".toList⟩] ∧
      ¬PrintedEdge (readDot text).2 (moduleOf "snd-seq-midi.ko".toList)
        (moduleOf "snd-seq-device.ko".toList) ∧
      Relation.TransGen (PrintedEdge (readDot text).2) (moduleOf "snd-seq-midi.ko".toList)
        (moduleOf "snd-seq-device.ko".toList) := by
  let _ := nameOrder
  have htext : sndSeq = depText sndSeqLines := by decide +kernel
  have hlen : ∀ l ∈ sndSeqLines, (lineText l.parts).length < 1000 := by decide +kernel
  obtain ⟨r, hread, -⟩ := readFile_spec [] sndSeq
  have hneeds : Edge r.depends = Needs sndSeqLines := edge_eq_needs hlen (htext ▸ hread)
  have hedge := fun a b => detour_sndSeq.edge_iff hread (a := a) (b := b)
  rw [hneeds] at hedge
  obtain ⟨N, hN⟩ := main_depLines sndSeqLines [] [] [] [] (fun _ => sndSeq) htext hlen
    (by decide +kernel) (hneeds ▸ detour_sndSeq.acyclic hread)
  refine ⟨N, fun fuel hfuel => ?_⟩
  obtain ⟨text, hmain, hfirst, hsecond, hreach⟩ := hN fuel hfuel
  refine ⟨text, hmain, hfirst.trans (by decide +kernel), fun hprinted => ?_, ?_⟩
  · -- there is a way around the dependency, through the sequencer
    have hkept := ((hsecond _ _).mp hprinted).1
    refine hkept.2 (moduleOf "snd-seq.ko".toList) ((hedge _ _).mpr (Or.inr ⟨rfl, Or.inr rfl⟩)) ?_
      (.single ((hedge _ _).mpr (Or.inl ⟨rfl, rfl⟩)))
    exact fun hcon => absurd (moduleOf_inj.mp hcon) (by decide)
  · exact (hreach (by decide +kernel) _ _).mpr
      (.single ((hedge _ _).mpr (Or.inr ⟨rfl, Or.inl rfl⟩)))

end KernelConfiguration
