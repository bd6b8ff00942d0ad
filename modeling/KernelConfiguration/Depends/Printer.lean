import Mathlib.Data.List.Basic
import KernelConfiguration.Depends.Reader
import KernelConfiguration.Depends.Reduction

/-!
# The graph build-depends writes

The second graph of the output, `cluster_1`, is what two transformations leave of
the dependencies read: the reduction drops a dependency that is *found also in
another path* (`KernelConfiguration.Depends.Reduction`), and the loop that writes
the lists then passes over the dependencies on subsystems and on symbols. Each is
harmless by itself. Together they are not, for the path that made a dependency
superfluous may be one that is not written: `snd-hda-controller` depends on
`snd-pcm`, and through `snd-hda-codec`, which only provides symbols. The first
dependency is dropped because of the second, and the second is not written.

`KernelConfiguration.buildDepends_complete_iff` says when nothing is lost: when
every dependency on an ordinary module that is dropped has a detour through
ordinary modules.
-/

namespace KernelConfiguration

/-! ### Writing the lists -/

/-- The node of a module in `cluster_1`. -/
def node (m : Module) : List Char := m.name ++ ['.', '2']

theorem node_inj {a b : Module} : node a = node b ↔ a = b := by
  constructor
  · intro h
    rw [← moduleOf_name a, ← moduleOf_name b, List.append_cancel_right h]
  · exact fun h => h ▸ rfl

/-- The edges written for the key `p`: the dependencies of type `module`. Writing
one dereferences the key, which must not be null then. -/
def printModule (p : WithBot Module) (deps : List Module) : Option (List DotEdge) :=
  match deps.filter fun it1 => it1.type = .module with
  | [] => some []
  | printed => (pointee p).map fun mod => printed.map fun it1 => ⟨node it1, node mod⟩

/-- The edges written for all keys. -/
def printDepends : List (WithBot Module × List Module) → Option (List DotEdge)
  | [] => some []
  | (p, deps) :: rest => do
    let edges ← printModule p deps
    let more ← printDepends rest
    return edges ++ more

/-- **The edge is in the graph written**: it goes from the node of the dependency
to that of the module that depends on it. -/
def PrintedEdge (cluster1 : List DotEdge) (a b : Module) : Prop := ⟨node b, node a⟩ ∈ cluster1

/-- One key is written without a null dereference, and its edges are those to its
dependencies of type `module`. -/
theorem printModule_spec {p : WithBot Module} {deps : List Module} (hbot : p = ⊥ → deps = []) :
    ∃ edges, printModule p deps = some edges ∧
      ∀ a b, PrintedEdge edges a b ↔ p = a ∧ b ∈ deps ∧ b.type = .module := by
  rw [printModule]
  cases hfilter : deps.filter fun it1 => it1.type = .module with
  | nil =>
    refine ⟨[], rfl, fun a b => ⟨nofun, ?_⟩⟩
    rintro ⟨-, hb, htype⟩
    have hmem : b ∈ deps.filter fun it1 => it1.type = .module :=
      List.mem_filter.mpr ⟨hb, by simpa using htype⟩
    rw [hfilter] at hmem
    exact absurd hmem List.not_mem_nil
  | cons d ds =>
    obtain ⟨mod, rfl⟩ : ∃ mod : Module, p = mod := by
      cases p with
      | bot => simp [hbot rfl] at hfilter
      | coe mod => exact ⟨mod, rfl⟩
    refine ⟨_, rfl, fun a b => ?_⟩
    rw [← hfilter, PrintedEdge, List.mem_map, WithBot.coe_inj]
    constructor
    · rintro ⟨it1, hit, heq⟩
      obtain ⟨h₁, h₂⟩ := DotEdge.mk.inj heq
      obtain rfl := node_inj.mp h₁
      obtain rfl := node_inj.mp h₂
      have hmem := List.mem_filter.mp hit
      exact ⟨rfl, hmem.1, by simpa using hmem.2⟩
    · rintro ⟨rfl, hb, htype⟩
      exact ⟨b, List.mem_filter.mpr ⟨hb, by simpa using htype⟩, rfl⟩

/-- **The graph written is that of the kept lists, filtered by type.** -/
theorem printDepends_spec {kept : List (WithBot Module × List Module)}
    (hbot : ∀ x ∈ kept, x.1 = ⊥ → x.2 = []) :
    ∃ cluster1, printDepends kept = some cluster1 ∧
      ∀ a b, PrintedEdge cluster1 a b ↔ KeptEdge kept a b ∧ b.type = .module := by
  induction kept with
  | nil =>
    refine ⟨[], rfl, fun a b => ⟨nofun, ?_⟩⟩
    rintro ⟨⟨deps, hmem, -⟩, -⟩
    exact absurd hmem List.not_mem_nil
  | cons x kept ih =>
    obtain ⟨p, deps⟩ := x
    obtain ⟨edges, hedges, hp⟩ := printModule_spec (hbot (p, deps) List.mem_cons_self)
    obtain ⟨more, hmore, hrest⟩ := ih fun x hx => hbot x (List.mem_cons_of_mem _ hx)
    refine ⟨edges ++ more, by rw [printDepends, hedges, hmore]; rfl, fun a b => ?_⟩
    have happend : PrintedEdge (edges ++ more) a b ↔ PrintedEdge edges a b ∨ PrintedEdge more a b :=
      List.mem_append
    rw [happend, hp, hrest]
    constructor
    · rintro (⟨rfl, hb, htype⟩ | ⟨⟨deps', hmem, hb⟩, htype⟩)
      · exact ⟨⟨deps, List.mem_cons_self, hb⟩, htype⟩
      · exact ⟨⟨deps', List.mem_cons_of_mem _ hmem, hb⟩, htype⟩
    · rintro ⟨⟨deps', hmem, hb⟩, htype⟩
      rcases List.mem_cons.mp hmem with heq | hmem
      · obtain ⟨rfl, rfl⟩ := Prod.mk.inj heq
        exact Or.inl ⟨rfl, hb, htype⟩
      · exact Or.inr ⟨⟨deps', hmem, hb⟩, htype⟩

/-! ### The whole program -/

/-- What the program writes. -/
structure Output where
  /-- The dependencies as they are read. -/
  cluster0 : List DotEdge
  /-- The reduced dependencies on modules. -/
  cluster1 : List DotEdge
  deriving DecidableEq, Repr

section

variable [LinearOrder Module] {cline content : List Char} {r : Reader}

/-- **The program** (`main`): the file is read, the dependencies are reduced, and
what is left is written. The first argument bounds the rounds of the reduction and
the depth of its search. -/
def buildDepends (fuel : ℕ) (cline content : List Char) : Option Output := do
  let r ← readFile cline content
  let (kept, _) ← reduceDepends fuel r.depends
  let cluster1 ← printDepends kept
  return ⟨r.cluster0, cluster1⟩

/-- Nothing is read under the null pointer. -/
theorem readFile_get_bot (hread : readFile cline content = some r) : r.depends.get ⊥ = [] := by
  obtain ⟨r', hr', hget⟩ := readFile_spec cline content
  rw [hread, Option.some.injEq] at hr'
  rw [hr', hget, List.flatMap_eq_nil_iff]
  intro line _
  rw [lineDeps]
  cases lineNames line with
  | nil => rfl
  | cons first rest => rw [namesDeps, if_neg WithBot.bot_ne_coe]

/-- **The graph written is that of the kept edges into modules.** -/
theorem buildDepends_spec (hread : readFile cline content = some r)
    (hac : ∀ a, ¬Relation.TransGen (Edge r.depends) a a) :
    ∃ N, ∀ fuel ≥ N, ∃ out, buildDepends fuel cline content = some out ∧
      ∀ a b, PrintedEdge out.cluster1 a b ↔ Kept (Edge r.depends) a b ∧ b.type = .module := by
  have hbot := readFile_get_bot hread
  obtain ⟨N, hN⟩ := exists_reduceDepends hbot hac
  refine ⟨N, fun fuel hfuel => ?_⟩
  obtain ⟨kept, m', hwalk, hkeys, -, hkept⟩ := hN fuel hfuel
  -- the null pointer may have been entered by the search, with an empty list
  have hnull : ∀ x ∈ kept, x.1 = ⊥ → x.2 = [] := by
    intro x hx hp
    rw [hkept x hx, hp, hbot]
    rfl
  obtain ⟨cluster1, hprint, hedges⟩ := printDepends_spec hnull
  refine ⟨⟨r.cluster0, cluster1⟩, ?_, fun a b => ?_⟩
  · rw [buildDepends, hread]
    simp [hwalk, hprint]
  · rw [hedges, keptEdge_iff hkeys hkept]

/-- **When the graph written loses no dependency on a module.** On every file
whose dependencies have no cycle the program comes to its end, and every dependency
on a module that was read can be followed in the graph written if and only if each
of them that is also reached through another dependency is reached through modules
only. -/
theorem buildDepends_complete_iff (hread : readFile cline content = some r)
    (hac : ∀ a, ¬Relation.TransGen (Edge r.depends) a a) :
    ∃ N, ∀ fuel ≥ N, ∃ out, buildDepends fuel cline content = some out ∧
      ((∀ a b, Edge r.depends a b → b.type = .module →
          Relation.TransGen (PrintedEdge out.cluster1) a b) ↔
        ∀ a b c, Edge r.depends a b → b.type = .module → Edge r.depends a c → c ≠ b →
          Relation.TransGen (Edge r.depends) c b →
          ∃ d, Edge r.depends a d ∧ d.type = .module ∧
            Relation.TransGen (fun x y => Edge r.depends x y ∧ y.type = .module) d b) := by
  obtain ⟨rank, hsearch, -⟩ := exists_searchable (readFile_get_bot hread) hac
  obtain ⟨N, hN⟩ := buildDepends_spec hread hac
  refine ⟨N, fun fuel hfuel => ?_⟩
  obtain ⟨out, hout, hedges⟩ := hN fuel hfuel
  have hprinted : PrintedEdge out.cluster1 =
      fun a b => Kept (Edge r.depends) a b ∧ b.type = .module :=
    funext fun a => funext fun b => propext (hedges a b)
  refine ⟨out, hout, ?_⟩
  rw [hprinted]
  exact transGen_kept_filter_iff hsearch.isRank

/-! ### Three modules -/

/-- A file in which `y` depends on `z`, and `x` on `z` and on `y`. -/
structure Detour (content x y z : List Char) : Prop where
  /-- The names on its lines. -/
  names : (processedLines content).map lineNames = [[y, z], [x, z], [x, y]]
  /-- The names are different. -/
  ne_xy : x ≠ y
  /-- The names are different. -/
  ne_xz : x ≠ z
  /-- The names are different. -/
  ne_yz : y ≠ z

variable {x y z : List Char}

theorem Detour.edge_iff (h : Detour content x y z) (hread : readFile cline content = some r)
    {a b : Module} : Edge r.depends a b ↔ (a = moduleOf y ∧ b = moduleOf z) ∨
      (a = moduleOf x ∧ (b = moduleOf z ∨ b = moduleOf y)) := by
  obtain ⟨r', hr', hget⟩ := readFile_spec cline content
  rw [hread, Option.some.injEq] at hr'
  have hdeps : r.depends.get a =
      namesDeps a [y, z] ++ (namesDeps a [x, z] ++ namesDeps a [x, y]) := by
    have hmap := congrArg (List.flatMap (namesDeps a)) h.names
    rw [List.flatMap_map] at hmap
    rw [hr', hget]
    exact hmap.trans (by simp)
  rw [Edge, hdeps, List.mem_append, List.mem_append, namesDeps, namesDeps, namesDeps]
  simp only [WithBot.coe_inj]
  by_cases hy : a = moduleOf y
  · simp [hy, moduleOf_inj, h.ne_xy.symm]
  · by_cases hx : a = moduleOf x
    · simp [hx, moduleOf_inj, h.ne_xy]
    · simp [hx, hy]

/-- The rank of the three modules. -/
def Detour.rank (x y : List Char) (a : Module) : ℕ :=
  if a = moduleOf x then 2 else if a = moduleOf y then 1 else 0

theorem Detour.rank_z (h : Detour content x y z) : Detour.rank x y (moduleOf z) = 0 := by
  simp [Detour.rank, moduleOf_inj, h.ne_xz.symm, h.ne_yz.symm]

theorem Detour.isRank (h : Detour content x y z) (hread : readFile cline content = some r) :
    IsRank (Edge r.depends) (Detour.rank x y) := by
  intro a b hab
  rcases (h.edge_iff hread).mp hab with ⟨rfl, rfl⟩ | ⟨rfl, rfl | rfl⟩
  · rw [h.rank_z]
    simp [Detour.rank, moduleOf_inj, h.ne_xy.symm]
  · rw [h.rank_z]
    simp [Detour.rank]
  · simp [Detour.rank, moduleOf_inj, h.ne_xy.symm]

theorem Detour.acyclic (h : Detour content x y z) (hread : readFile cline content = some r)
    (a : Module) : ¬Relation.TransGen (Edge r.depends) a a :=
  fun ha => Nat.lt_irrefl _ ((h.isRank hread).lt_of_transGen ha)

end

/-- Three modules of the sequencer, all of them ordinary. -/
def sndSeq : List Char :=
  ("kernel/snd-seq.ko: kernel/snd-seq-device.ko\n" ++
    "kernel/snd-seq-midi.ko: kernel/snd-seq-device.ko\n" ++
    "kernel/snd-seq-midi.ko: kernel/snd-seq.ko\n").toList

theorem detour_sndSeq : Detour sndSeq "snd-seq-midi.ko".toList "snd-seq.ko".toList
    "snd-seq-device.ko".toList :=
  ⟨by decide +kernel, by decide, by decide, by decide⟩

/-- The graph written for `KernelConfiguration.sndSeq` loses nothing: the
dependency that is dropped has a detour through a module. -/
theorem buildDepends_sndSeq :
    ∃ (_ : LinearOrder Module) (r : Reader), readFile [] sndSeq = some r ∧
      ∃ N, ∀ fuel ≥ N, ∃ out, buildDepends fuel [] sndSeq = some out ∧
        ∀ a b, Edge r.depends a b → b.type = .module →
          Relation.TransGen (PrintedEdge out.cluster1) a b := by
  refine ⟨nameOrder, ?_⟩
  let _ := nameOrder
  obtain ⟨r, hread, -⟩ := readFile_spec [] sndSeq
  obtain ⟨N, hN⟩ := buildDepends_complete_iff hread (detour_sndSeq.acyclic hread)
  refine ⟨r, hread, N, fun fuel hfuel => ?_⟩
  obtain ⟨out, hout, hiff⟩ := hN fuel hfuel
  refine ⟨out, hout, hiff.mpr ?_⟩
  have hedge := fun a b => detour_sndSeq.edge_iff hread (a := a) (b := b)
  rintro a b c hab - hac hne hcb
  have hne_xy := fun hcon => detour_sndSeq.ne_xy (moduleOf_inj.mp hcon)
  rcases (hedge a b).mp hab with ⟨rfl, rfl⟩ | ⟨rfl, rfl | rfl⟩
  · rcases (hedge _ c).mp hac with ⟨-, rfl⟩ | ⟨hcon, -⟩
    · exact absurd rfl hne
    · exact absurd hcon.symm hne_xy
  · refine ⟨moduleOf "snd-seq.ko".toList, (hedge _ _).mpr (Or.inr ⟨rfl, Or.inr rfl⟩), by decide,
      .single ⟨(hedge _ _).mpr (Or.inl ⟨rfl, rfl⟩), by decide⟩⟩
  · -- nothing leads from the device to the sequencer
    rcases (hedge _ c).mp hac with ⟨hcon, -⟩ | ⟨-, rfl | rfl⟩
    · exact absurd hcon hne_xy
    · have hlt := (detour_sndSeq.isRank hread).lt_of_transGen hcb
      rw [detour_sndSeq.rank_z] at hlt
      exact absurd hlt (Nat.not_lt_zero _)
    · exact absurd rfl hne

/-- The modules of the audio controller. The codec only provides symbols. -/
def sndHda : List Char :=
  ("kernel/snd-hda-codec.ko: kernel/snd-pcm.ko\n" ++
    "kernel/snd-hda-controller.ko: kernel/snd-pcm.ko\n" ++
    "kernel/snd-hda-controller.ko: kernel/snd-hda-codec.ko\n").toList

theorem detour_sndHda : Detour sndHda "snd-hda-controller.ko".toList "snd-hda-codec.ko".toList
    "snd-pcm.ko".toList :=
  ⟨by decide +kernel, by decide, by decide, by decide⟩

/-- **A dependency lost**: the graph written for `KernelConfiguration.sndHda` has
no edge out of the controller. -/
theorem not_buildDepends_complete :
    ¬∀ (_ : LinearOrder Module) (cline content : List Char) (r : Reader),
      readFile cline content = some r → (∀ a, ¬Relation.TransGen (Edge r.depends) a a) →
      ∃ N, ∀ fuel ≥ N, ∃ out, buildDepends fuel cline content = some out ∧
        ∀ a b, Edge r.depends a b → b.type = .module →
          Relation.TransGen (PrintedEdge out.cluster1) a b := by
  intro h
  let _ := nameOrder
  obtain ⟨r, hread, -⟩ := readFile_spec [] sndHda
  have hac := detour_sndHda.acyclic hread
  have hedge := fun a b => detour_sndHda.edge_iff hread (a := a) (b := b)
  obtain ⟨N, hN⟩ := h nameOrder [] sndHda r hread hac
  obtain ⟨N', hN'⟩ := buildDepends_spec hread hac
  obtain ⟨out, hout, hcomplete⟩ := hN (max N N') (Nat.le_max_left _ _)
  obtain ⟨out', hout', hprinted⟩ := hN' (max N N') (Nat.le_max_right _ _)
  rw [hout, Option.some.injEq] at hout'
  subst hout'
  have hpath := hcomplete (moduleOf "snd-hda-controller.ko".toList) (moduleOf "snd-pcm.ko".toList)
    ((hedge _ _).mpr (Or.inr ⟨rfl, Or.inl rfl⟩)) (by decide)
  -- the path would have to leave the controller by an edge that is kept and goes to a module
  obtain ⟨d, hd, -⟩ := Relation.TransGen.head'_iff.mp hpath
  obtain ⟨hkept, htype⟩ := (hprinted _ _).mp hd
  rcases (hedge _ _).mp hkept.1 with ⟨hcon, -⟩ | ⟨-, rfl | rfl⟩
  · exact absurd (moduleOf_inj.mp hcon) (by decide)
  · refine hkept.2 (moduleOf "snd-hda-codec.ko".toList)
      ((hedge _ _).mpr (Or.inr ⟨rfl, Or.inr rfl⟩)) ?_
      (.single ((hedge _ _).mpr (Or.inl ⟨rfl, rfl⟩)))
    exact fun hcon => absurd (moduleOf_inj.mp hcon) (by decide)
  · exact absurd htype (by decide)

end KernelConfiguration
