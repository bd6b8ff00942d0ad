import Mathlib.Data.List.Count
import Mathlib.Data.List.Perm.Basic
import KernelConfiguration.Depends.Printer
import KernelConfiguration.Depends.Records

/-!
# What the second graph depends on

The loop that computes `cluster_1` walks a map that is ordered by the addresses of the
modules, compares lists with themselves while it overwrites them, and starts from
lists in the order of the file. None of this can be seen in the graph that it writes.

* `KernelConfiguration.buildDepends_canonical` – which edges there are is a matter of
  which modules can be reached from which. A file that gives all the modules a module
  needs, directly or not, and one that gives the direct dependencies only, make the
  same graph.
* `KernelConfiguration.buildDepends_perm` – how often an edge is written is a matter of
  how often it is written to `cluster_0`. The order of the lines, the addresses and
  what the buffer held before have to do with the order of the edges at most.
-/

namespace KernelConfiguration

/-! ### What is written for a key -/

/-- The edges written for a key and its list. -/
def keyEdges (x : WithBot Module × List Module) : List DotEdge :=
  match pointee x.1 with
  | none => []
  | some mod => (x.2.filter fun it1 => it1.type = .module).map fun it1 => ⟨node it1, node mod⟩

variable {kept : List (WithBot Module × List Module)} {a b : Module} {e : DotEdge}

/-- **The lists are written one after the other.** -/
theorem printDepends_eq_flatMap (hbot : ∀ x ∈ kept, x.1 = ⊥ → x.2 = []) :
    printDepends kept = some (kept.flatMap keyEdges) := by
  induction kept with
  | nil => rfl
  | cons x kept ih =>
    obtain ⟨p, deps⟩ := x
    have hx : printModule p deps = some (keyEdges (p, deps)) := by
      rw [printModule, keyEdges]
      cases p with
      | bot =>
        obtain rfl : deps = [] := hbot (⊥, deps) List.mem_cons_self rfl
        rfl
      | coe mod =>
        cases deps.filter fun it1 => it1.type = .module with
        | nil => rfl
        | cons d ds => rfl
    rw [printDepends, hx, ih fun x hx => hbot x (List.mem_cons_of_mem _ hx)]
    rfl

/-- Every edge is between the nodes of two modules. -/
theorem exists_node_of_mem_flatMap (he : e ∈ kept.flatMap keyEdges) :
    ∃ a b, e = ⟨node b, node a⟩ := by
  obtain ⟨⟨p, deps⟩, -, he⟩ := List.mem_flatMap.mp he
  cases p with
  | bot => exact absurd he List.not_mem_nil
  | coe mod =>
    obtain ⟨it1, -, rfl⟩ := List.mem_map.mp he
    exact ⟨mod, it1, rfl⟩

theorem count_keyEdges [DecidableEq Module] {deps : List Module} :
    (keyEdges (↑a, deps)).count ⟨node b, node a⟩ =
      if b.type = .module then deps.count b else 0 := by
  have hinj : Function.Injective fun it1 : Module => (⟨node it1, node a⟩ : DotEdge) :=
    fun x y hxy => node_inj.mp (DotEdge.mk.inj hxy).1
  refine (List.count_map_of_injective _ _ hinj b).trans ?_
  by_cases htype : b.type = .module
  · rw [if_pos htype, List.count_filter (by simpa using htype)]
  · rw [if_neg htype, List.count_eq_zero]
    intro hmem
    exact htype (by simpa using (List.mem_filter.mp hmem).2)

/-- The edges of another key lead somewhere else. -/
theorem count_keyEdges_of_ne {x : WithBot Module × List Module} (h : x.1 ≠ a) :
    (keyEdges x).count ⟨node b, node a⟩ = 0 := by
  obtain ⟨p, deps⟩ := x
  rw [List.count_eq_zero]
  cases p with
  | bot => exact List.not_mem_nil
  | coe mod =>
    intro hmem
    obtain ⟨it1, -, heq⟩ := List.mem_map.mp hmem
    exact h (congrArg _ (node_inj.mp (DotEdge.mk.inj heq).2))

/-- **An edge is written for one key only.** -/
theorem count_flatMap_keyEdges [DecidableEq Module] (hnodup : (kept.map Prod.fst).Nodup)
    {deps : List Module} (hmem : (↑a, deps) ∈ kept) :
    (kept.flatMap keyEdges).count ⟨node b, node a⟩ =
      if b.type = .module then deps.count b else 0 := by
  induction kept with
  | nil => exact absurd hmem List.not_mem_nil
  | cons x kept ih =>
    rw [List.map_cons, List.nodup_cons] at hnodup
    rw [List.flatMap_cons, List.count_append]
    rcases List.mem_cons.mp hmem with rfl | hmem
    · -- the key does not come again
      have hrest : (kept.flatMap keyEdges).count ⟨node b, node a⟩ = 0 := by
        rw [List.count_flatMap, List.sum_eq_zero]
        intro n hn
        obtain ⟨y, hy, rfl⟩ := List.mem_map.mp hn
        exact count_keyEdges_of_ne fun heq => hnodup.1 (List.mem_map.mpr ⟨y, hy, heq⟩)
      rw [hrest, count_keyEdges, Nat.add_zero]
    · rw [ih hnodup.2 hmem, count_keyEdges_of_ne, Nat.zero_add]
      rintro heq
      exact hnodup.1 (heq ▸ List.mem_map_of_mem hmem)

/-! ### How often an edge is written -/

open Classical in
/-- **An edge that is kept and leads to a module is written to `cluster_1` as often as
it is to `cluster_0`**, and no other edge is. -/
theorem buildDepends_count [LinearOrder Module] {cline content : List Char} {r : Reader}
    (hread : readFile cline content = some r)
    (hac : ∀ a, ¬Relation.TransGen (Edge r.depends) a a) :
    ∃ N, ∀ fuel ≥ N, ∃ out, buildDepends fuel cline content = some out ∧
      out.cluster0 = r.cluster0 ∧ (∀ e ∈ out.cluster1, ∃ a b, e = ⟨node b, node a⟩) ∧
      ∀ a b, out.cluster1.count ⟨node b, node a⟩ =
        if Kept (Edge r.depends) a b ∧ b.type = .module then r.cluster0.count ⟨b.name, a.name⟩
        else 0 := by
  have hbot := readFile_get_bot hread
  obtain ⟨-, hrec⟩ := recorded_of_readFile hread
  obtain ⟨N, hN⟩ := exists_reduceDepends hbot hac
  refine ⟨N, fun fuel hfuel => ?_⟩
  obtain ⟨kept, m', hwalk, hkeys, hnodup, hkept⟩ := hN fuel hfuel
  have hnull : ∀ x ∈ kept, x.1 = ⊥ → x.2 = [] := by
    intro x hx hp
    rw [hkept x hx, hp, hbot]
    rfl
  refine ⟨⟨r.cluster0, kept.flatMap keyEdges⟩, ?_, rfl, fun e => exists_node_of_mem_flatMap,
    fun a b => ?_⟩
  · rw [buildDepends, hread]
    simp [hwalk, printDepends_eq_flatMap hnull]
  · dsimp only
    by_cases ha : ↑a ∈ kept.map Prod.fst
    · obtain ⟨⟨p, deps⟩, hmem, rfl⟩ := List.mem_map.mp ha
      rw [count_flatMap_keyEdges hnodup hmem]
      obtain rfl : deps = keptDeps r.depends (r.depends.get a) := hkept _ hmem
      by_cases hb : Kept (Edge r.depends) a b
      · have hcount : (keptDeps r.depends (r.depends.get a)).count b =
            (r.depends.get a).count b := by
          rw [keptDeps]
          exact List.count_filter (decide_eq_true hb.2)
        rw [hcount, hrec.count]
        exact if_congr (by simp [hb]) rfl rfl
      · have hzero : (keptDeps r.depends (r.depends.get a)).count b = 0 :=
          List.count_eq_zero.mpr fun hmem => hb (mem_keptDeps.mp hmem)
        rw [hzero, ite_self, if_neg fun h => hb h.1]
    · -- a module that is no key has no dependencies
      have hnone : ¬Kept (Edge r.depends) a b := by
        intro hb
        have hmem : b ∈ r.depends.get a := hb.1
        rw [r.depends.get_of_not_mem _ fun hcon => ha (hkeys _ hcon)] at hmem
        exact absurd hmem List.not_mem_nil
      rw [if_neg fun h => hnone h.1, List.count_eq_zero]
      intro hmem
      obtain ⟨x, hx, he⟩ := List.mem_flatMap.mp hmem
      have hne : x.1 ≠ a := fun heq => ha (heq ▸ List.mem_map_of_mem hx)
      exact List.count_pos_iff.mpr he |>.ne' (count_keyEdges_of_ne hne)

/-- The dependencies are the edges written to `cluster_0`. -/
theorem Recorded.edge_iff [LinearOrder Module] {r : Reader} (h : Recorded r) :
    Edge r.depends a b ↔ ⟨b.name, a.name⟩ ∈ r.cluster0 := by
  rw [Edge, ← List.count_pos_iff, h.count, List.count_pos_iff]

/-! ### What the graph is determined by -/

variable {L₁ L₂ : LinearOrder Module} {cline₁ cline₂ content₁ content₂ : List Char}
  {r₁ r₂ : Reader}

/-- **The second graph is determined by what can be reached from where.** If two files
have no cycles and make the same modules reachable from the same modules, the program
comes to its end on both and writes the same edges to `cluster_1`, whatever the
addresses of the modules are. -/
theorem buildDepends_canonical (hread₁ : @readFile L₁ cline₁ content₁ = some r₁)
    (hread₂ : @readFile L₂ cline₂ content₂ = some r₂)
    (hac : ∀ a, ¬Relation.TransGen (Edge r₁.depends) a a)
    (hsame : ∀ a b, Relation.TransGen (Edge r₁.depends) a b ↔
      Relation.TransGen (Edge r₂.depends) a b) :
    ∃ N, ∀ fuel ≥ N, ∃ out₁ out₂, @buildDepends L₁ fuel cline₁ content₁ = some out₁ ∧
      @buildDepends L₂ fuel cline₂ content₂ = some out₂ ∧
      ∀ e, e ∈ out₁.cluster1 ↔ e ∈ out₂.cluster1 := by
  have hac₂ : ∀ a, ¬Relation.TransGen (Edge r₂.depends) a a :=
    fun a ha => hac a ((hsame a a).mpr ha)
  obtain ⟨rank₁, hsearch₁, -⟩ := @exists_searchable _ L₁ _ (@readFile_get_bot L₁ _ _ _ hread₁) hac
  obtain ⟨rank₂, hsearch₂, -⟩ := @exists_searchable _ L₂ _ (@readFile_get_bot L₂ _ _ _ hread₂) hac₂
  -- the kept edges are the covering relation of the reachability that the files share
  have hkept : ∀ a b, Kept (Edge r₁.depends) a b ↔ Kept (Edge r₂.depends) a b := by
    intro a b
    rw [kept_iff_covers hsearch₁.isRank, kept_iff_covers hsearch₂.isRank]
    simp only [hsame]
  obtain ⟨N₁, hN₁⟩ := @buildDepends_count L₁ _ _ _ hread₁ hac
  obtain ⟨N₂, hN₂⟩ := @buildDepends_count L₂ _ _ _ hread₂ hac₂
  obtain ⟨N₃, hN₃⟩ := @buildDepends_spec L₁ _ _ _ hread₁ hac
  obtain ⟨N₄, hN₄⟩ := @buildDepends_spec L₂ _ _ _ hread₂ hac₂
  refine ⟨max (max N₁ N₂) (max N₃ N₄), fun fuel hfuel => ?_⟩
  obtain ⟨out₁, hout₁, -, hnode₁, -⟩ := hN₁ fuel (by omega)
  obtain ⟨out₂, hout₂, -, hnode₂, -⟩ := hN₂ fuel (by omega)
  obtain ⟨out₁', hout₁', hedges₁⟩ := hN₃ fuel (by omega)
  obtain ⟨out₂', hout₂', hedges₂⟩ := hN₄ fuel (by omega)
  obtain rfl := Option.some.inj (hout₁.symm.trans hout₁')
  obtain rfl := Option.some.inj (hout₂.symm.trans hout₂')
  have hiff : ∀ a b, PrintedEdge out₁.cluster1 a b ↔ PrintedEdge out₂.cluster1 a b :=
    fun a b => by rw [hedges₁, hedges₂, hkept]
  refine ⟨out₁, out₂, hout₁, hout₂, fun e => ⟨fun he => ?_, fun he => ?_⟩⟩
  · obtain ⟨a, b, rfl⟩ := hnode₁ e he
    exact (hiff a b).mp he
  · obtain ⟨a, b, rfl⟩ := hnode₂ e he
    exact (hiff a b).mpr he

/-- The direct dependencies among the modules of `KernelConfiguration.sndSeq`. -/
def sndSeqDirect : List Char :=
  ("kernel/snd-seq.ko: kernel/snd-seq-device.ko\n" ++
    "kernel/snd-seq-midi.ko: kernel/snd-seq.ko\n").toList

/-- `KernelConfiguration.sndSeq` and its direct dependencies make the same second
graph. -/
theorem buildDepends_canonical_sndSeq :
    ∃ N, ∀ fuel ≥ N, ∃ out₁ out₂, @buildDepends nameOrder fuel [] sndSeq = some out₁ ∧
      @buildDepends nameOrder fuel [] sndSeqDirect = some out₂ ∧
      ∀ e, e ∈ out₁.cluster1 ↔ e ∈ out₂.cluster1 := by
  let _ := nameOrder
  obtain ⟨r₁, hread₁, -⟩ := readFile_spec [] sndSeq
  obtain ⟨r₂, hread₂, -⟩ := readFile_spec [] sndSeqDirect
  obtain ⟨hedges₂, hrec₂⟩ := recorded_of_readFile hread₂
  have hcluster0 : (processedLines sndSeqDirect).flatMap lineEdges =
      [⟨"snd-seq-device.ko".toList, "snd-seq.ko".toList⟩,
        ⟨"snd-seq.ko".toList, "snd-seq-midi.ko".toList⟩] := by decide +kernel
  have hedge₁ := fun a b => detour_sndSeq.edge_iff hread₁ (a := a) (b := b)
  have hedge₂ : ∀ x y, ⟨y, x⟩ ∈ r₂.cluster0 → Edge r₂.depends (moduleOf x) (moduleOf y) :=
    fun x y hxy => hrec₂.edge_iff.mpr hxy
  rw [hedges₂, hcluster0] at hedge₂
  have hlow := hedge₂ "snd-seq.ko".toList "snd-seq-device.ko".toList (by simp)
  have hhigh := hedge₂ "snd-seq-midi.ko".toList "snd-seq.ko".toList (by simp)
  refine buildDepends_canonical hread₁ hread₂ (detour_sndSeq.acyclic hread₁) fun a b =>
    ⟨Relation.TransGen.closed (fun a b hab => ?_) a b,
      Relation.TransGen.closed (fun a b hab => ?_) a b⟩
  · rcases (hedge₁ a b).mp hab with ⟨rfl, rfl⟩ | ⟨rfl, rfl | rfl⟩
    · exact .single hlow
    · exact .head hhigh (.single hlow)
    · exact .single hhigh
  · refine .single ((hedge₁ a b).mpr ?_)
    have hmem := hrec₂.edge_iff.mp hab
    rw [hedges₂, hcluster0] at hmem
    simp only [List.mem_cons, DotEdge.mk.injEq, List.not_mem_nil, or_false] at hmem
    rw [← moduleOf_name a, ← moduleOf_name b]
    simp only [moduleOf_inj]
    rcases hmem with ⟨hb, ha⟩ | ⟨hb, ha⟩
    · exact Or.inl ⟨ha, hb⟩
    · exact Or.inr ⟨ha, Or.inr hb⟩

/-- **The order of the lines is of no account**, nor are the addresses of the modules
and what was in the buffer. If two files have the same processed lines, in any order,
and no cycles, the program writes the same edges to each of the two graphs, each of
them as often. -/
theorem buildDepends_perm (hread₁ : @readFile L₁ cline₁ content₁ = some r₁)
    (hac : ∀ a, ¬Relation.TransGen (Edge r₁.depends) a a)
    (hlines : (processedLines content₁).Perm (processedLines content₂)) :
    ∃ N, ∀ fuel ≥ N, ∃ out₁ out₂, @buildDepends L₁ fuel cline₁ content₁ = some out₁ ∧
      @buildDepends L₂ fuel cline₂ content₂ = some out₂ ∧
      out₁.cluster0.Perm out₂.cluster0 ∧ out₁.cluster1.Perm out₂.cluster1 := by
  obtain ⟨r₂, hread₂, -⟩ := @readFile_spec L₂ cline₂ content₂
  obtain ⟨hedges₁, hrec₁⟩ := @recorded_of_readFile L₁ _ _ _ hread₁
  obtain ⟨hedges₂, hrec₂⟩ := @recorded_of_readFile L₂ _ _ _ hread₂
  have hcluster0 : r₁.cluster0.Perm r₂.cluster0 := by
    rw [hedges₁, hedges₂]
    exact hlines.flatMap_right _
  have hedge : Edge r₁.depends = Edge r₂.depends := by
    funext a b
    rw [@Recorded.edge_iff a b L₁ _ hrec₁, @Recorded.edge_iff a b L₂ _ hrec₂, hcluster0.mem_iff]
  obtain ⟨N₁, hN₁⟩ := @buildDepends_count L₁ _ _ _ hread₁ hac
  obtain ⟨N₂, hN₂⟩ := @buildDepends_count L₂ _ _ _ hread₂ (hedge ▸ hac)
  refine ⟨max N₁ N₂, fun fuel hfuel => ?_⟩
  obtain ⟨out₁, hout₁, hzero₁, hnode₁, hcount₁⟩ := hN₁ fuel (by omega)
  obtain ⟨out₂, hout₂, hzero₂, hnode₂, hcount₂⟩ := hN₂ fuel (by omega)
  have hcount : ∀ a b, out₁.cluster1.count ⟨node b, node a⟩ =
      out₂.cluster1.count ⟨node b, node a⟩ := fun a b => by
    rw [hcount₁, hcount₂, hedge, hcluster0.count_eq]
  refine ⟨out₁, out₂, hout₁, hout₂, by rw [hzero₁, hzero₂]; exact hcluster0, ?_⟩
  refine List.perm_iff_count.mpr fun e => ?_
  by_cases he : ∃ a b, e = ⟨node b, node a⟩
  · obtain ⟨a, b, rfl⟩ := he
    exact hcount a b
  · rw [List.count_eq_zero.mpr fun hmem => he (hnode₁ e hmem),
      List.count_eq_zero.mpr fun hmem => he (hnode₂ e hmem)]

/-- The lines of `KernelConfiguration.sndSeq`, from the last to the first. -/
def sndSeqReversed : List Char :=
  ("kernel/snd-seq-midi.ko: kernel/snd-seq.ko\n" ++
    "kernel/snd-seq-midi.ko: kernel/snd-seq-device.ko\n" ++
    "kernel/snd-seq.ko: kernel/snd-seq-device.ko\n").toList

/-- The two make the same graphs, also when the addresses are in the opposite
order. -/
theorem buildDepends_perm_sndSeq :
    ∃ N, ∀ fuel ≥ N, ∃ out₁ out₂, @buildDepends nameOrder fuel [] sndSeq = some out₁ ∧
      @buildDepends (@OrderDual.instLinearOrder Module nameOrder) fuel [] sndSeqReversed =
        some out₂ ∧
      out₁.cluster0.Perm out₂.cluster0 ∧ out₁.cluster1.Perm out₂.cluster1 := by
  let _ := nameOrder
  obtain ⟨r₁, hread₁, -⟩ := readFile_spec [] sndSeq
  exact buildDepends_perm hread₁ (detour_sndSeq.acyclic hread₁) (by decide +kernel)

end KernelConfiguration
