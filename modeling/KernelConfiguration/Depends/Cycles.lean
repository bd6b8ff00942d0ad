import KernelConfiguration.Digraph
import KernelConfiguration.Depends.Reader
import KernelConfiguration.Depends.Search

/-!
# The search on a graph with cycles

`DependsOn` keeps no record of the modules it has been to, and nothing keeps
cycles out of the graph: a line of the file may name a module as depending on
itself. Whether the search ends is then a matter of the order in which the
dependencies are recorded, since a search that finds what it looks for goes no
further.

If no cycle of the edges that the search follows can be reached from a module, they
have a rank there, and the search from that module ends; if one can, there is always
a next module to search, at whatever depth. So the search decides reachability
exactly where no such cycle can be reached (`KernelConfiguration.decidesReach_iff`).
-/

namespace KernelConfiguration

variable {M : Type*} [LinearOrder M] {m : OrdMap (WithBot M) (List M)} {t : M}

/-! ### When the search decides -/

/-- **The search from `a` decides whether `t` can be reached**: it ends, with the
right answer, and all it does to the map is to enter keys without
dependencies. -/
def DecidesReach (m : OrdMap (WithBot M) (List M)) (a t : M) : Prop :=
  ∃ b m', (∃ N, ∀ fuel ≥ N, dependsOn fuel a t m = some (b, m')) ∧
    (b = true ↔ Relation.TransGen (Edge m) a t) ∧ m'.get = m.get ∧ m.keys ⊆ m'.keys ∧
    ∀ p ∈ m'.keys, p ∉ m.keys → m'.get p = []

/-- The pointers that a search from `a` may enter. -/
def reachedFrom (m : OrdMap (WithBot M) (List M)) (a : M) : Finset (WithBot M) :=
  insert ↑a ((dependencies m).image (↑))

theorem coe_mem_reachedFrom (a : M) : ∀ p, ∀ d ∈ m.get p, (d : WithBot M) ∈ reachedFrom m a :=
  fun _ _ hd => Finset.mem_insert_of_mem (Finset.mem_image_of_mem _ (mem_dependencies hd))

/-- A search without end decides nothing. -/
theorem Endless.not_decides {a : M} (h : Endless (Follows m t) a) : ¬DecidesReach m a t := by
  rintro ⟨b, m', ⟨N, hN⟩, -⟩
  have hnone := dependsOn_eq_none (coe_mem_reachedFrom a) N (Finset.mem_insert_self _ _) h m .refl
  rw [hN N (Nat.le_refl N)] at hnone
  exact Option.some_ne_none _ hnone

/-- **Where the search decides**: from the modules from which no cycle of the edges
that it follows can be reached, and from no others. -/
theorem decidesReach_iff (m : OrdMap (WithBot M) (List M)) (a t : M) :
    DecidesReach m a t ↔ ¬Endless (SearchEdge (fun x : M => m.get x) t) a := by
  constructor
  · exact fun h hendless => hendless.not_decides h
  · intro h
    have hK := coe_mem_reachedFrom (m := m) a
    have ha : ↑a ∈ reachedFrom m a := Finset.mem_insert_self _ _
    obtain ⟨rank, hr⟩ := exists_rank_of_not_endless h (S := dependencies m) fun _ _ hxy =>
      mem_dependencies hxy.mem
    obtain ⟨⟨b, m'⟩, hb⟩ := Option.ne_none_iff_exists'.mp
      (dependsOn_ne_none hK hr (rank a + 1) ha .refl (Nat.lt_succ_self _) m .refl)
    obtain ⟨hgrow, hiff⟩ := dependsOn_rightAnswers hK (rank a + 1) ha m b m' .refl hb
    refine ⟨b, m', ⟨rank a + 1, fun fuel hfuel => dependsOn_mono hb hfuel⟩, hiff, hgrow.get_eq,
      hgrow.subset, fun p _ hp => ?_⟩
    rw [hgrow.get_eq]
    exact m.get_of_not_mem p hp

/-- A module that depends on itself, and another one that depends on it. -/
def selfLoop : List Char :=
  "kernel/a.ko: kernel/b.ko kernel/c.ko\nkernel/b.ko: kernel/b.ko\n".toList

/-- **A search without end**, in a graph read from a file: the second module of
`KernelConfiguration.selfLoop` is searched for the third. -/
theorem not_decidesReach :
    ¬∀ (_ : LinearOrder Module) (cline content : List Char) (r : Reader),
      readFile cline content = some r → ∀ a t, DecidesReach r.depends a t := by
  intro h
  let _ := nameOrder
  obtain ⟨r, hread, hget⟩ := readFile_spec [] selfLoop
  have hnames : (processedLines selfLoop).map lineNames =
      [["a.ko".toList, "b.ko".toList, "c.ko".toList], ["b.ko".toList, "b.ko".toList]] := by
    decide +kernel
  have hdeps : r.depends.get (moduleOf "b.ko".toList) = [moduleOf "b.ko".toList] := by
    have hmap := congrArg (List.flatMap (namesDeps (moduleOf "b.ko".toList))) hnames
    rw [List.flatMap_map] at hmap
    rw [hget]
    refine hmap.trans ?_
    simp [namesDeps, moduleOf_inj]
  have hloop : SearchEdge (fun x : Module => r.depends.get x) (moduleOf "c.ko".toList)
      (moduleOf "b.ko".toList) (moduleOf "b.ko".toList) :=
    ⟨[], [], hdeps, fun hcon => absurd (moduleOf_inj.mp hcon) (by decide),
      fun _ hc => absurd hc List.not_mem_nil⟩
  have hendless : Endless (Follows r.depends (moduleOf "c.ko".toList)) (moduleOf "b.ko".toList) :=
    ⟨_, .refl, .single hloop⟩
  exact hendless.not_decides (h nameOrder [] selfLoop r hread _ _)

end KernelConfiguration
