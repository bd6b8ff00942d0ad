import Mathlib.Data.List.Pairwise
import KernelConfiguration.Depends.Search

/-!
# The reduction loop of build-depends

`build-depends.cpp` reads the dependencies of the modules into the map `depends`
and then drops from each list the dependencies that are *found also in another
path*. What makes the loop worth a proof is how it goes about it.

* It works on a copy of the list, and overwrites an entry by `nullptr` as soon as
  it is found superfluous, while the list is still being scanned. Later entries
  are then compared with what is left, and `nullptr` is passed to `DependsOn`.
* `DependsOn` subscripts the map, so the search enters keys – `nullptr` among
  them – into the map the outer loop is walking.
* The search is sure to end only if the graph has no cycle.

None of this does harm (`KernelConfiguration.reduceDepends_spec`). An entry is
superfluous because of another one, which may in turn be superfluous, but never
because of nothing: above all of them there is one that is kept, and it is still
in the list (`KernelConfiguration.exists_kept`). The keys entered by the search
hold no dependencies.
-/

namespace KernelConfiguration

variable {M : Type*} [LinearOrder M] {m m₀ m' : OrdMap (WithBot M) (List M)}
  {K : Finset (WithBot M)} {rank : M → ℕ} {t : M} {fuel : ℕ}

/-! ### The loops -/

/-- The inner loop: is `it1` included from some other entry of the list? -/
def covered (fuel : ℕ) (it1 : WithBot M) (entries : List (WithBot M))
    (m : OrdMap (WithBot M) (List M)) : Option (Bool × OrdMap (WithBot M) (List M)) :=
  searchList (fun it2 m => if it1 ≠ it2 then dependsOn fuel it2 it1 m else some (false, m))
    entries m

/-- The outer loop, with the entries already looked at and those still to come. An
entry that is covered is overwritten by the null pointer. -/
def reduceLoop (fuel : ℕ) : List (WithBot M) → List (WithBot M) → OrdMap (WithBot M) (List M) →
    Option (List (WithBot M) × OrdMap (WithBot M) (List M))
  | seen, [], m => some (seen, m)
  | seen, it1 :: rest, m => do
    let (b, m') ← covered fuel it1 (seen ++ it1 :: rest) m
    reduceLoop fuel (seen ++ [if b then ⊥ else it1]) rest m'

/-- The module a pointer points to, if it is not null. -/
def pointee (p : WithBot M) : Option M := p.recBotCoe none some

/-- **One round of the walk over `depends`**: the list of a module is reduced if it
has more than one entry, and the null pointers are removed. -/
def reduceModule (fuel : ℕ) (deps : List M) (m : OrdMap (WithBot M) (List M)) :
    Option (List M × OrdMap (WithBot M) (List M)) :=
  if deps.length > 1 then do
    let (entries, m') ← reduceLoop fuel [] (deps.map (↑)) m
    return (entries.filterMap pointee, m')
  else some (deps, m)

/-- **The walk over `depends`**: the key and the reduced list of every round. -/
def reduceDepends (fuel : ℕ) (m : OrdMap (WithBot M) (List M)) :
    Option (List (WithBot M × List M) × OrdMap (WithBot M) (List M)) :=
  OrdMap.forEach (fun _ deps m => reduceModule fuel deps m) fuel none m

/-! ### The graph -/

/-- A module reachable from what a pointer points to. -/
def PtrReach (m : OrdMap (WithBot M) (List M)) (p : WithBot M) (t : M) : Prop :=
  ∃ a : M, p = a ∧ Relation.TransGen (Edge m) a t

omit [LinearOrder M] in
theorem not_ptrReach_bot : ¬PtrReach m ⊥ t := by
  rintro ⟨a, ha, -⟩
  exact WithBot.bot_ne_coe ha

omit [LinearOrder M] in
theorem ptrReach_coe {a : M} : PtrReach m a t ↔ Relation.TransGen (Edge m) a t := by
  constructor
  · rintro ⟨b, hb, h⟩
    rw [WithBot.coe_inj] at hb
    exact hb ▸ h
  · exact fun h => ⟨a, rfl, h⟩

/-- **What the search asks of the map**: a graph with a rank, nothing under the
null pointer, and a finite set of pointers that it does not leave. -/
structure Searchable (m : OrdMap (WithBot M) (List M)) (K : Finset (WithBot M))
    (rank : M → ℕ) : Prop where
  /-- The graph has a rank. -/
  isRank : IsRank (Edge m) rank
  /-- Nothing is recorded under the null pointer. -/
  get_bot : m.get ⊥ = []
  /-- The null pointer may be entered. -/
  bot_mem : ⊥ ∈ K
  /-- The dependencies may be entered. -/
  dep_mem : ∀ p, ∀ d ∈ m.get p, (d : WithBot M) ∈ K

/-- **The search decides reachability** within the rank of the module it starts at. -/
theorem Searchable.dependsOn_decides (h : Searchable m₀ K rank) (t : M) {p : WithBot M}
    (hp : p ∈ K) (hpos : 0 < fuel) (hrank : ∀ a : M, p = a → rank a < fuel) :
    Decides m₀ K (PtrReach m₀ p t) (dependsOn fuel p t) := by
  cases p with
  | bot =>
    obtain ⟨k, rfl⟩ : ∃ k, fuel = k + 1 := Nat.exists_eq_succ_of_ne_zero (Nat.ne_of_gt hpos)
    intro m hm
    refine ⟨false, m.access ⊥, ?_, .access hp, by simp [not_ptrReach_bot]⟩
    rw [dependsOn, if_pos WithBot.coe_ne_bot, hm.get_eq, h.get_bot]
    rfl
  | coe a =>
    have hreach : PtrReach m₀ a t = Relation.TransGen (Edge m₀) a t := propext ptrReach_coe
    rw [hreach]
    refine decides_iff.mpr ⟨dependsOn_rightAnswers h.dep_mem fuel hp, ?_⟩
    exact dependsOn_ne_none h.dep_mem (fun x y _ hxy => h.isRank x y hxy.mem) fuel hp .refl
      (hrank a rfl)

/-- **The inner loop finds an entry from which `d` is reachable**, if there is
another one. -/
theorem Searchable.covered_decides (h : Searchable m₀ K rank) (hfuel : ∀ a, rank a < fuel) {d : M}
    {entries : List (WithBot M)} (hentries : ∀ p ∈ entries, p ∈ K) :
    Decides m₀ K (∃ p ∈ entries, ↑d ≠ p ∧ PtrReach m₀ p d) (covered fuel d entries) := by
  refine searchList_decides fun p hp m hm => ?_
  by_cases hne : (d : WithBot M) ≠ p
  · obtain ⟨b, m', hb, hgrow, hP⟩ := h.dependsOn_decides d (hentries p hp)
      (Nat.lt_of_le_of_lt (Nat.zero_le _) (hfuel d)) (fun a _ => hfuel a) m hm
    exact ⟨b, m', by rw [if_pos hne]; exact hb, hgrow, by simp [hP, hne]⟩
  · exact ⟨false, m, by rw [if_neg hne], .refl, by simp [hne]⟩

/-! ### What the loops keep -/

open Classical in
/-- What the outer loop leaves of a dependency of a list: itself, or the null
pointer when some other one leads to it. -/
noncomputable def keep (m : OrdMap (WithBot M) (List M)) (deps : List M) (d : M) : WithBot M :=
  if ∀ c ∈ deps, c ≠ d → ¬Relation.TransGen (Edge m) c d then d else ⊥

theorem keep_eq_bot_or (m : OrdMap (WithBot M) (List M)) (deps : List M) (d : M) :
    keep m deps d = ⊥ ∨ keep m deps d = d := by
  rw [keep]
  split
  · exact Or.inr rfl
  · exact Or.inl rfl

/-- The dependencies that are kept are those of the kept edges. -/
theorem keep_eq_coe {a d : M} (hd : d ∈ m.get a) :
    keep m (m.get a) d = d ↔ Kept (Edge m) a d := by
  rw [keep]
  by_cases hcond : ∀ c ∈ m.get a, c ≠ d → ¬Relation.TransGen (Edge m) c d
  · rw [if_pos hcond]
    exact ⟨fun _ => ⟨hd, hcond⟩, fun _ => rfl⟩
  · rw [if_neg hcond]
    exact ⟨fun h => absurd h WithBot.bot_ne_coe, fun h => absurd h.2 hcond⟩

/-- **Comparing with what is left is enough**: an entry is reached from another
entry of the list if and only if it is reached from one that has not been
overwritten. -/
theorem exists_entry_iff (hr : IsRank (Edge m) rank) {a d : M} {pre rest : List M}
    (hdeps : m.get a = pre ++ d :: rest) :
    (∃ p ∈ pre.map (keep m (m.get a)) ++ (d :: rest).map (↑), ↑d ≠ p ∧ PtrReach m p d) ↔
      ∃ c ∈ m.get a, c ≠ d ∧ Relation.TransGen (Edge m) c d := by
  constructor
  · rintro ⟨p, hp, hne, c, rfl, hcd⟩
    refine ⟨c, ?_, fun heq => hne (by rw [heq]), hcd⟩
    rw [hdeps, List.mem_append]
    rcases List.mem_append.mp hp with hp | hp
    · obtain ⟨x, hx, hxc⟩ := List.mem_map.mp hp
      rcases keep_eq_bot_or m (m.get a) x with hk | hk
      · rw [hk] at hxc
        exact absurd hxc WithBot.bot_ne_coe
      · rw [hk, WithBot.coe_inj] at hxc
        exact Or.inl (hxc ▸ hx)
    · obtain ⟨x, hx, hxc⟩ := List.mem_map.mp hp
      exact Or.inr (WithBot.coe_inj.mp hxc ▸ hx)
  · rintro ⟨c, hc, -, hcd⟩
    -- the entry found may be overwritten by now, but a kept one above it is not
    obtain ⟨e, hkept, hed⟩ := exists_kept hr hc hcd
    have hne : (d : WithBot M) ≠ e := by
      intro heq
      rw [WithBot.coe_inj] at heq
      rw [heq] at hed
      exact Nat.lt_irrefl _ (hr.lt_of_transGen hed)
    refine ⟨e, ?_, hne, ptrReach_coe.mpr hed⟩
    have he : e ∈ m.get a := hkept.1
    rw [hdeps, List.mem_append] at he
    rw [List.mem_append]
    rcases he with he | he
    · exact Or.inl (List.mem_map.mpr ⟨e, he, (keep_eq_coe hkept.1).mpr hkept⟩)
    · exact Or.inr (List.mem_map.mpr ⟨e, he, rfl⟩)

/-- **The outer loop overwrites what is superfluous and nothing else.** -/
theorem Searchable.reduceLoop_spec (h : Searchable m₀ K rank) (hfuel : ∀ a, rank a < fuel) {a : M}
    (rest : List M) : ∀ (pre : List M) {m : OrdMap (WithBot M) (List M)},
      m₀.get a = pre ++ rest → m₀.Grow K m →
      ∃ m', reduceLoop fuel (pre.map (keep m₀ (m₀.get a))) (rest.map (↑)) m =
        some ((m₀.get a).map (keep m₀ (m₀.get a)), m') ∧ m.Grow K m' := by
  induction rest with
  | nil =>
    intro pre m hdeps _
    refine ⟨m, ?_, .refl⟩
    nth_rewrite 3 [hdeps]
    rw [List.append_nil]
    rfl
  | cons d rest ih =>
    intro pre m hdeps hm
    have hentries : ∀ p ∈ pre.map (keep m₀ (m₀.get a)) ++ (d :: rest).map (↑), p ∈ K := by
      intro p hp
      rcases List.mem_append.mp hp with hp | hp
      · obtain ⟨x, hx, rfl⟩ := List.mem_map.mp hp
        rcases keep_eq_bot_or m₀ (m₀.get a) x with hk | hk
        · exact hk ▸ h.bot_mem
        · exact hk ▸ h.dep_mem a x (by rw [hdeps]; exact List.mem_append_left _ hx)
      · obtain ⟨x, hx, rfl⟩ := List.mem_map.mp hp
        exact h.dep_mem a x (by rw [hdeps]; exact List.mem_append_right _ hx)
    obtain ⟨b, m', hb, hgrow, hP⟩ := h.covered_decides hfuel hentries m hm
    -- what is written back is what the specification keeps
    have hkeep : (if b = true then ⊥ else (d : WithBot M)) = keep m₀ (m₀.get a) d := by
      rw [exists_entry_iff h.isRank hdeps] at hP
      rw [keep]
      by_cases hd : ∀ c ∈ m₀.get a, c ≠ d → ¬Relation.TransGen (Edge m₀) c d
      · rw [if_pos hd, if_neg]
        exact fun hbt => (hP.mp hbt).elim fun c hc => hd c hc.1 hc.2.1 hc.2.2
      · rw [if_neg hd, if_pos]
        refine hP.mpr ?_
        by_contra hcon
        exact hd fun c hc hne hcd => hcon ⟨c, hc, hne, hcd⟩
    obtain ⟨m'', hloop, hgrow'⟩ := ih (pre ++ [d]) (m := m')
      (by rw [hdeps, List.append_assoc]; rfl) (hm.trans hgrow)
    refine ⟨m'', ?_, hgrow.trans hgrow'⟩
    rw [List.map_append, List.map_singleton, ← hkeep] at hloop
    rw [List.map_cons] at hb ⊢
    rw [reduceLoop, hb]
    exact hloop

open Classical in
/-- **The dependencies of a list that no other one leads to.** -/
noncomputable def keptDeps (m : OrdMap (WithBot M) (List M)) (deps : List M) : List M :=
  deps.filter fun d => ∀ c ∈ deps, c ≠ d → ¬Relation.TransGen (Edge m) c d

theorem mem_keptDeps {a d : M} : d ∈ keptDeps m (m.get a) ↔ Kept (Edge m) a d := by
  classical
  rw [keptDeps, List.mem_filter, decide_eq_true_iff]
  rfl

/-- Removing the null pointers leaves the dependencies that are kept. -/
theorem filterMap_keep (deps : List M) :
    (deps.map (keep m deps)).filterMap pointee = keptDeps m deps := by
  classical
  rw [List.filterMap_map, keptDeps, ← List.filterMap_eq_filter]
  refine congrArg (List.filterMap · deps) (funext fun d => ?_)
  rw [Function.comp_apply, keep, Option.guard_eq_ite]
  simp only [decide_eq_true_eq]
  split <;> rfl

/-- A list of one entry is kept. -/
theorem keptDeps_of_length_le {deps : List M} (h : deps.length ≤ 1) : keptDeps m deps = deps := by
  refine List.filter_eq_self.mpr fun d hd => ?_
  obtain ⟨e, rfl⟩ : ∃ e, deps = [e] := by
    cases deps with
    | nil => simp at hd
    | cons e rest => exact ⟨e, by simpa using h⟩
  rw [List.mem_singleton] at hd
  simp [hd]

/-- **One round reduces the list of a module** to the dependencies that no other one
leads to. -/
theorem Searchable.reduceModule_spec (h : Searchable m₀ K rank) (hfuel : ∀ a, rank a < fuel)
    {p : WithBot M} (hm : m₀.Grow K m) :
    ∃ m', reduceModule fuel (m₀.get p) m = some (keptDeps m₀ (m₀.get p), m') ∧ m.Grow K m' := by
  rw [reduceModule]
  by_cases hlen : (m₀.get p).length > 1
  · obtain ⟨a, rfl⟩ : ∃ a : M, p = a := by
      cases p with
      | bot => simp [h.get_bot] at hlen
      | coe a => exact ⟨a, rfl⟩
    obtain ⟨m', hloop, hgrow⟩ := h.reduceLoop_spec hfuel (m₀.get a) [] rfl hm
    refine ⟨m', ?_, hgrow⟩
    rw [List.map_nil] at hloop
    rw [if_pos hlen, hloop]
    exact congrArg (fun l => some (l, m')) (filterMap_keep _)
  · exact ⟨m, by rw [if_neg hlen, keptDeps_of_length_le (by omega)], .refl⟩

/-! ### The whole walk -/

/-- **A graph without cycles can be searched.** -/
theorem exists_searchable (hbot : m.get ⊥ = []) (hac : ∀ a, ¬Relation.TransGen (Edge m) a a) :
    ∃ rank, Searchable m (insert ⊥ ((dependencies m).image (↑))) rank ∧
      ∀ a, rank a ≤ (dependencies m).card := by
  obtain ⟨rank, hr, hbound⟩ :=
    exists_isRank hac (S := dependencies m) fun a b hab => mem_dependencies hab
  refine ⟨rank, ⟨hr, hbot, Finset.mem_insert_self _ _, fun p d hd => ?_⟩, hbound⟩
  exact Finset.mem_insert_of_mem (Finset.mem_image_of_mem _ (mem_dependencies hd))

/-- **The walk comes to its end**, visits every module that was there and no key
twice, and keeps for each key the dependencies that no other one leads to. -/
theorem exists_reduceDepends (hbot : m.get ⊥ = [])
    (hac : ∀ a, ¬Relation.TransGen (Edge m) a a) :
    ∃ N, ∀ fuel ≥ N, ∃ kept m', reduceDepends fuel m = some (kept, m') ∧
      (∀ p ∈ m.keys, p ∈ kept.map Prod.fst) ∧ (kept.map Prod.fst).Nodup ∧
      ∀ x ∈ kept, x.2 = keptDeps m (m.get x.1) := by
  obtain ⟨rank, hsearch, hbound⟩ := exists_searchable hbot hac
  set K : Finset (WithBot M) := insert ⊥ ((dependencies m).image (↑))
  refine ⟨(dependencies m).card + (m.keys ∪ K).card + 1, fun fuel hfuel => ?_⟩
  have hrank : ∀ a, rank a < fuel := fun a => by
    have := hbound a
    omega
  have hcard : ((m.keys ∪ K).filter (OrdMap.Behind none)).card < fuel := by
    have := Finset.card_filter_le (m.keys ∪ K) (OrdMap.Behind none)
    omega
  have hround : ∀ m₁, m.Grow K m₁ → ∀ p ∈ m₁.keys, ∃ deps m', reduceModule fuel (m₁.get p) m₁ =
      some (deps, m') ∧ deps = keptDeps m (m.get p) ∧ m₁.Grow K m' := by
    intro m₁ hm₁ p _
    obtain ⟨m', hred, hgrow⟩ := hsearch.reduceModule_spec hrank (p := p) hm₁
    exact ⟨_, m', by rw [hm₁.get_eq]; exact hred, rfl, hgrow⟩
  obtain ⟨kept, m', hwalk, -, hkeys, hspec, hsorted⟩ :=
    OrdMap.forEach_spec (Q := fun p deps => deps = keptDeps m (m.get p)) hround fuel .refl hcard
  exact ⟨kept, m', hwalk, fun p hp => hkeys p hp nofun, hsorted.imp fun hlt => ne_of_lt hlt,
    fun x hx => (hspec x hx).1⟩

/-- The kept lists, as a digraph. -/
def KeptEdge (kept : List (WithBot M × List M)) (a b : M) : Prop :=
  ∃ deps, ((a : WithBot M), deps) ∈ kept ∧ b ∈ deps

/-- The kept lists with one entry of one of them taken out. -/
def removeEntry (kept : List (WithBot M × List M)) (p : WithBot M) (d : M) :
    List (WithBot M × List M) :=
  kept.map fun x => if x.1 = p then (x.1, x.2.erase d) else x

/-- The lists kept for the keys are those of the kept edges. -/
theorem keptEdge_iff {kept : List (WithBot M × List M)}
    (hkeys : ∀ p ∈ m.keys, p ∈ kept.map Prod.fst)
    (hkept : ∀ x ∈ kept, x.2 = keptDeps m (m.get x.1)) {a b : M} :
    KeptEdge kept a b ↔ Kept (Edge m) a b := by
  constructor
  · rintro ⟨deps, hmem, hb⟩
    have hdeps : deps = keptDeps m (m.get a) := hkept _ hmem
    exact mem_keptDeps.mp (hdeps ▸ hb)
  · intro h
    have ha : (a : WithBot M) ∈ m.keys := by
      by_contra hcon
      have hb : b ∈ m.get a := h.1
      rw [m.get_of_not_mem _ hcon] at hb
      exact List.not_mem_nil hb
    obtain ⟨⟨p, deps⟩, hmem, rfl⟩ := List.mem_map.mp (hkeys _ ha)
    have hdeps : deps = keptDeps m (m.get a) := hkept _ hmem
    exact ⟨deps, hmem, hdeps ▸ mem_keptDeps.mpr h⟩

/-- Taking an entry out leaves edges that were there. -/
theorem KeptEdge.of_removeEntry {kept : List (WithBot M × List M)} {p : WithBot M} {d a b : M}
    (h : KeptEdge (removeEntry kept p d) a b) : KeptEdge kept a b := by
  obtain ⟨deps, hmem, hb⟩ := h
  obtain ⟨⟨q, deps'⟩, hx, heq⟩ := List.mem_map.mp hmem
  dsimp only at heq
  split at heq
  · obtain ⟨rfl, rfl⟩ := Prod.mk.inj heq
    exact ⟨deps', hx, List.mem_of_mem_erase hb⟩
  · obtain ⟨rfl, rfl⟩ := Prod.mk.inj heq
    exact ⟨deps', hx, hb⟩

/-- Taking out an entry that is not repeated takes out its edge. -/
theorem not_keptEdge_removeEntry {kept : List (WithBot M × List M)} {a d : M}
    (hkept : ∀ x ∈ kept, x.2 = keptDeps m (m.get x.1))
    (hcount : (keptDeps m (m.get a)).count d = 1) : ¬KeptEdge (removeEntry kept a d) a d := by
  rintro ⟨deps, hmem, hd⟩
  obtain ⟨⟨q, deps'⟩, hx, heq⟩ := List.mem_map.mp hmem
  have hdeps : deps' = keptDeps m (m.get q) := hkept _ hx
  dsimp only at heq
  split at heq
  · obtain ⟨rfl, rfl⟩ := Prod.mk.inj heq
    have hpos := List.count_pos_iff.mpr hd
    rw [List.count_erase_self, hdeps, hcount] at hpos
    exact Nat.lt_irrefl 0 hpos
  · obtain ⟨rfl, rfl⟩ := Prod.mk.inj heq
    exact absurd rfl ‹_›

/-- **The loop computes the transitive reduction.** On a map that holds a graph
without cycles, and nothing under the null pointer, the walk comes to its end. It
visits every module that was there, and no key twice; the list it keeps for a key
is the sublist of the dependencies that no other one leads to. The kept edges
reach what all edges reach, and no entry of a kept list that is not repeated can
be taken out without losing something. -/
theorem reduceDepends_spec (hbot : m.get ⊥ = [])
    (hac : ∀ a, ¬Relation.TransGen (Edge m) a a) :
    ∃ N, ∀ fuel ≥ N, ∃ kept m', reduceDepends fuel m = some (kept, m') ∧
      (∀ p ∈ m.keys, p ∈ kept.map Prod.fst) ∧ (kept.map Prod.fst).Nodup ∧
      (∀ x ∈ kept, x.2 = keptDeps m (m.get x.1)) ∧
      (∀ a b, Relation.TransGen (KeptEdge kept) a b ↔ Relation.TransGen (Edge m) a b) ∧
      ∀ p deps d, (p, deps) ∈ kept → deps.count d = 1 →
        ¬∀ a b, Relation.TransGen (KeptEdge (removeEntry kept p d)) a b ↔
          Relation.TransGen (KeptEdge kept) a b := by
  obtain ⟨rank, hsearch, -⟩ := exists_searchable hbot hac
  obtain ⟨N, hN⟩ := exists_reduceDepends hbot hac
  refine ⟨N, fun fuel hfuel => ?_⟩
  obtain ⟨kept, m', hwalk, hkeys, hnodup, hkept⟩ := hN fuel hfuel
  have hedge : KeptEdge kept = Kept (Edge m) :=
    funext fun a => funext fun b => propext (keptEdge_iff hkeys hkept)
  refine ⟨kept, m', hwalk, hkeys, hnodup, hkept, fun a b => ?_, ?_⟩
  · rw [hedge]
    exact transGen_kept hsearch.isRank
  · intro p deps d hmem hcount hsame
    have hdeps : deps = keptDeps m (m.get p) := hkept _ hmem
    obtain ⟨a, rfl⟩ : ∃ a : M, p = a := by
      cases p with
      | bot => simp [hdeps, hbot, keptDeps] at hcount
      | coe a => exact ⟨a, rfl⟩
    have hd : Kept (Edge m) a d :=
      mem_keptDeps.mp (hdeps ▸ List.count_pos_iff.mp (by omega))
    refine hd.not_transGen (fun x y hxy => ?_)
      (not_keptEdge_removeEntry hkept (hdeps ▸ hcount)) ((hsame a d).mpr ?_)
    · exact ((keptEdge_iff hkeys hkept).mp hxy.of_removeEntry).1
    · rw [hedge]
      exact .single hd

/-- Three modules, the third depending on the first directly and through the
second. -/
def triangle : OrdMap (WithBot ℕ) (List ℕ) :=
  (OrdMap.empty.modify (.some 2) fun _ => [0, 1]).modify (.some 1) fun _ => [0]

theorem triangle_get {p : WithBot ℕ} {d : ℕ} (h : d ∈ triangle.get p) :
    (p = .some 2 ∧ d < 2) ∨ (p = .some 1 ∧ d = 0) := by
  simp only [triangle, OrdMap.modify, Function.update_apply, OrdMap.empty_get] at h
  split at h
  · exact Or.inr ⟨‹_›, by simpa using h⟩
  · split at h
    · refine Or.inl ⟨‹_›, ?_⟩
      simp only [List.mem_cons, List.not_mem_nil, or_false] at h
      omega
    · exact absurd h List.not_mem_nil

/-- The reduction of `KernelConfiguration.triangle` keeps what is reachable. -/
theorem reduceDepends_triangle :
    ∃ N, ∀ fuel ≥ N, ∃ kept m', reduceDepends fuel triangle = some (kept, m') ∧
      ∀ a b, Relation.TransGen (KeptEdge kept) a b ↔ Relation.TransGen (Edge triangle) a b := by
  have hr : IsRank (Edge triangle) id := by
    intro a b hab
    rcases triangle_get hab with ⟨ha, hb⟩ | ⟨ha, hb⟩
    · rw [WithBot.coe_inj] at ha
      exact ha ▸ hb
    · rw [WithBot.coe_inj] at ha
      exact ha ▸ hb ▸ Nat.zero_lt_one
  obtain ⟨N, hN⟩ := reduceDepends_spec (m := triangle) rfl
    fun a ha => Nat.lt_irrefl a (hr.lt_of_transGen ha)
  refine ⟨N, fun fuel hfuel => ?_⟩
  obtain ⟨kept, m', hwalk, -, -, -, hreach, -⟩ := hN fuel hfuel
  exact ⟨kept, m', hwalk, hreach⟩

example : (reduceDepends 4 triangle).map Prod.fst =
    some [(.some 1, [0]), (.some 2, [1])] := by decide

end KernelConfiguration
