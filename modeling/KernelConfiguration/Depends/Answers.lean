import KernelConfiguration.Depends.Reduction
import KernelConfiguration.Thinning

/-!
# The reduction on a graph with cycles

Nothing in `build-depends` keeps cycles out of the graph, and the reduction may come
to its end on a graph that has some: the search stops when it has found what it looks
for. What it leaves then is no transitive reduction, and the question is what it is.

The outer loop thins the list of a module against itself, by reachability
(`KernelConfiguration.thin`), and the answers of the search are right whenever there
are any, so that what is kept is known for every graph on which the loop ends
(`KernelConfiguration.reduceDepends_answers`): every dependency is kept or reached
from one that is, in the graph as it was read, and no dependency kept is reached from
another one. Where several dependencies reach each other the last one is kept.

That is not enough for the graph to be the same as before. The path that makes a
dependency superfluous may go through a module from whose list it is dropped for the
same reason, and both are lost (`KernelConfiguration.reduceDepends_twoWay`).
-/

namespace KernelConfiguration

variable {M : Type*} [LinearOrder M] {m m₀ m' : OrdMap (WithBot M) (List M)}
  {K : Finset (WithBot M)} {fuel : ℕ}

/-- **What the answers of the search rest on**: nothing under the null pointer, and a
finite set of pointers that the search does not leave. -/
structure Closed (m : OrdMap (WithBot M) (List M)) (K : Finset (WithBot M)) : Prop where
  /-- Nothing is recorded under the null pointer. -/
  get_bot : m.get ⊥ = []
  /-- The null pointer may be entered. -/
  bot_mem : ⊥ ∈ K
  /-- The dependencies may be entered. -/
  dep_mem : ∀ p, ∀ d ∈ m.get p, (d : WithBot M) ∈ K

theorem closed_dependencies (hbot : m.get ⊥ = []) :
    Closed m (insert ⊥ ((dependencies m).image (↑))) :=
  ⟨hbot, Finset.mem_insert_self _ _, fun _ _ hd =>
    Finset.mem_insert_of_mem (Finset.mem_image_of_mem _ (mem_dependencies hd))⟩

/-! ### The answers of the loops -/

/-- The answers of a search that starts at a pointer are right. -/
theorem Closed.dependsOn_rightAnswers (h : Closed m₀ K) (t : M) {p : WithBot M} (hp : p ∈ K) :
    RightAnswers m₀ K (PtrReach m₀ p t) (dependsOn fuel p t) := by
  cases p with
  | bot =>
    intro m b m' hm hsearch
    cases fuel with
    | zero => exact absurd hsearch.symm (Option.some_ne_none _)
    | succ fuel =>
      rw [dependsOn, if_pos WithBot.coe_ne_bot, hm.get_eq, h.get_bot] at hsearch
      obtain ⟨rfl, rfl⟩ := Prod.mk.inj (Option.some.inj hsearch)
      exact ⟨.access hp, by simp [not_ptrReach_bot]⟩
  | coe a =>
    have hreach : PtrReach m₀ a t = Relation.TransGen (Edge m₀) a t := propext ptrReach_coe
    rw [hreach]
    exact KernelConfiguration.dependsOn_rightAnswers h.dep_mem fuel hp

/-- What the inner loop does with an entry, when it is about `d`. -/
def compare (fuel : ℕ) (d : M) (p : WithBot M) (m : OrdMap (WithBot M) (List M)) :
    Option (Bool × OrdMap (WithBot M) (List M)) :=
  if ↑d ≠ p then dependsOn fuel p d m else some (false, m)

/-- The answers for an entry are right. -/
theorem Closed.compare_rightAnswers (h : Closed m₀ K) (d : M) {p : WithBot M} (hp : p ∈ K) :
    RightAnswers m₀ K (↑d ≠ p ∧ PtrReach m₀ p d) (compare fuel d p) := by
  intro m b m' hm hbody
  rw [compare] at hbody
  by_cases hne : (d : WithBot M) ≠ p
  · rw [if_pos hne] at hbody
    obtain ⟨hgrow, hb⟩ := h.dependsOn_rightAnswers d hp m b m' hm hbody
    exact ⟨hgrow, by simp [hb, hne]⟩
  · rw [if_neg hne] at hbody
    obtain ⟨rfl, rfl⟩ := Prod.mk.inj (Option.some.inj hbody)
    exact ⟨.refl, by simp [hne]⟩

/-- The answers of the inner loop are right. -/
theorem Closed.covered_rightAnswers (h : Closed m₀ K) {d : M} {entries : List (WithBot M)}
    (hentries : ∀ p ∈ entries, p ∈ K) :
    RightAnswers m₀ K (∃ p ∈ entries, ↑d ≠ p ∧ PtrReach m₀ p d) (covered fuel d entries) :=
  searchList_rightAnswers fun p hp => h.compare_rightAnswers d (hentries p hp)

/-- The relation by which the lists are thinned. -/
abbrev Reaches (m : OrdMap (WithBot M) (List M)) : M → M → Prop := Relation.TransGen (Edge m)

omit [LinearOrder M] in
theorem mem_filterMap_pointee {entries : List (WithBot M)} {c : M} :
    c ∈ entries.filterMap pointee ↔ (c : WithBot M) ∈ entries := by
  rw [List.mem_filterMap]
  constructor
  · rintro ⟨p, hp, hpc⟩
    cases p with
    | bot => exact absurd hpc.symm (Option.some_ne_none c)
    | coe a =>
      obtain rfl : a = c := Option.some.inj hpc
      exact hp
  · exact fun h => ⟨c, h, rfl⟩

omit [LinearOrder M] in
/-- The inner loop looks at the entries that are left, the one it is about aside. -/
theorem exists_entry_iff_not_stays {pre rest : List M} {d : M} {seen : List (WithBot M)}
    (hseen : seen.filterMap pointee = thinBefore (Reaches m) pre (d :: rest)) :
    (∃ p ∈ seen ++ (d :: rest).map (↑), ↑d ≠ p ∧ PtrReach m p d) ↔
      ¬Stays (Reaches m) pre d rest := by
  rw [← exists_left_iff fun _ _ _ => Relation.TransGen.trans, ← hseen]
  constructor
  · rintro ⟨p, hp, hne, c, rfl, hcd⟩
    have hcne : c ≠ d := fun heq => hne (congrArg _ heq.symm)
    refine ⟨c, ?_, hcne, hcd⟩
    rw [List.mem_append] at hp ⊢
    rcases hp with hp | hp
    · exact Or.inl (mem_filterMap_pointee.mpr hp)
    · obtain ⟨x, hx, hxc⟩ := List.mem_map.mp hp
      rw [WithBot.coe_inj] at hxc
      subst hxc
      exact Or.inr ((List.mem_cons.mp hx).resolve_left hcne)
  · rintro ⟨c, hc, hne, hcd⟩
    refine ⟨c, ?_, fun heq => hne (WithBot.coe_inj.mp heq).symm, ptrReach_coe.mpr hcd⟩
    rw [List.mem_append] at hc ⊢
    rcases hc with hc | hc
    · exact Or.inl (mem_filterMap_pointee.mp hc)
    · exact Or.inr (List.mem_map_of_mem (List.mem_cons_of_mem _ hc))

/-- **What holds when the outer loop comes to the entries `rest`**: those before them
have been thinned. -/
structure Thinned (m : OrdMap (WithBot M) (List M)) (K : Finset (WithBot M)) (pre rest : List M)
    (seen : List (WithBot M)) : Prop where
  /-- The entries to come may be entered. -/
  rest_mem : ∀ d ∈ rest, (d : WithBot M) ∈ K
  /-- So may the entries looked at. -/
  seen_mem : ∀ p ∈ seen, p ∈ K
  /-- Those that are not null are the ones that stay. -/
  seen_eq : seen.filterMap pointee = thinBefore (Reaches m) pre rest

omit [LinearOrder M] in
theorem Thinned.entries_mem {pre rest : List M} {seen : List (WithBot M)}
    (h : Thinned m K pre rest seen) : ∀ p ∈ seen ++ rest.map (↑), p ∈ K := by
  intro p hp
  rcases List.mem_append.mp hp with hp | hp
  · exact h.seen_mem p hp
  · obtain ⟨x, hx, rfl⟩ := List.mem_map.mp hp
    exact h.rest_mem x hx

/-- **One round of the outer loop**, if the inner loop comes to its end. -/
theorem Closed.thinned_step (h : Closed m₀ K) {pre rest : List M} {d : M}
    {seen : List (WithBot M)} {b : Bool} (hseen : Thinned m₀ K pre (d :: rest) seen)
    (hm : m₀.Grow K m) (hb : covered fuel d (seen ++ (d :: rest).map (↑)) m = some (b, m')) :
    m.Grow K m' ∧
      Thinned m₀ K (pre ++ [d]) rest (seen ++ [if b = true then ⊥ else (d : WithBot M)]) := by
  classical
  obtain ⟨hgrow, hP⟩ := h.covered_rightAnswers hseen.entries_mem m b m' hm hb
  rw [exists_entry_iff_not_stays hseen.seen_eq] at hP
  refine ⟨hgrow, fun x hx => hseen.rest_mem x (List.mem_cons_of_mem _ hx), ?_, ?_⟩
  · intro p hp
    rcases List.mem_append.mp hp with hp | hp
    · exact hseen.seen_mem p hp
    · rw [List.mem_singleton] at hp
      subst hp
      split
      · exact h.bot_mem
      · exact hseen.rest_mem d List.mem_cons_self
  · rw [List.filterMap_append, hseen.seen_eq, thinBefore_snoc]
    refine congrArg _ ?_
    by_cases hstays : Stays (Reaches m₀) pre d rest
    · rw [if_pos hstays, if_neg fun hbt => hP.mp hbt hstays]
      rfl
    · rw [if_neg hstays, if_pos (hP.mpr hstays)]
      rfl

/-- **The outer loop thins the list**, if it comes to its end. -/
theorem Closed.reduceLoop_answers (h : Closed m₀ K) (rest : List M) :
    ∀ {pre : List M} {seen entries : List (WithBot M)} {m m' : OrdMap (WithBot M) (List M)},
      Thinned m₀ K pre rest seen → m₀.Grow K m →
      reduceLoop fuel seen (rest.map (↑)) m = some (entries, m') →
      entries.filterMap pointee = thin (Reaches m₀) (pre ++ rest) ∧ m.Grow K m' := by
  induction rest with
  | nil =>
    intro pre seen entries m m' hseen _ hloop
    obtain ⟨rfl, rfl⟩ := Prod.mk.inj (Option.some.inj hloop)
    rw [List.append_nil]
    exact ⟨hseen.seen_eq, .refl⟩
  | cons d rest ih =>
    intro pre seen entries m m' hseen hm hloop
    rw [List.map_cons, reduceLoop, ← List.map_cons] at hloop
    obtain ⟨⟨b, m₁⟩, hb, hloop⟩ := Option.bind_eq_some_iff.mp hloop
    obtain ⟨hgrow, hseen'⟩ := h.thinned_step hseen hm hb
    obtain ⟨hlist, hgrow'⟩ := ih hseen' (hm.trans hgrow) hloop
    rw [List.append_assoc] at hlist
    exact ⟨hlist, hgrow.trans hgrow'⟩

omit [LinearOrder M] in
/-- The outer loop begins with nothing looked at. -/
theorem Closed.thinned_nil (h : Closed m₀ K) (p : WithBot M) :
    Thinned m₀ K [] (m₀.get p) [] :=
  ⟨h.dep_mem p, fun _ hp => absurd hp List.not_mem_nil, rfl⟩

/-- One round thins the list of a module, if it comes to its end. -/
theorem Closed.reduceModule_answers (h : Closed m₀ K) {p : WithBot M} {deps : List M}
    (hm : m₀.Grow K m) (hred : reduceModule fuel (m₀.get p) m = some (deps, m')) :
    deps = thin (Reaches m₀) (m₀.get p) ∧ m.Grow K m' := by
  rw [reduceModule] at hred
  by_cases hlen : (m₀.get p).length > 1
  · rw [if_pos hlen] at hred
    obtain ⟨⟨entries, m₁⟩, hloop, hred⟩ := Option.bind_eq_some_iff.mp hred
    obtain ⟨rfl, rfl⟩ := Prod.mk.inj (Option.some.inj hred)
    exact h.reduceLoop_answers (m₀.get p) (h.thinned_nil p) hm hloop
  · rw [if_neg hlen] at hred
    obtain ⟨rfl, rfl⟩ := Prod.mk.inj (Option.some.inj hred)
    exact ⟨(thin_of_length_le (Nat.not_lt.mp hlen)).symm, .refl⟩

/-! ### The whole walk -/

/-- The walk thins the list of every key, if it comes to its end. -/
theorem reduceDepends_thin (hbot : m.get ⊥ = []) {kept : List (WithBot M × List M)}
    (hwalk : reduceDepends fuel m = some (kept, m')) :
    m'.get = m.get ∧ (∀ p ∈ m.keys, p ∈ kept.map Prod.fst) ∧
      (kept.map Prod.fst).Pairwise (· < ·) ∧
      ∀ x ∈ kept, x.2 = thin (Reaches m) (m.get x.1) := by
  have hclosed := closed_dependencies hbot
  have hround : ∀ m₁, m.Grow (insert ⊥ ((dependencies m).image (↑))) m₁ → ∀ p deps m₂,
      reduceModule fuel (m₁.get p) m₁ = some (deps, m₂) →
      deps = thin (Reaches m) (m.get p) ∧
        m₁.Grow (insert ⊥ ((dependencies m).image (↑))) m₂ := by
    intro m₁ hm₁ p deps m₂ hred
    rw [hm₁.get_eq] at hred
    exact hclosed.reduceModule_answers hm₁ hred
  obtain ⟨hgrow, hkeys, hspec, hsorted⟩ := OrdMap.forEach_answers
    (Q := fun p deps => deps = thin (Reaches m) (m.get p)) hround fuel .refl hwalk
  exact ⟨hgrow.get_eq, fun p hp => hkeys p hp nofun, hsorted, fun x hx => (hspec x hx).1⟩

/-- **What the reduction leaves of any graph**, if it comes to its end. Every module
that was there is visited, in the order of the addresses, and the map is left with the
lists it had. The list kept for a key is its list of dependencies, thinned by
reachability: no dependency kept is reached from another one, and each dependency is
kept or reached from one that is. -/
theorem reduceDepends_answers (hbot : m.get ⊥ = []) {kept : List (WithBot M × List M)}
    (hwalk : reduceDepends fuel m = some (kept, m')) :
    m'.get = m.get ∧ (∀ p ∈ m.keys, p ∈ kept.map Prod.fst) ∧
      (kept.map Prod.fst).Pairwise (· < ·) ∧
      ∀ p deps, (p, deps) ∈ kept → deps = thin (Relation.TransGen (Edge m)) (m.get p) ∧
        deps.Sublist (m.get p) ∧
        (∀ c ∈ deps, ∀ d ∈ deps, c ≠ d → ¬Relation.TransGen (Edge m) c d) ∧
        ∀ d ∈ m.get p, ∃ c ∈ deps, Relation.ReflTransGen (Edge m) c d := by
  obtain ⟨hget, hkeys, hsorted, hthin⟩ := reduceDepends_thin hbot hwalk
  refine ⟨hget, hkeys, hsorted, fun p deps hmem => ?_⟩
  obtain rfl : deps = thin (Reaches m) (m.get p) := hthin _ hmem
  refine ⟨rfl, sublist_thin, fun c hc d hd hne => not_rel_of_mem_thin hc hd hne, fun d hd => ?_⟩
  obtain ⟨c, hc, hcd⟩ := exists_mem_thin (R := Reaches m) (fun _ _ _ => Relation.TransGen.trans) hd
  refine ⟨c, hc, Relation.reflTransGen_iff_eq_or_transGen.mpr ?_⟩
  exact hcd.imp Eq.symm id

/-- Two modules that depend on each other, and both on a third one. -/
def twoWay : OrdMap (WithBot ℕ) (List ℕ) :=
  (OrdMap.empty.modify (.some 0) fun _ => [2, 1]).modify (.some 1) fun _ => [2, 0]

/-- **A dependency lost to a cycle**: each of the two modules of
`KernelConfiguration.twoWay` needs the third one through the other, and neither keeps
it. -/
theorem reduceDepends_twoWay :
    ∃ kept m', reduceDepends 4 twoWay = some (kept, m') ∧ m'.get = twoWay.get ∧
      Relation.TransGen (Edge twoWay) 0 2 ∧ ¬Relation.TransGen (KeptEdge kept) 0 2 := by
  obtain ⟨kept, m', hwalk, hkept⟩ : ∃ kept m', reduceDepends 4 twoWay = some (kept, m') ∧
      kept = [(.some 0, [1]), (.some 1, [0])] := ⟨_, _, rfl, by decide⟩
  have hedge : (2 : ℕ) ∈ twoWay.get (0 : ℕ) := by decide
  refine ⟨kept, m', hwalk, (reduceDepends_answers rfl hwalk).1, .single hedge, fun hpath => ?_⟩
  -- no edge that is kept leads to the third module
  obtain ⟨c, -, deps, hmem, hc⟩ := Relation.TransGen.tail'_iff.mp hpath
  rw [hkept] at hmem
  simp only [List.mem_cons, Prod.mk.injEq, List.not_mem_nil, or_false] at hmem
  rcases hmem with ⟨-, rfl⟩ | ⟨-, rfl⟩ <;> simp at hc

end KernelConfiguration
