import KernelConfiguration.Depends.Answers
import KernelConfiguration.Depends.Canonical

/-!
# When build-depends comes to its end

The search of `build-depends` may run in a circle, and whether the program meets such
a search is not a matter of the graph alone. A list of one dependency is not looked at.
In a longer one, a dependency is searched from the other ones that are still there,
one after the other, until one of them leads to it; and the search itself goes no
further when it has found what it looks for. So a file with cycles may be processed
without harm, or not, and the order of its lines may decide.

`KernelConfiguration.EndsOn` lists the searches that are made and asks of each of them
that it does not run in a circle. The program comes to its end on exactly the files for
which this holds (`KernelConfiguration.buildDepends_ends_iff`); and if it does, it does
so within a depth of recursion that is bounded by the number of modules, so that to run
it with this bound is to decide the question.
-/

namespace KernelConfiguration

variable {M : Type*} [LinearOrder M] {m m₀ m' : OrdMap (WithBot M) (List M)}
  {K : Finset (WithBot M)} {fuel : ℕ} {c d : M} {pre rest : List M}
  {seen entries : List (WithBot M)}

/-! ### The searches that are made -/

/-- The entries the inner loop goes through, when the outer one is at `d`. -/
noncomputable def entriesAt (m : OrdMap (WithBot M) (List M)) (pre : List M) (d : M)
    (rest : List M) : List M :=
  thinBefore (Reaches m) pre (d :: rest) ++ d :: rest

/-- **The inner loop searches from `c`**, when it is about `d`: it has not found an
entry before that leads to `d`. -/
def SearchesFrom (m : OrdMap (WithBot M) (List M)) (entries : List M) (d c : M) : Prop :=
  ∃ before after, entries = before ++ c :: after ∧ c ≠ d ∧
    ∀ b ∈ before, b ≠ d → ¬Reaches m b d

/-- **No search for `d` runs in a circle.** -/
def EndsAt (m : OrdMap (WithBot M) (List M)) (entries : List M) (d : M) : Prop :=
  ∀ c, SearchesFrom m entries d c → ¬Endless (Follows m d) c

/-- No search runs in a circle that the outer loop makes for the entries `rest`. -/
def EndsFrom (m : OrdMap (WithBot M) (List M)) : List M → List M → Prop
  | _, [] => True
  | pre, d :: rest => EndsAt m (entriesAt m pre d rest) d ∧ EndsFrom m (pre ++ [d]) rest

/-- **No search of the reduction runs in a circle.** -/
def EndsOn (m : OrdMap (WithBot M) (List M)) : Prop := ∀ a : M, EndsFrom m [] (m.get a)

/-! ### The inner loop -/

omit [LinearOrder M] in
theorem pointee_eq_some {p : WithBot M} : pointee p = some c ↔ p = c := by
  cases p with
  | bot =>
    exact ⟨fun h => absurd h.symm (Option.some_ne_none c), fun h => absurd h WithBot.bot_ne_coe⟩
  | coe a =>
    rw [WithBot.coe_inj]
    exact ⟨Option.some.inj, congrArg some⟩

omit [LinearOrder M] in
theorem Thinned.filterMap_entries (h : Thinned m K pre (d :: rest) seen) :
    (seen ++ (d :: rest).map ((↑) : M → WithBot M)).filterMap pointee =
      entriesAt m pre d rest := by
  have hsome : ((d :: rest).map ((↑) : M → WithBot M)).filterMap pointee = d :: rest := by
    rw [List.filterMap_map]
    exact List.filterMap_some
  rw [List.filterMap_append, h.seen_eq, hsome, entriesAt]

/-- The search from a pointer ends, if there is no circle. -/
theorem Closed.dependsOn_ne_none (h : Closed m₀ K) (hfuel : (dependencies m₀).card < fuel)
    {p : WithBot M} (hp : p ∈ K) (hends : ∀ c : M, p = c → ¬Endless (Follows m₀ d) c)
    (hm : m₀.Grow K m) : dependsOn fuel p d m ≠ none := by
  cases p with
  | bot =>
    obtain ⟨k, rfl⟩ := Nat.exists_eq_succ_of_ne_zero (Nat.ne_zero_of_lt hfuel)
    rw [dependsOn, if_pos WithBot.coe_ne_bot, hm.get_eq, h.get_bot]
    exact Option.some_ne_none _
  | coe a =>
    obtain ⟨rank, hr, hbound⟩ := exists_rank_le_of_not_endless (hends a rfl) (S := dependencies m₀)
      fun _ _ hxy => mem_dependencies hxy.mem
    exact KernelConfiguration.dependsOn_ne_none h.dep_mem hr fuel hp .refl
      (Nat.lt_of_le_of_lt (hbound a) hfuel) m hm

/-- **The inner loop ends**, if no search for `d` runs in a circle. -/
theorem Closed.covered_ne_none (h : Closed m₀ K) (hfuel : (dependencies m₀).card < fuel)
    (hentries : ∀ p ∈ entries, p ∈ K) (hends : EndsAt m₀ (entries.filterMap pointee) d)
    (hm : m₀.Grow K m) : covered fuel d entries m ≠ none := by
  refine searchList_ne_none (fun p hp => h.compare_rightAnswers d (hentries p hp)) ?_ hm
  rintro before p after rfl hbefore m hm
  rw [compare]
  by_cases hne : (d : WithBot M) ≠ p
  · rw [if_pos hne]
    refine h.dependsOn_ne_none hfuel
      (hentries p (List.mem_append_right _ List.mem_cons_self)) ?_ hm
    rintro c rfl
    refine hends c ⟨before.filterMap pointee, after.filterMap pointee, ?_, ?_, ?_⟩
    · rw [List.filterMap_append]
      rfl
    · exact fun heq => hne (congrArg _ heq.symm)
    · intro b hb hbd hreach
      refine hbefore b (mem_filterMap_pointee.mp hb) ⟨fun heq => ?_, ptrReach_coe.mpr hreach⟩
      exact hbd (WithBot.coe_inj.mp heq).symm
  · rw [if_neg hne]
    exact Option.some_ne_none _

/-- **The inner loop does not end**, if some search for `d` runs in a circle. -/
theorem Closed.covered_eq_none (h : Closed m₀ K) (hentries : ∀ p ∈ entries, p ∈ K)
    (hends : ¬EndsAt m₀ (entries.filterMap pointee) d) (hm : m₀.Grow K m) :
    covered fuel d entries m = none := by
  rw [EndsAt] at hends
  push Not at hends
  obtain ⟨c, ⟨before, after, hsplit, hcd, hbefore⟩, hendless⟩ := hends
  -- the entries before `c`, with the null pointers among them
  obtain ⟨l₁, l₂, rfl, rfl, hl₂⟩ := List.filterMap_eq_append_iff.mp hsplit
  obtain ⟨nulls, p, l₃, rfl, hnulls, hp, -⟩ := List.filterMap_eq_cons_iff.mp hl₂
  obtain rfl := pointee_eq_some.mp hp
  rw [← List.append_assoc] at hentries ⊢
  have hright : ∀ q ∈ l₁ ++ nulls, RightAnswers m₀ K (↑d ≠ q ∧ PtrReach m₀ q d)
      (compare fuel d q) := fun q hq =>
    h.compare_rightAnswers d (hentries q (List.mem_append_left _ hq))
  refine searchList_eq_none hright ?_ ?_ hm
  · rintro q hq ⟨hne, b, rfl, hreach⟩
    rcases List.mem_append.mp hq with hq | hq
    · exact hbefore b (mem_filterMap_pointee.mpr hq) (fun heq => hne (congrArg _ heq.symm)) hreach
    · exact absurd (hnulls b hq) (Option.some_ne_none b)
  · intro m hm
    rw [compare, if_pos fun heq => hcd (WithBot.coe_inj.mp heq).symm]
    exact dependsOn_eq_none h.dep_mem fuel
      (hentries c (List.mem_append_right _ List.mem_cons_self)) hendless m hm

/-! ### The outer loop and the walk -/

/-- The outer loop ends, if no search that it makes runs in a circle. -/
theorem Closed.reduceLoop_ne_none (h : Closed m₀ K) (hfuel : (dependencies m₀).card < fuel)
    (rest : List M) : ∀ {pre : List M} {seen : List (WithBot M)}
      {m : OrdMap (WithBot M) (List M)}, Thinned m₀ K pre rest seen → EndsFrom m₀ pre rest →
      m₀.Grow K m → reduceLoop fuel seen (rest.map (↑)) m ≠ none := by
  induction rest with
  | nil => exact fun _ _ _ => Option.some_ne_none _
  | cons d rest ih =>
    intro pre seen m hseen hends hm
    have hat : EndsAt m₀ ((seen ++ (d :: rest).map ((↑) : M → WithBot M)).filterMap pointee) d := by
      rw [hseen.filterMap_entries]
      exact hends.1
    obtain ⟨⟨b, m₁⟩, hb⟩ := Option.ne_none_iff_exists'.mp
      (h.covered_ne_none hfuel hseen.entries_mem hat hm)
    obtain ⟨hgrow, hseen'⟩ := h.thinned_step hseen hm hb
    rw [List.map_cons, reduceLoop, ← List.map_cons, hb]
    exact ih hseen' hends.2 (hm.trans hgrow)

/-- If the outer loop ends, no search that it makes runs in a circle. -/
theorem Closed.endsFrom_of_reduceLoop (h : Closed m₀ K) (rest : List M) : ∀ {pre : List M}
    {seen entries : List (WithBot M)} {m m' : OrdMap (WithBot M) (List M)},
      Thinned m₀ K pre rest seen → m₀.Grow K m →
      reduceLoop fuel seen (rest.map (↑)) m = some (entries, m') → EndsFrom m₀ pre rest := by
  induction rest with
  | nil => exact fun _ _ _ => trivial
  | cons d rest ih =>
    intro pre seen entries m m' hseen hm hloop
    rw [List.map_cons, reduceLoop, ← List.map_cons] at hloop
    obtain ⟨⟨b, m₁⟩, hb, hloop⟩ := Option.bind_eq_some_iff.mp hloop
    obtain ⟨hgrow, hseen'⟩ := h.thinned_step hseen hm hb
    refine ⟨?_, ih hseen' (hm.trans hgrow) hloop⟩
    rw [← hseen.filterMap_entries]
    by_contra hends
    rw [h.covered_eq_none hseen.entries_mem hends hm] at hb
    exact absurd hb.symm (Option.some_ne_none _)

omit [LinearOrder M] in
/-- A list of one entry makes no search. -/
theorem endsFrom_of_length_le {deps : List M} (hlen : deps.length ≤ 1) : EndsFrom m [] deps := by
  match deps, hlen with
  | [], _ => trivial
  | [d], _ =>
    refine ⟨?_, trivial⟩
    rintro c ⟨before, after, hsplit, hcd, -⟩
    have hmem : c ∈ entriesAt m [] d [] := by
      rw [hsplit]
      exact List.mem_append_right _ List.mem_cons_self
    exact absurd (List.mem_singleton.mp hmem) hcd

/-- **One round ends** exactly when no search that it makes runs in a circle. -/
theorem Closed.reduceModule_ne_none (h : Closed m₀ K) (hfuel : (dependencies m₀).card < fuel)
    {p : WithBot M} (hends : EndsFrom m₀ [] (m₀.get p)) (hm : m₀.Grow K m) :
    reduceModule fuel (m₀.get p) m ≠ none := by
  rw [reduceModule]
  split
  · obtain ⟨⟨entries, m'⟩, hloop⟩ := Option.ne_none_iff_exists'.mp
      (h.reduceLoop_ne_none hfuel (m₀.get p) (h.thinned_nil p) hends hm)
    rw [hloop]
    exact Option.some_ne_none _
  · exact Option.some_ne_none _

theorem Closed.endsFrom_of_reduceModule (h : Closed m₀ K) {p : WithBot M} {deps : List M}
    (hm : m₀.Grow K m) (hred : reduceModule fuel (m₀.get p) m = some (deps, m')) :
    EndsFrom m₀ [] (m₀.get p) := by
  by_cases hlen : (m₀.get p).length > 1
  · rw [reduceModule, if_pos hlen] at hred
    obtain ⟨⟨entries, m₁⟩, hloop, -⟩ := Option.bind_eq_some_iff.mp hred
    exact h.endsFrom_of_reduceLoop (m₀.get p) (h.thinned_nil p) hm hloop
  · exact endsFrom_of_length_le (Nat.not_lt.mp hlen)

/-- The pointers that the walk may visit. -/
def walkKeys (m : OrdMap (WithBot M) (List M)) : Finset (WithBot M) :=
  m.keys ∪ insert ⊥ ((dependencies m).image (↑))

/-- **The depth that is enough**, if any is. -/
def walkBound (m : OrdMap (WithBot M) (List M)) : ℕ :=
  (dependencies m).card + (walkKeys m).card + 1

/-- The walk ends within the bound, if no search runs in a circle. -/
theorem reduceDepends_ne_none (hbot : m.get ⊥ = []) (hends : EndsOn m)
    (hfuel : walkBound m ≤ fuel) : reduceDepends fuel m ≠ none := by
  have hclosed := closed_dependencies hbot
  have hcard : ((walkKeys m).filter (OrdMap.Behind none)).card < fuel := by
    have := Finset.card_filter_le (walkKeys m) (OrdMap.Behind none)
    rw [walkBound] at hfuel
    omega
  have hdepth : (dependencies m).card < fuel := by
    rw [walkBound] at hfuel
    omega
  have hround : ∀ m₁, m.Grow (insert ⊥ ((dependencies m).image (↑))) m₁ → ∀ p ∈ m₁.keys,
      ∃ deps m₂, reduceModule fuel (m₁.get p) m₁ = some (deps, m₂) ∧ True ∧
        m₁.Grow (insert ⊥ ((dependencies m).image (↑))) m₂ := by
    intro m₁ hm₁ p _
    have hp : EndsFrom m [] (m.get p) := by
      cases p with
      | bot =>
        rw [hbot]
        exact trivial
      | coe a => exact hends a
    have hne := hclosed.reduceModule_ne_none hdepth hp hm₁
    rw [← hm₁.get_eq] at hne
    obtain ⟨⟨deps, m₂⟩, hred⟩ := Option.ne_none_iff_exists'.mp hne
    refine ⟨deps, m₂, hred, trivial, ?_⟩
    rw [hm₁.get_eq] at hred
    exact (hclosed.reduceModule_answers hm₁ hred).2
  obtain ⟨kept, m', hwalk, -⟩ :=
    OrdMap.forEach_spec (Q := fun _ _ => True) hround fuel .refl hcard
  have hsome : reduceDepends fuel m = some (kept, m') := hwalk
  rw [hsome]
  exact Option.some_ne_none _

/-- If the walk ends, no search runs in a circle. -/
theorem endsOn_of_reduceDepends (hbot : m.get ⊥ = []) {kept : List (WithBot M × List M)}
    (hwalk : reduceDepends fuel m = some (kept, m')) : EndsOn m := by
  have hclosed := closed_dependencies hbot
  have hround : ∀ m₁, m.Grow (insert ⊥ ((dependencies m).image (↑))) m₁ → ∀ p deps m₂,
      reduceModule fuel (m₁.get p) m₁ = some (deps, m₂) →
      EndsFrom m [] (m.get p) ∧ m₁.Grow (insert ⊥ ((dependencies m).image (↑))) m₂ := by
    intro m₁ hm₁ p deps m₂ hred
    rw [hm₁.get_eq] at hred
    exact ⟨hclosed.endsFrom_of_reduceModule hm₁ hred, (hclosed.reduceModule_answers hm₁ hred).2⟩
  obtain ⟨-, hkeys, hspec, -⟩ := OrdMap.forEach_answers
    (Q := fun p _ => EndsFrom m [] (m.get p)) hround fuel .refl hwalk
  intro a
  by_cases ha : ↑a ∈ m.keys
  · obtain ⟨x, hx, hxa⟩ := List.mem_map.mp (hkeys a ha nofun)
    rw [← hxa]
    exact (hspec x hx).1
  · rw [m.get_of_not_mem _ ha]
    exact trivial

/-! ### The program on a file -/

section

variable [LinearOrder Module] {r : Reader} {cline content : List Char}

/-- What is kept of a file is out of what was read, and can be printed. -/
theorem printDepends_of_reduceDepends {kept : List (WithBot Module × List Module)}
    {m' : OrdMap (WithBot Module) (List Module)} (hread : readFile cline content = some r)
    (hwalk : reduceDepends fuel r.depends = some (kept, m')) :
    printDepends kept = some (kept.flatMap keyEdges) ∧
      ∀ x ∈ kept, x.2.Sublist (r.depends.get x.1) := by
  have hbot := readFile_get_bot hread
  obtain ⟨-, -, -, hthin⟩ := reduceDepends_thin hbot hwalk
  have hkept : ∀ x ∈ kept, x.2.Sublist (r.depends.get x.1) := fun x hx =>
    hthin x hx ▸ sublist_thin
  refine ⟨printDepends_eq_flatMap fun x hx hp => ?_, hkept⟩
  have hsub := hkept x hx
  rw [hp, hbot] at hsub
  exact List.sublist_nil.mp hsub

/-- The pointers of the walk are to the modules of the file, or null. -/
theorem Recorded.walkBound_le (hrec : Recorded r) (hbot : r.depends.get ⊥ = []) :
    walkBound r.depends ≤ 2 * r.modules.length + 2 := by
  have hdeps : dependencies r.depends ⊆ r.modules.toFinset := by
    intro d hd
    obtain ⟨p, -, hd⟩ := Finset.mem_biUnion.mp hd
    rw [List.mem_toFinset] at hd ⊢
    cases p with
    | bot =>
      rw [hbot] at hd
      exact absurd hd List.not_mem_nil
    | coe a => exact (hrec.modules d).mpr ⟨_, hrec.edge_iff.mp hd, Or.inl rfl⟩
  have hkeys : walkKeys r.depends ⊆ insert ⊥ (r.modules.toFinset.image (↑)) := by
    refine Finset.union_subset (fun p hp => ?_)
      (Finset.insert_subset_insert _ (Finset.image_subset_image hdeps))
    obtain ⟨e, he, rfl⟩ := (hrec.keys p).mp hp
    refine Finset.mem_insert_of_mem (Finset.mem_image_of_mem _ (List.mem_toFinset.mpr ?_))
    exact (hrec.modules _).mpr ⟨e, he, Or.inr rfl⟩
  have hlen : r.modules.toFinset.card ≤ r.modules.length := List.toFinset_card_le _
  have hcard : (dependencies r.depends).card ≤ r.modules.length :=
    (Finset.card_le_card hdeps).trans hlen
  have hcard' : (walkKeys r.depends).card ≤ r.modules.length + 1 := by
    refine (Finset.card_le_card hkeys).trans ((Finset.card_insert_le _ _).trans ?_)
    exact Nat.succ_le_succ (Finset.card_image_le.trans hlen)
  rw [walkBound]
  omega

/-- **When the program comes to its end.** On every file, it does so exactly when no
search that the reduction makes on the dependencies read runs in a circle. And it does
so within a depth of recursion that is at most two more than twice the number of the
modules, or not at all. -/
theorem buildDepends_ends_iff (cline content : List Char) :
    ∃ r, readFile cline content = some r ∧
      ((∃ fuel out, buildDepends fuel cline content = some out) ↔ EndsOn r.depends) ∧
      ∀ fuel ≥ 2 * r.modules.length + 2,
        (∃ out, buildDepends fuel cline content = some out) ↔ EndsOn r.depends := by
  obtain ⟨r, hread, -⟩ := readFile_spec cline content
  obtain ⟨-, hrec⟩ := recorded_of_readFile hread
  have hbot := readFile_get_bot hread
  have hends : ∀ {fuel out}, buildDepends fuel cline content = some out → EndsOn r.depends := by
    intro fuel out h
    rw [buildDepends, hread, Option.bind_eq_bind, Option.bind_some] at h
    obtain ⟨⟨kept, m'⟩, hwalk, -⟩ := Option.bind_eq_some_iff.mp h
    exact endsOn_of_reduceDepends hbot hwalk
  have hout : ∀ fuel ≥ 2 * r.modules.length + 2, EndsOn r.depends →
      ∃ out, buildDepends fuel cline content = some out := by
    intro fuel hfuel hon
    obtain ⟨⟨kept, m'⟩, hwalk⟩ := Option.ne_none_iff_exists'.mp
      (reduceDepends_ne_none hbot hon ((hrec.walkBound_le hbot).trans hfuel))
    refine ⟨⟨r.cluster0, kept.flatMap keyEdges⟩, ?_⟩
    rw [buildDepends, hread]
    simp [hwalk, (printDepends_of_reduceDepends hread hwalk).1]
  refine ⟨r, hread, ⟨?_, fun hon => ⟨_, hout _ (Nat.le_refl _) hon⟩⟩, fun fuel hfuel =>
    ⟨?_, hout fuel hfuel⟩⟩
  · rintro ⟨fuel, out, h⟩
    exact hends h
  · rintro ⟨out, h⟩
    exact hends h

end

end KernelConfiguration
