import Mathlib.Data.Finset.Union
import Mathlib.Order.WithBot
import KernelConfiguration.Digraph
import KernelConfiguration.OrdMap

/-!
# The search of build-depends

`DependsOn` looks for a module among the dependencies of another one, and among
theirs, and stops when it has found it. Two things about it are delicate.

* It subscripts the map of the dependencies, and so enters keys into it while its
  callers walk the lists that they have found there. The keys have no dependencies,
  and the lists stay what they are (`KernelConfiguration.OrdMap.Grow`).
* It keeps no record of where it has been, so that whether it ends is a question of
  its own.

What it answers is right whenever it answers
(`KernelConfiguration.dependsOn_rightAnswers`). It answers where a rank falls along
the edges that it follows, which are those of `KernelConfiguration.SearchEdge`
(`KernelConfiguration.dependsOn_ne_none`), and it does not where a cycle of these
can be reached (`KernelConfiguration.dependsOn_eq_none`).

A module is known here by its address only, so the modules are an arbitrary
linear order, and a pointer is a module or `⊥`, the null pointer, which comes
before all of them.
-/

namespace KernelConfiguration

/-! ### Loops over a list -/

/-- A loop over a list that stops at the first entry for which the body answers
`true`. -/
def searchList {α σ : Type*} (body : α → σ → Option (Bool × σ)) :
    List α → σ → Option (Bool × σ)
  | [], s => some (false, s)
  | a :: as, s => do
    let (b, s') ← body a s
    if b then some (true, s') else searchList body as s'

section

variable {κ ν : Type*} [LinearOrder κ] [Inhabited ν] {m₀ : OrdMap κ ν} {K : Finset κ}

/-- **What is answered is right**, if anything is: a test of the map `m₀`, made on
the map as it has grown since then, tells whether `P` holds, and leaves the map
grown. -/
def RightAnswers (m₀ : OrdMap κ ν) (K : Finset κ) (P : Prop)
    (test : OrdMap κ ν → Option (Bool × OrdMap κ ν)) : Prop :=
  ∀ m b m', m₀.Grow K m → test m = some (b, m') → m.Grow K m' ∧ (b = true ↔ P)

/-- **The test decides `P`**: it answers, and the answer is right. -/
def Decides (m₀ : OrdMap κ ν) (K : Finset κ) (P : Prop)
    (test : OrdMap κ ν → Option (Bool × OrdMap κ ν)) : Prop :=
  ∀ m, m₀.Grow K m → ∃ b m', test m = some (b, m') ∧ m.Grow K m' ∧ (b = true ↔ P)

theorem decides_iff {P : Prop} {test : OrdMap κ ν → Option (Bool × OrdMap κ ν)} :
    Decides m₀ K P test ↔ RightAnswers m₀ K P test ∧ ∀ m, m₀.Grow K m → test m ≠ none := by
  constructor
  · intro h
    refine ⟨fun m b m' hm htest => ?_, fun m hm hnone => ?_⟩
    · obtain ⟨b₁, m₁, heq, hright⟩ := h m hm
      obtain ⟨rfl, rfl⟩ := Prod.mk.inj (Option.some.inj (htest.symm.trans heq))
      exact hright
    · obtain ⟨b₁, m₁, heq, -⟩ := h m hm
      exact Option.some_ne_none _ (heq.symm.trans hnone)
  · rintro ⟨hright, htotal⟩ m hm
    obtain ⟨⟨b, m'⟩, heq⟩ := Option.ne_none_iff_exists'.mp (htotal m hm)
    exact ⟨b, m', heq, hright m b m' hm heq⟩

variable {α : Type*} {P : α → Prop} {l : List α}
  {body body' : α → OrdMap κ ν → Option (Bool × OrdMap κ ν)}

omit [LinearOrder κ] in
/-- A body that answers more often makes a loop that answers more often. -/
theorem searchList_mono {r : Bool × OrdMap κ ν}
    (hbody : ∀ d m r, body d m = some r → body' d m = some r) :
    ∀ {m}, searchList body l m = some r → searchList body' l m = some r := by
  induction l with
  | nil => exact fun {_} h => h
  | cons d l ih =>
    intro m h
    cases hd : body d m with
    | none => simp [searchList, hd] at h
    | some s =>
      obtain ⟨b, m'⟩ := s
      have hd' := hbody d m _ hd
      cases b with
      | true => simpa [searchList, hd, hd'] using h
      | false =>
        simp only [searchList, hd, hd', Option.bind_eq_bind, Option.bind_some] at h ⊢
        exact ih h

/-- A loop goes on after an entry for which its body answers `false`. -/
theorem searchList_cons_of_not {d : α} (hd : RightAnswers m₀ K (P d) (body d)) (hP : ¬P d)
    (hm : m₀.Grow K m) : searchList body (d :: l) m = none ∧ body d m = none ∨
      ∃ m', body d m = some (false, m') ∧ m.Grow K m' ∧
        searchList body (d :: l) m = searchList body l m' := by
  cases h : body d m with
  | none => exact Or.inl ⟨by simp [searchList, h], rfl⟩
  | some s =>
    obtain ⟨b, m'⟩ := s
    obtain ⟨hgrow, hb⟩ := hd m b m' hm h
    have hfalse : b = false := Bool.eq_false_iff.mpr fun hbt => hP (hb.mp hbt)
    subst hfalse
    exact Or.inr ⟨m', rfl, hgrow, by simp [searchList, h]⟩

/-- **The answers of a loop are right** if those of its body are. -/
theorem searchList_rightAnswers (hbody : ∀ d ∈ l, RightAnswers m₀ K (P d) (body d)) :
    RightAnswers m₀ K (∃ d ∈ l, P d) (searchList body l) := by
  induction l with
  | nil =>
    intro m b m' _ h
    obtain ⟨rfl, rfl⟩ := Prod.mk.inj (Option.some.inj h)
    exact ⟨.refl, by simp⟩
  | cons d l ih =>
    intro m b m' hm h
    have hd := hbody d List.mem_cons_self
    by_cases hP : P d
    · cases hb : body d m with
      | none => simp [searchList, hb] at h
      | some s =>
        obtain ⟨b₁, m₁⟩ := s
        obtain ⟨hgrow, hiff⟩ := hd m b₁ m₁ hm hb
        obtain rfl : b₁ = true := hiff.mpr hP
        simp only [searchList, hb, Option.bind_eq_bind, Option.bind_some, if_true] at h
        obtain ⟨rfl, rfl⟩ := Prod.mk.inj (Option.some.inj h)
        exact ⟨hgrow, by simp [hP]⟩
    · rcases searchList_cons_of_not hd hP hm (l := l) with ⟨hnone, -⟩ | ⟨m₁, -, hgrow, hrest⟩
      · rw [hnone] at h
        exact absurd h.symm (Option.some_ne_none _)
      · rw [hrest] at h
        obtain ⟨hgrow', hiff⟩ := ih (fun d hd => hbody d (List.mem_cons_of_mem _ hd)) m₁ b m'
          (hm.trans hgrow) h
        exact ⟨hgrow.trans hgrow', hiff.trans (by simp [hP])⟩

/-- **A loop answers** if its body answers for every entry that it comes to. -/
theorem searchList_ne_none (hbody : ∀ d ∈ l, RightAnswers m₀ K (P d) (body d))
    (htotal : ∀ before d after, l = before ++ d :: after → (∀ c ∈ before, ¬P c) →
      ∀ m, m₀.Grow K m → body d m ≠ none) :
    ∀ {m}, m₀.Grow K m → searchList body l m ≠ none := by
  induction l with
  | nil => exact fun _ => Option.some_ne_none _
  | cons d l ih =>
    intro m hm
    have hd := htotal [] d l rfl nofun m hm
    by_cases hP : P d
    · obtain ⟨⟨b, m'⟩, hb⟩ := Option.ne_none_iff_exists'.mp hd
      obtain rfl : b = true := (hbody d List.mem_cons_self m b m' hm hb).2.mpr hP
      simp [searchList, hb]
    · rcases searchList_cons_of_not (hbody d List.mem_cons_self) hP hm (l := l) with
        ⟨-, hnone⟩ | ⟨m₁, -, hgrow, hrest⟩
      · exact absurd hnone hd
      · rw [hrest]
        refine ih (fun d hd => hbody d (List.mem_cons_of_mem _ hd)) ?_ (hm.trans hgrow)
        rintro before e after rfl hbefore
        exact htotal (d :: before) e after rfl (List.forall_mem_cons.mpr ⟨hP, hbefore⟩)

/-- **A loop does not answer** if its body does not for an entry that it comes
to. -/
theorem searchList_eq_none {before : List α} {d : α} {after : List α}
    (hbody : ∀ c ∈ before, RightAnswers m₀ K (P c) (body c)) (hbefore : ∀ c ∈ before, ¬P c)
    (hnone : ∀ m, m₀.Grow K m → body d m = none) :
    ∀ {m}, m₀.Grow K m → searchList body (before ++ d :: after) m = none := by
  induction before with
  | nil => exact fun {m} hm => by simp [searchList, hnone m hm]
  | cons c before ih =>
    intro m hm
    rw [List.forall_mem_cons] at hbody hbefore
    rcases searchList_cons_of_not hbody.1 hbefore.1 hm (l := before ++ d :: after) with
      ⟨h, -⟩ | ⟨m₁, -, hgrow, hrest⟩
    · exact h
    · rw [List.cons_append, hrest]
      exact ih hbody.2 hbefore.2 (hm.trans hgrow)

/-- **A loop decides whether some entry has `P`** if its body decides whether an entry
has. -/
theorem searchList_decides (hbody : ∀ d ∈ l, Decides m₀ K (P d) (body d)) :
    Decides m₀ K (∃ d ∈ l, P d) (searchList body l) := by
  have hright : ∀ d ∈ l, RightAnswers m₀ K (P d) (body d) := fun d hd =>
    (decides_iff.mp (hbody d hd)).1
  refine decides_iff.mpr ⟨searchList_rightAnswers hright, fun m hm => ?_⟩
  refine searchList_ne_none hright ?_ hm
  rintro before d after rfl -
  exact (decides_iff.mp (hbody d (List.mem_append_right _ List.mem_cons_self))).2

end

/-! ### The search -/

variable {M : Type*} [LinearOrder M] {m m₀ m' : OrdMap (WithBot M) (List M)}
  {K : Finset (WithBot M)} {t : M} {fuel : ℕ}

/-- **Does `name` depend on `dependsOn`** (`DependsOn`)? The first argument bounds
the depth of the recursion. The list found under `name` is walked by reference;
it does not change, since the calls below only enter keys. -/
def dependsOn : ℕ → WithBot M → WithBot M → OrdMap (WithBot M) (List M) →
    Option (Bool × OrdMap (WithBot M) (List M))
  | 0, _, _, _ => none
  | fuel + 1, name, target, m =>
    if target ≠ ⊥ then
      searchList
        (fun (d : M) m => if ↑d = target then some (true, m) else dependsOn fuel d target m)
        (m.get name) (m.access name)
    else some (false, m)

/-- **The dependencies held in the map**, as a digraph on the modules. -/
def Edge (m : OrdMap (WithBot M) (List M)) (a b : M) : Prop := b ∈ m.get a

/-- The modules that are a dependency of some module. -/
def dependencies (m : OrdMap (WithBot M) (List M)) : Finset M :=
  m.keys.biUnion fun p => (m.get p).toFinset

theorem mem_dependencies {p : WithBot M} {d : M} (hd : d ∈ m.get p) : d ∈ dependencies m := by
  refine Finset.mem_biUnion.mpr ⟨p, ?_, List.mem_toFinset.mpr hd⟩
  by_contra hp
  rw [m.get_of_not_mem p hp] at hd
  exact List.not_mem_nil hd

/-- A search that ends gives the same answer with more fuel. -/
theorem dependsOn_succ {r : Bool × OrdMap (WithBot M) (List M)} (fuel : ℕ) :
    ∀ {p q : WithBot M} {m : OrdMap (WithBot M) (List M)},
      dependsOn fuel p q m = some r → dependsOn (fuel + 1) p q m = some r := by
  induction fuel generalizing r with
  | zero => exact fun h => absurd h.symm (Option.some_ne_none r)
  | succ fuel ih =>
    intro p q m h
    rw [dependsOn] at h ⊢
    split
    · rw [if_pos ‹_›] at h
      refine searchList_mono (fun d m r hr => ?_) h
      split
      · rwa [if_pos ‹_›] at hr
      · rw [if_neg ‹_›] at hr
        exact ih hr
    · rwa [if_neg ‹_›] at h

theorem dependsOn_mono {r : Bool × OrdMap (WithBot M) (List M)} {p q : WithBot M} {fuel' : ℕ}
    (h : dependsOn fuel p q m = some r) (hle : fuel ≤ fuel') : dependsOn fuel' p q m = some r := by
  induction hle with
  | refl => exact h
  | step _ ih => exact dependsOn_succ _ ih

/-- What the loop of the search does with a dependency. -/
def visit (fuel : ℕ) (t d : M) (m : OrdMap (WithBot M) (List M)) :
    Option (Bool × OrdMap (WithBot M) (List M)) :=
  if (d : WithBot M) = t then some (true, m) else dependsOn fuel d t m

/-- The search of a module is a loop over its dependencies. -/
theorem dependsOn_coe (hm : m₀.Grow K m) (a : M) :
    dependsOn (fuel + 1) a t m = searchList (visit fuel t) (m₀.get a) (m.access a) := by
  rw [dependsOn, if_pos WithBot.coe_ne_bot, hm.get_eq]
  rfl

theorem visit_of_ne {d : M} (h : d ≠ t) : visit fuel t d m = dependsOn fuel d t m :=
  if_neg fun hcon => h (WithBot.coe_inj.mp hcon)

/-- The dependency is what is looked for, or leads to it. -/
def Leads (m : OrdMap (WithBot M) (List M)) (t d : M) : Prop :=
  d = t ∨ Relation.TransGen (Edge m) d t

omit [LinearOrder M] in
theorem exists_leads {a : M} :
    (∃ d ∈ m.get a, Leads m t d) ↔ Relation.TransGen (Edge m) a t := by
  rw [Relation.TransGen.head'_iff]
  refine exists_congr fun d => and_congr_right fun _ => ?_
  rw [Relation.reflTransGen_iff_eq_or_transGen, Leads, eq_comm]

/-- The answers for a dependency are right if those of its search are. -/
theorem visit_rightAnswers {d : M}
    (h : RightAnswers m₀ K (Relation.TransGen (Edge m₀) d t) (dependsOn fuel d t)) :
    RightAnswers m₀ K (Leads m₀ t d) (visit fuel t d) := by
  intro m b m' hm hvisit
  by_cases hdt : d = t
  · rw [visit, if_pos (congrArg _ hdt)] at hvisit
    obtain ⟨rfl, rfl⟩ := Prod.mk.inj (Option.some.inj hvisit)
    exact ⟨.refl, by simp [Leads, hdt]⟩
  · rw [visit_of_ne hdt] at hvisit
    obtain ⟨hgrow, hb⟩ := h m b m' hm hvisit
    exact ⟨hgrow, by simp [Leads, hdt, hb]⟩

/-- **The answers of the search are right.** -/
theorem dependsOn_rightAnswers (hK : ∀ p, ∀ d ∈ m₀.get p, (d : WithBot M) ∈ K) (fuel : ℕ) :
    ∀ {a : M}, ↑a ∈ K →
      RightAnswers m₀ K (Relation.TransGen (Edge m₀) a t) (dependsOn fuel a t) := by
  induction fuel with
  | zero => exact fun _ _ _ _ _ h => absurd h.symm (Option.some_ne_none _)
  | succ fuel ih =>
    intro a ha m b m' hm h
    have haccess : m.Grow K (m.access a) := .access ha
    rw [dependsOn_coe hm] at h
    obtain ⟨hgrow, hb⟩ := searchList_rightAnswers
      (fun d hd => visit_rightAnswers (ih (hK a d hd))) _ b m' (hm.trans haccess) h
    exact ⟨haccess.trans hgrow, hb.trans exists_leads⟩

/-- The edges that the search of `t` follows. -/
abbrev Follows (m : OrdMap (WithBot M) (List M)) (t : M) : M → M → Prop :=
  SearchEdge (fun a => m.get a) t

omit [LinearOrder M] in
/-- A dependency that is visited, and is not what is looked for, is searched. -/
theorem follows_of_not_leads {a d : M} {before after : List M}
    (hdeps : m.get a = before ++ d :: after) (hbefore : ∀ c ∈ before, ¬Leads m t c) (hdt : d ≠ t) :
    Follows m t a d :=
  ⟨before, after, hdeps, hdt, fun c hc => not_or.mp (hbefore c hc)⟩

/-- **The search ends** where a rank falls along the edges that it follows. -/
theorem dependsOn_ne_none (hK : ∀ p, ∀ d ∈ m₀.get p, (d : WithBot M) ∈ K) {a : M} {rank : M → ℕ}
    (hr : ∀ x y, Relation.ReflTransGen (Follows m₀ t) a x → Follows m₀ t x y → rank y < rank x)
    (fuel : ℕ) : ∀ {x : M}, ↑x ∈ K → Relation.ReflTransGen (Follows m₀ t) a x → rank x < fuel →
      ∀ m, m₀.Grow K m → dependsOn fuel x t m ≠ none := by
  induction fuel with
  | zero => exact fun _ _ hrank => absurd hrank (Nat.not_lt_zero _)
  | succ fuel ih =>
    intro x hx hreach hrank m hm
    rw [dependsOn_coe hm]
    refine searchList_ne_none (fun d hd => visit_rightAnswers
      (dependsOn_rightAnswers hK fuel (hK x d hd))) ?_ (hm.trans (.access hx))
    intro before d after hdeps hbefore m hm
    by_cases hdt : d = t
    · rw [visit, if_pos (congrArg _ hdt)]
      exact Option.some_ne_none _
    · have hedge := follows_of_not_leads hdeps hbefore hdt
      have hlt := hr x d hreach hedge
      rw [visit_of_ne hdt]
      exact ih (hK x d hedge.mem) (hreach.tail hedge) (by omega) m hm

/-- **The search does not end** where a cycle of the edges that it follows can be
reached, however much fuel there is. -/
theorem dependsOn_eq_none (hK : ∀ p, ∀ d ∈ m₀.get p, (d : WithBot M) ∈ K) (fuel : ℕ) :
    ∀ {a : M}, ↑a ∈ K → Endless (Follows m₀ t) a → ∀ m, m₀.Grow K m →
      dependsOn fuel a t m = none := by
  induction fuel with
  | zero => exact fun _ _ _ _ => rfl
  | succ fuel ih =>
    intro a ha hendless m hm
    obtain ⟨d, ⟨before, after, hdeps, hdt, hbefore⟩, hnext⟩ := hendless.exists_edge
    dsimp only at hdeps
    have hmem : ∀ c ∈ before ++ d :: after, (c : WithBot M) ∈ K := fun c hc =>
      hK a c (hdeps ▸ hc)
    rw [dependsOn_coe hm, hdeps]
    refine searchList_eq_none (fun c hc => visit_rightAnswers
      (dependsOn_rightAnswers hK fuel (hmem c (List.mem_append_left _ hc))))
      (fun c hc => not_or.mpr (hbefore c hc)) ?_ (hm.trans (.access ha))
    intro m hm
    rw [visit_of_ne hdt]
    exact ih (hmem d (List.mem_append_right _ List.mem_cons_self)) hnext m hm

end KernelConfiguration
