import Mathlib.Data.Finset.Card
import Mathlib.Data.Finset.Filter
import Mathlib.Logic.Relation

/-!
# Reduced digraphs

A digraph is a relation `E` on a type, and `b` is reachable from `a` when
`Relation.TransGen E a b`, along one edge or more. A finite digraph without
cycles has a **rank**, a number that falls along every edge
(`KernelConfiguration.exists_isRank`), and a rank is all that the rest asks for:
it bounds how deep a search can go, and it is what the inductions are on.

An edge is **kept** by the reduction (`KernelConfiguration.Kept`) when no other
edge from the same source leads to a vertex from which its target is reachable.

* `KernelConfiguration.transGen_kept` – the kept edges reach what all edges
  reach;
* `KernelConfiguration.Kept.not_transGen` – and none of them can be spared;
* `KernelConfiguration.kept_iff_covers` – and they are determined by what can be
  reached from where;
* `KernelConfiguration.transGen_kept_filter_iff` – what is left when the kept
  edges are then filtered by their target. The edges into the vertices that pass
  the filter are all recovered exactly when the detour that made one of them
  superfluous can be taken through such vertices only.

A search that keeps no record of where it has been needs a rank too, but only along
the edges that it follows (`KernelConfiguration.SearchEdge`): it is without end
when a cycle of them can be reached (`KernelConfiguration.Endless`).
-/

namespace KernelConfiguration

variable {α : Type*} {E E' : α → α → Prop} {rank : α → ℕ} {a b c : α}

/-! ### Ranks -/

/-- **The rank falls along every edge.** -/
def IsRank (E : α → α → Prop) (rank : α → ℕ) : Prop := ∀ a b, E a b → rank b < rank a

theorem IsRank.lt_of_transGen (hr : IsRank E rank) (h : Relation.TransGen E a b) :
    rank b < rank a := by
  induction h with
  | single hab => exact hr _ _ hab
  | tail _ hbc ih => exact (hr _ _ hbc).trans ih

open Classical in
/-- **A finite digraph without cycles has a rank**: the number of vertices
reachable from a vertex. -/
theorem exists_isRank (hE : ∀ a, ¬Relation.TransGen E a a) {S : Finset α}
    (hS : ∀ a b, E a b → b ∈ S) : ∃ rank, IsRank E rank ∧ ∀ a, rank a ≤ S.card := by
  refine ⟨fun a => (S.filter (Relation.TransGen E a)).card, fun a b hab => ?_,
    fun a => Finset.card_filter_le _ _⟩
  refine Finset.card_lt_card (Finset.ssubset_iff_of_subset ?_ |>.mpr ⟨b, ?_, ?_⟩)
  · intro c hc
    rw [Finset.mem_filter] at hc ⊢
    exact ⟨hc.1, .head hab hc.2⟩
  · exact Finset.mem_filter.mpr ⟨hS a b hab, .single hab⟩
  · exact fun hb => hE b (Finset.mem_filter.mp hb).2

/-! ### Kept edges -/

/-- **The edge survives the reduction**: no other edge from its source leads to a
vertex from which its target is reachable. -/
def Kept (E : α → α → Prop) (a b : α) : Prop :=
  E a b ∧ ∀ c, E a c → c ≠ b → ¬Relation.TransGen E c b

/-- What makes an edge superfluous can be taken to be a kept edge. -/
theorem exists_kept (hr : IsRank E rank) (hc : E a c) (hcb : Relation.TransGen E c b) :
    ∃ d, Kept E a d ∧ Relation.TransGen E d b := by
  -- the detour is pushed up as long as something above it is an edge too
  induction hn : rank a - rank c using Nat.strong_induction_on generalizing c with
  | _ n ih =>
    by_cases hkept : Kept E a c
    · exact ⟨c, hkept, hcb⟩
    · obtain ⟨d, hd, -, hdc⟩ : ∃ d, E a d ∧ d ≠ c ∧ Relation.TransGen E d c := by
        by_contra hcon
        exact hkept ⟨hc, fun d hd hne hdc => hcon ⟨d, hd, hne, hdc⟩⟩
      have hlt := hr.lt_of_transGen hdc
      have hda := hr a d hd
      exact ih (rank a - rank d) (by omega) hd (hdc.trans hcb) rfl

/-- **No kept edge can be spared**: without it, its target is out of reach. -/
theorem Kept.not_transGen (h : Kept E a b) (hsub : ∀ x y, E' x y → E x y) (hab : ¬E' a b) :
    ¬Relation.TransGen E' a b := by
  intro hpath
  rcases Relation.TransGen.head'_iff.mp hpath with ⟨c, hac, hcb⟩
  have hne : c ≠ b := by
    rintro rfl
    exact hab hac
  rcases Relation.reflTransGen_iff_eq_or_transGen.mp hcb with heq | hcb
  · exact hne heq.symm
  · exact h.2 c (hsub a c hac) hne (Relation.TransGen.mono hsub _ _ hcb)

/-! ### Kept edges, filtered by their target -/

variable {p : α → Prop}

/-- Edges recovered at every vertex below `a` recover the paths below `a`. -/
theorem transGen_of_recovered {R R' : α → α → Prop} (hr : IsRank R rank)
    (hrec : ∀ x, rank x < rank a → ∀ y, R x y → Relation.TransGen R' x y)
    (hb : rank b < rank a) (h : Relation.TransGen R b c) : Relation.TransGen R' b c := by
  induction h with
  | single hbc => exact hrec b hb _ hbc
  | tail hbx hxy ih => exact ih.trans (hrec _ ((hr.lt_of_transGen hbx).trans hb) _ hxy)

/-- **When a filtered reduction loses nothing.** The edges into the vertices of
`p` are all recovered from the kept ones among them exactly when each of them that
is not kept has a detour through vertices of `p`. -/
theorem transGen_kept_filter_iff (hr : IsRank E rank) :
    (∀ a b, E a b → p b → Relation.TransGen (fun x y => Kept E x y ∧ p y) a b) ↔
      ∀ a b c, E a b → p b → E a c → c ≠ b → Relation.TransGen E c b →
        ∃ d, E a d ∧ p d ∧ Relation.TransGen (fun x y => E x y ∧ p y) d b := by
  constructor
  · intro h a b c hab hb hac hne hcb
    rcases Relation.TransGen.head'_iff.mp (h a b hab hb) with ⟨d, ⟨hkept, hd⟩, hdb⟩
    rcases Relation.reflTransGen_iff_eq_or_transGen.mp hdb with rfl | hdb
    · exact absurd hcb (hkept.2 c hac hne)
    · exact ⟨d, hkept.1, hd, Relation.TransGen.mono (fun _ _ hxy => ⟨hxy.1.1, hxy.2⟩) _ _ hdb⟩
  · intro h
    -- the outer induction is on the source, the inner one on how far the target is below it
    suffices hrec : ∀ n a, rank a = n → ∀ b, E a b → p b →
        Relation.TransGen (fun x y => Kept E x y ∧ p y) a b from fun a => hrec _ a rfl
    intro n
    induction n using Nat.strong_induction_on with
    | _ n ihn =>
      rintro a rfl
      have hbelow : ∀ x, rank x < rank a → ∀ y, E x y ∧ p y →
          Relation.TransGen (fun x y => Kept E x y ∧ p y) x y := fun x hx y hxy =>
        ihn (rank x) hx x rfl y hxy.1 hxy.2
      intro b
      induction hm : rank a - rank b using Nat.strong_induction_on generalizing b with
      | _ m ihm =>
        intro hab hb
        by_cases hkept : Kept E a b
        · exact .single ⟨hkept, hb⟩
        · obtain ⟨c, hac, hne, hcb⟩ : ∃ c, E a c ∧ c ≠ b ∧ Relation.TransGen E c b := by
            by_contra hcon
            exact hkept ⟨hab, fun c hac hne hcb => hcon ⟨c, hac, hne, hcb⟩⟩
          obtain ⟨d, had, hd, hdb⟩ := h a b c hab hb hac hne hcb
          have hp : IsRank (fun x y => E x y ∧ p y) rank := fun x y hxy => hr x y hxy.1
          have hlt := hp.lt_of_transGen hdb
          have hda := hr a d had
          exact (ihm (rank a - rank d) (by omega) d rfl had hd).trans
            (transGen_of_recovered hp hbelow hda hdb)

/-- **The kept edges reach what all edges reach.** -/
theorem transGen_kept (hr : IsRank E rank) :
    Relation.TransGen (Kept E) a b ↔ Relation.TransGen E a b := by
  constructor
  · exact Relation.TransGen.mono (fun _ _ hxy => hxy.1) _ _
  · have hall := (transGen_kept_filter_iff (p := fun _ => True) hr).mpr
      fun a b c _ _ hac _ hcb => ⟨c, hac, trivial,
        Relation.TransGen.mono (fun _ _ hxy => ⟨hxy, trivial⟩) _ _ hcb⟩
    intro h
    induction h with
    | single hab =>
      exact Relation.TransGen.mono (fun _ _ hxy => hxy.1) _ _ (hall _ _ hab trivial)
    | tail _ hbc ih =>
      exact ih.trans (Relation.TransGen.mono (fun _ _ hxy => hxy.1) _ _ (hall _ _ hbc trivial))

/-- **The kept edges are the covering relation of reachability**: there is a path, and
nothing lies between its ends. So they do not depend on which edges the graph is given
by. -/
theorem kept_iff_covers (hr : IsRank E rank) : Kept E a b ↔
    Relation.TransGen E a b ∧ ∀ c, Relation.TransGen E a c → ¬Relation.TransGen E c b := by
  constructor
  · rintro ⟨hab, hkept⟩
    refine ⟨.single hab, fun c hac hcb => ?_⟩
    obtain ⟨d, had, hdc⟩ := Relation.TransGen.head'_iff.mp hac
    have hdb : Relation.TransGen E d b := Relation.TransGen.trans_right hdc hcb
    refine hkept d had ?_ hdb
    rintro rfl
    exact Nat.lt_irrefl _ (hr.lt_of_transGen hdb)
  · rintro ⟨hab, hcovers⟩
    refine ⟨?_, fun c hac _ => hcovers c (.single hac)⟩
    obtain ⟨d, had, hdb⟩ := Relation.TransGen.head'_iff.mp hab
    rcases Relation.reflTransGen_iff_eq_or_transGen.mp hdb with rfl | hdb
    · exact had
    · exact absurd hdb (hcovers d (.single had))

/-! ### Searches that keep no record -/

/-- **The edge is one a search follows** that looks for `t`, goes through the
successors of a vertex in their order, and searches each of them in turn until it
has found `t`: no successor before it is `t` or leads there. -/
def SearchEdge (succ : α → List α) (t a b : α) : Prop :=
  ∃ before after, succ a = before ++ b :: after ∧ b ≠ t ∧
    ∀ c ∈ before, c ≠ t ∧ ¬Relation.TransGen (fun x y => y ∈ succ x) c t

theorem SearchEdge.mem {succ : α → List α} {t : α} (h : SearchEdge succ t a b) : b ∈ succ a := by
  obtain ⟨before, after, hsucc, -⟩ := h
  rw [hsucc]
  exact List.mem_append_right _ List.mem_cons_self

/-- **A cycle can be reached.** -/
def Endless (E : α → α → Prop) (a : α) : Prop :=
  ∃ c, Relation.ReflTransGen E a c ∧ Relation.TransGen E c c

/-- There is always a next edge. -/
theorem Endless.exists_edge (h : Endless E a) : ∃ b, E a b ∧ Endless E b := by
  obtain ⟨c, hac, hcycle⟩ := h
  rcases Relation.ReflTransGen.cases_head hac with rfl | ⟨b, hab, hbc⟩
  · obtain ⟨b, hab, hba⟩ := Relation.TransGen.head'_iff.mp hcycle
    exact ⟨b, hab, a, hba, hcycle⟩
  · exact ⟨b, hab, c, hbc, hcycle⟩

/-- Where no cycle can be reached, a rank falls along every edge that can be reached,
and is at most the number of vertices. -/
theorem exists_rank_le_of_not_endless (h : ¬Endless E a) {S : Finset α}
    (hS : ∀ x y, E x y → y ∈ S) :
    ∃ rank : α → ℕ, (∀ x y, Relation.ReflTransGen E a x → E x y → rank y < rank x) ∧
      ∀ x, rank x ≤ S.card := by
  -- the edges that can be reached are a digraph without cycles
  have hac : ∀ c, ¬Relation.TransGen (fun x y => Relation.ReflTransGen E a x ∧ E x y) c c := by
    intro c hc
    obtain ⟨b, ⟨hreach, -⟩, -⟩ := Relation.TransGen.head'_iff.mp hc
    exact h ⟨c, hreach, Relation.TransGen.mono (fun _ _ hxy => hxy.2) _ _ hc⟩
  obtain ⟨rank, hr, hbound⟩ := exists_isRank hac fun x y hxy => hS x y hxy.2
  exact ⟨rank, fun x y hreach hxy => hr x y ⟨hreach, hxy⟩, hbound⟩

/-- The same, where the number of vertices is of no account. -/
theorem exists_rank_of_not_endless (h : ¬Endless E a) {S : Finset α}
    (hS : ∀ x y, E x y → y ∈ S) :
    ∃ rank : α → ℕ, ∀ x y, Relation.ReflTransGen E a x → E x y → rank y < rank x := by
  obtain ⟨rank, hr, -⟩ := exists_rank_le_of_not_endless h hS
  exact ⟨rank, hr⟩

end KernelConfiguration
