import Mathlib.Data.Finset.Max
import Mathlib.Data.Finset.Card

/-!
# Ordered maps with value-initialising access

The associative container of the C++ library: a map from keys to values that is
walked in the order of its keys, and whose subscript operator enters a missing
key with the default value of its type. Since a missing key then reads as the
default, a map is a finite set of keys with a function that is the default
outside it.

The one delicate thing to do with such a map is to walk it while the body of the
loop subscripts it. The iterator stays valid, so the walk goes on to the next key
of the map *as it is by then*, keys entered in the meantime included. The rule
for such a walk is `KernelConfiguration.OrdMap.forEach_spec`: if the body answers
on every map the walk can meet and only enters keys out of a given finite set
(`KernelConfiguration.OrdMap.Grow`), then the walk comes to its end, visits its
keys in order, and misses none of those that were there at the start.
-/

namespace KernelConfiguration

/-- **A map with ordered keys**, which reads as the default outside its keys. -/
structure OrdMap (κ ν : Type*) [Inhabited ν] where
  /-- The keys that have been entered. -/
  keys : Finset κ
  /-- What the map holds. -/
  get : κ → ν
  /-- A key that has not been entered reads as the default. -/
  get_of_not_mem : ∀ k ∉ keys, get k = default

namespace OrdMap

variable {κ ν β : Type*} [LinearOrder κ] [Inhabited ν] {m m' m'' : OrdMap κ ν} {K : Finset κ}
  {k : κ} {c : Option κ}

/-! ### Access -/

/-- The empty map. -/
def empty : OrdMap κ ν := ⟨∅, fun _ => default, fun _ _ => rfl⟩

/-- **Subscripting a map** enters the key, with the default value when it is
new. -/
def access (m : OrdMap κ ν) (k : κ) : OrdMap κ ν where
  keys := insert k m.keys
  get := m.get
  get_of_not_mem k' hk' := m.get_of_not_mem k' fun h => hk' (Finset.mem_insert_of_mem h)

/-- Subscripting a map and changing the value found. -/
def modify (m : OrdMap κ ν) (k : κ) (f : ν → ν) : OrdMap κ ν where
  keys := insert k m.keys
  get := Function.update m.get k (f (m.get k))
  get_of_not_mem k' hk' := by
    rw [Finset.mem_insert, not_or] at hk'
    rw [Function.update_of_ne hk'.1]
    exact m.get_of_not_mem k' hk'.2

@[simp] theorem access_get : (m.access k).get = m.get := rfl

theorem modify_get {f : ν → ν} {k' : κ} :
    (m.modify k f).get k' = if k' = k then f (m.get k') else m.get k' := by
  change Function.update m.get k (f (m.get k)) k' = _
  rw [Function.update_apply]
  by_cases h : k' = k
  · rw [if_pos h, if_pos h, h]
  · rw [if_neg h, if_neg h]

omit [LinearOrder κ] in
@[simp] theorem empty_get : (empty : OrdMap κ ν).get = fun _ => default := rfl

/-! ### Walking the keys -/

/-- The key lies behind the place the walk has come to. -/
def Behind (c : Option κ) (k : κ) : Prop := ∀ c' ∈ c, c' < k

instance (c : Option κ) (k : κ) : Decidable (Behind c k) :=
  inferInstanceAs (Decidable (∀ c' ∈ c, c' < k))

theorem Behind.trans {k' : κ} (h : Behind c k) (hk : k < k') : Behind c k' :=
  fun c' hc' => (h c' hc').trans hk

/-- The key the walk comes to next; the place before the first key is `none`. -/
def next (m : OrdMap κ ν) (c : Option κ) : Option κ :=
  if h : (m.keys.filter (Behind c)).Nonempty then some ((m.keys.filter (Behind c)).min' h)
  else none

theorem next_eq_none (h : m.next c = none) : ∀ k ∈ m.keys, ¬Behind c k := by
  intro k hk hck
  rw [next, dif_pos ⟨k, Finset.mem_filter.mpr ⟨hk, hck⟩⟩] at h
  simp at h

theorem next_eq_some (h : m.next c = some k) :
    k ∈ m.keys ∧ Behind c k ∧ ∀ k' ∈ m.keys, Behind c k' → k ≤ k' := by
  by_cases hne : (m.keys.filter (Behind c)).Nonempty
  · rw [next, dif_pos hne, Option.some.injEq] at h
    have hmem := Finset.mem_filter.mp (h ▸ Finset.min'_mem _ hne)
    refine ⟨hmem.1, hmem.2, fun k' hk' hck' => ?_⟩
    rw [← h]
    exact Finset.min'_le _ _ (Finset.mem_filter.mpr ⟨hk', hck'⟩)
  · rw [next, dif_neg hne] at h
    simp at h

/-- **A loop over a map** whose body may enter keys: the body gets the key and the
value found there, and the walk goes on in the map the body leaves. The first
argument bounds the number of keys visited. -/
def forEach (body : κ → ν → OrdMap κ ν → Option (β × OrdMap κ ν)) :
    ℕ → Option κ → OrdMap κ ν → Option (List (κ × β) × OrdMap κ ν)
  | 0, _, _ => none
  | fuel + 1, c, m =>
    match m.next c with
    | none => some ([], m)
    | some k => do
      let (b, m') ← body k (m.get k) m
      let (bs, m'') ← forEach body fuel (some k) m'
      return ((k, b) :: bs, m'')

/-! ### Maps that grow -/

/-- **The map has grown**: it holds what it held, and the keys entered since then
are out of `K`. -/
structure Grow (K : Finset κ) (m m' : OrdMap κ ν) : Prop where
  /-- It reads the same. -/
  get_eq : m'.get = m.get
  /-- No key has left. -/
  subset : m.keys ⊆ m'.keys
  /-- The keys entered are out of `K`. -/
  bound : m'.keys ⊆ m.keys ∪ K

theorem Grow.refl : Grow K m m := ⟨rfl, Finset.Subset.refl _, Finset.subset_union_left⟩

theorem Grow.trans (h : Grow K m m') (h' : Grow K m' m'') : Grow K m m'' := by
  refine ⟨h'.get_eq.trans h.get_eq, h.subset.trans h'.subset, h'.bound.trans ?_⟩
  exact Finset.union_subset h.bound Finset.subset_union_right

theorem Grow.access (hk : k ∈ K) : Grow K m (m.access k) := by
  refine ⟨rfl, Finset.subset_insert _ _, Finset.insert_subset_iff.mpr ⟨?_, ?_⟩⟩
  · exact Finset.mem_union_right _ hk
  · exact Finset.subset_union_left

/-- **The rule for walking a map that grows.** A body that answers on every map
the walk can meet, and leaves it grown, makes the walk come to its end; the keys
are visited in order, each with an answer of the body, and every key that was
there is visited. -/
theorem forEach_spec {m₀ : OrdMap κ ν} {Q : κ → β → Prop}
    {body : κ → ν → OrdMap κ ν → Option (β × OrdMap κ ν)}
    (hbody : ∀ m, Grow K m₀ m → ∀ k ∈ m.keys,
      ∃ b m', body k (m.get k) m = some (b, m') ∧ Q k b ∧ Grow K m m') (fuel : ℕ) :
    ∀ {c : Option κ} {m : OrdMap κ ν}, Grow K m₀ m →
      ((m₀.keys ∪ K).filter (Behind c)).card < fuel →
      ∃ bs m', forEach body fuel c m = some (bs, m') ∧ Grow K m m' ∧
        (∀ k ∈ m.keys, Behind c k → k ∈ bs.map Prod.fst) ∧
        (∀ x ∈ bs, Q x.1 x.2 ∧ Behind c x.1) ∧ (bs.map Prod.fst).Pairwise (· < ·) := by
  induction fuel with
  | zero => exact fun _ hlt => absurd hlt (Nat.not_lt_zero _)
  | succ fuel ih =>
    intro c m hm hcard
    rw [forEach]
    cases hnext : m.next c with
    | none =>
      refine ⟨[], m, rfl, .refl, fun k hk hck => ?_, by simp, by simp⟩
      exact absurd hck (next_eq_none hnext k hk)
    | some k =>
      obtain ⟨hk, hck, hleast⟩ := next_eq_some hnext
      obtain ⟨b, m', hb, hQ, hgrow⟩ := hbody m hm k hk
      -- the walk has one key less before it
      have hless : ((m₀.keys ∪ K).filter (Behind (some k))).card < fuel := by
        refine Nat.lt_of_lt_of_le (Finset.card_lt_card ?_) (Nat.le_of_lt_succ hcard)
        refine Finset.ssubset_iff_of_subset ?_ |>.mpr ⟨k, ?_, ?_⟩
        · intro k' hk'
          rw [Finset.mem_filter] at hk' ⊢
          exact ⟨hk'.1, hck.trans (hk'.2 k rfl)⟩
        · exact Finset.mem_filter.mpr ⟨hm.bound hk, hck⟩
        · exact fun hcon => lt_irrefl k ((Finset.mem_filter.mp hcon).2 k rfl)
      obtain ⟨bs, m'', hbs, hgrow', hall, hspec, hsorted⟩ := ih (hm.trans hgrow) hless
      refine ⟨(k, b) :: bs, m'', ?_, hgrow.trans hgrow', ?_, ?_, ?_⟩
      · simp [hb, hbs]
      · intro k' hk' hck'
        rw [List.map_cons, List.mem_cons]
        rcases (hleast k' hk' hck').eq_or_lt with heq | hlt
        · exact Or.inl heq.symm
        · refine Or.inr (hall k' (hgrow.subset hk') fun c' hc' => ?_)
          obtain rfl : k = c' := Option.some.inj hc'
          exact hlt
      · intro x hx
        rcases List.mem_cons.mp hx with rfl | hx
        · exact ⟨hQ, hck⟩
        · exact ⟨(hspec x hx).1, hck.trans ((hspec x hx).2 k rfl)⟩
      · rw [List.map_cons, List.pairwise_cons]
        refine ⟨fun k' hk' => ?_, hsorted⟩
        obtain ⟨x, hx, rfl⟩ := List.mem_map.mp hk'
        exact (hspec x hx).2 k rfl

/-- **The rule for what a walk has done, if it has come to its end.** A body that does
what is asked of it whenever it answers makes a walk that has done so for every key it
visited, in order, and has visited every key that was there. -/
theorem forEach_answers {m₀ : OrdMap κ ν} {Q : κ → β → Prop}
    {body : κ → ν → OrdMap κ ν → Option (β × OrdMap κ ν)}
    (hbody : ∀ m, Grow K m₀ m → ∀ k b m', body k (m.get k) m = some (b, m') →
      Q k b ∧ Grow K m m') (fuel : ℕ) :
    ∀ {c : Option κ} {m m' : OrdMap κ ν} {bs : List (κ × β)}, Grow K m₀ m →
      forEach body fuel c m = some (bs, m') → Grow K m m' ∧
        (∀ k ∈ m.keys, Behind c k → k ∈ bs.map Prod.fst) ∧
        (∀ x ∈ bs, Q x.1 x.2 ∧ Behind c x.1) ∧ (bs.map Prod.fst).Pairwise (· < ·) := by
  induction fuel with
  | zero => exact fun _ h => absurd h.symm (Option.some_ne_none _)
  | succ fuel ih =>
    intro c m m' bs hm h
    rw [forEach] at h
    cases hnext : m.next c with
    | none =>
      simp only [hnext, Option.some.injEq, Prod.mk.injEq] at h
      obtain ⟨rfl, rfl⟩ := h
      exact ⟨.refl, fun k hk hck => absurd hck (next_eq_none hnext k hk), by simp, by simp⟩
    | some k =>
      obtain ⟨hk, hck, hleast⟩ := next_eq_some hnext
      simp only [hnext, Option.bind_eq_bind] at h
      obtain ⟨⟨b, m₁⟩, hb, h⟩ := Option.bind_eq_some_iff.mp h
      obtain ⟨⟨bs', m₂⟩, hrest, h⟩ := Option.bind_eq_some_iff.mp h
      obtain ⟨rfl, rfl⟩ := Prod.mk.inj (Option.some.inj h)
      obtain ⟨hQ, hgrow⟩ := hbody m hm k b m₁ hb
      obtain ⟨hgrow', hall, hspec, hsorted⟩ := ih (hm.trans hgrow) hrest
      refine ⟨hgrow.trans hgrow', ?_, ?_, ?_⟩
      · intro k' hk' hck'
        rw [List.map_cons, List.mem_cons]
        rcases (hleast k' hk' hck').eq_or_lt with heq | hlt
        · exact Or.inl heq.symm
        · refine Or.inr (hall k' (hgrow.subset hk') fun c' hc' => ?_)
          obtain rfl : k = c' := Option.some.inj hc'
          exact hlt
      · intro x hx
        rcases List.mem_cons.mp hx with rfl | hx
        · exact ⟨hQ, hck⟩
        · exact ⟨(hspec x hx).1, hck.trans ((hspec x hx).2 k rfl)⟩
      · rw [List.map_cons, List.pairwise_cons]
        refine ⟨fun k' hk' => ?_, hsorted⟩
        obtain ⟨x, hx, rfl⟩ := List.mem_map.mp hk'
        exact (hspec x hx).2 k rfl

end OrdMap

end KernelConfiguration
