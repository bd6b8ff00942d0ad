import Mathlib.Data.List.Basic
import KernelConfiguration.Depends.Scanner

/-!
# What a well-formed line says

A line of the dependency file is a list of module paths with some text behind
each of them: a colon, a blank, the name of a symbol. The scanner knows nothing
of this. It looks for a letter, restarts at a `/`, gives up at a `.`, and takes
what it has when the `.` begins `.ko`; a directory like `4.0.0-311c` makes it
give up three times, and a file name may begin with a digit that would not have
started a name.

What makes it right is one letter. If the directory has a letter behind its last
`.`, the scanner is reading a name when it comes to the `/` before the file name,
and from there on it reads the file name and nothing else
(`KernelConfiguration.foldl_nextKey_path`). So a line in which `.ko` occurs only
where a path ends is read as the list of its file names
(`KernelConfiguration.scanBuffer_depLine`), whatever the texts between the paths
are.
-/

namespace KernelConfiguration

/-! ### Lines -/

/-- **The path of a module** without its extension: a directory and a file
name. -/
structure ModulePath where
  /-- The directory, without the `/` behind it. -/
  dir : List Char
  /-- The file name, without the `.ko` behind it. -/
  base : List Char
  /-- The file name is not empty. -/
  base_ne : base ≠ []
  /-- The file name is one component and has no extension. -/
  base_chars : '.' ∉ base ∧ '/' ∉ base ∧ nul ∉ base ∧ '\n' ∉ base
  /-- The directory is on one line. -/
  dir_chars : nul ∉ dir ∧ '\n' ∉ dir
  /-- The directory has a letter behind its last `.`. -/
  dir_letter : ∃ before c after, dir = before ++ c :: after ∧ c.isAlpha ∧ '.' ∉ after

/-- The directory and the file name, without the extension. -/
def ModulePath.stem (p : ModulePath) : List Char := p.dir ++ '/' :: p.base

/-- The file name with its extension. -/
def ModulePath.file (p : ModulePath) : List Char := p.base ++ ['.', 'k', 'o']

/-- The text of a list of paths, each with what follows it. -/
def lineText : List (ModulePath × List Char) → List Char
  | [] => []
  | (p, sep) :: rest => p.stem ++ '.' :: 'k' :: 'o' :: (sep ++ lineText rest)

/-- **A well-formed line**: paths with texts between them, in which `.ko` is
nothing but the extension of a path. -/
structure DepLine where
  /-- The paths, each with the text that follows it. -/
  parts : List (ModulePath × List Char)
  /-- There is a path. -/
  parts_ne : parts ≠ []
  /-- The texts are on one line. -/
  sep_chars : ∀ x ∈ parts, nul ∉ x.2 ∧ '\n' ∉ x.2
  /-- Only the last path may be followed by nothing. -/
  sep_ne : ∀ x ∈ parts.dropLast, x.2 ≠ []
  /-- Where `.ko` occurs, a path ends. -/
  ko_only : ∀ k, ((lineText parts).drop k).take 3 = ['.', 'k', 'o'] →
    ∃ done p sep rest, parts = done ++ (p, sep) :: rest ∧
      k = (lineText done).length + p.stem.length

/-! ### The current name -/

/-- The current name behind one more character, which does not begin `.ko`. -/
def nextKey : Option (List Char) → Char → Option (List Char)
  | none, c => if c.isAlpha then some [c] else none
  | some name, c => if c = '/' then some [] else if c = '.' then none else some (name ++ [c])

variable {key : Option (List Char)} {u v : List Char} {c : Char}

/-- **A text without `.ko` is passed**, and leaves nothing but the current name. -/
theorem scanText_append (key : Option (List Char))
    (h : ∀ k < u.length, ((u ++ v).drop k).take 3 ≠ ['.', 'k', 'o']) :
    scanText 0 key (u ++ v) = scanText 0 (u.foldl nextKey key) v := by
  induction u generalizing key with
  | nil => rfl
  | cons c u ih =>
    have hrest : ∀ k < u.length, ((u ++ v).drop k).take 3 ≠ ['.', 'k', 'o'] := by
      intro k hk
      exact h (k + 1) (by rw [List.length_cons]; omega)
    rw [List.foldl_cons, List.cons_append, ← ih _ hrest]
    cases key with
    | none =>
      rw [scanText, nextKey]
      split <;> rfl
    | some name =>
      rw [scanText, nextKey]
      by_cases hslash : c = '/'
      · rw [if_pos hslash, if_pos hslash]
      · rw [if_neg hslash, if_neg hslash]
        by_cases hdot : c = '.'
        · have hko : (u ++ v).take 2 ≠ ['k', 'o'] := by
            intro hcon
            refine h 0 (by simp) ?_
            rw [hdot, List.drop_zero, List.cons_append, List.take_succ_cons, hcon]
          rw [if_pos hdot, if_pos hdot, if_neg hko]
        · rw [if_neg hdot, if_neg hdot]

/-- A letter leaves a current name. -/
theorem isSome_nextKey_of_isAlpha (hc : c.isAlpha) : (nextKey key c).isSome := by
  cases key with
  | none => simp [nextKey, hc]
  | some name =>
    obtain ⟨hslash, hdot⟩ := ne_of_isAlpha hc
    simp [nextKey, hslash, hdot]

/-- Only a `.` gives the current name up. -/
theorem isSome_foldl_nextKey (hu : '.' ∉ u) (hkey : key.isSome) : (u.foldl nextKey key).isSome := by
  induction u generalizing key with
  | nil => exact hkey
  | cons c u ih =>
    rw [List.mem_cons, not_or] at hu
    refine ih hu.2 ?_
    obtain ⟨name, rfl⟩ := Option.isSome_iff_exists.mp hkey
    rw [nextKey]
    split
    · rfl
    · rw [if_neg (fun h => hu.1 h.symm)]
      rfl

/-- The characters of a file name are added to the current name. -/
theorem foldl_nextKey_some (hdot : '.' ∉ u) (hslash : '/' ∉ u) (name : List Char) :
    u.foldl nextKey (some name) = some (name ++ u) := by
  induction u generalizing name with
  | nil => rw [List.foldl_nil, List.append_nil]
  | cons c u ih =>
    rw [List.mem_cons, not_or] at hdot hslash
    rw [List.foldl_cons, nextKey, if_neg fun h => hslash.1 h.symm, if_neg fun h => hdot.1 h.symm,
      ih hdot.2 hslash.2, List.append_assoc]
    rfl

/-- **Behind a path the current name is its file name**, whatever it was before. -/
theorem foldl_nextKey_path (p : ModulePath) (key : Option (List Char)) :
    p.stem.foldl nextKey key = some p.base := by
  obtain ⟨before, c, after, hdir, hc, hafter⟩ := p.dir_letter
  obtain ⟨name, hname⟩ : ∃ name, p.dir.foldl nextKey key = some name := by
    refine Option.isSome_iff_exists.mp ?_
    rw [hdir, List.foldl_append, List.foldl_cons]
    exact isSome_foldl_nextKey hafter (isSome_nextKey_of_isAlpha hc)
  rw [ModulePath.stem, List.foldl_append, hname, List.foldl_cons, nextKey, if_pos rfl,
    foldl_nextKey_some p.base_chars.1 p.base_chars.2.1, List.nil_append]

/-! ### The names of a line -/

/-- Behind a text `u`, the extension `.ko` occurs as that of one of the paths only. -/
def OnlyKo (u : List Char) (parts : List (ModulePath × List Char)) : Prop :=
  ∀ k, ((u ++ lineText parts).drop k).take 3 = ['.', 'k', 'o'] →
    ∃ done p sep rest, parts = done ++ (p, sep) :: rest ∧
      k = u.length + (lineText done).length + p.stem.length

variable {p : ModulePath} {sep : List Char} {parts : List (ModulePath × List Char)}

theorem OnlyKo.nil (h : OnlyKo u []) (k : ℕ) :
    ((u ++ lineText []).drop k).take 3 ≠ ['.', 'k', 'o'] := by
  intro hcon
  obtain ⟨done, p, sep, rest, hnil, -⟩ := h k hcon
  exact List.append_ne_nil_of_right_ne_nil _ (List.cons_ne_nil _ _) hnil.symm

/-- Up to the extension of the first path there is no `.ko`. -/
theorem OnlyKo.stem (h : OnlyKo u ((p, sep) :: parts)) : ∀ k < (u ++ p.stem).length,
    (((u ++ p.stem) ++ '.' :: 'k' :: 'o' :: (sep ++ lineText parts)).drop k).take 3 ≠
      ['.', 'k', 'o'] := by
  intro k hk hcon
  rw [List.append_assoc] at hcon
  obtain ⟨done, q, sep', rest, hparts, hkq⟩ := h k hcon
  rw [List.length_append] at hk
  cases done with
  | nil =>
    obtain ⟨⟨rfl, -⟩, -⟩ : (p = q ∧ sep = sep') ∧ parts = rest := by simpa using hparts
    simp only [lineText, List.length_nil] at hkq
    omega
  | cons y done =>
    obtain ⟨rfl, -⟩ : (p, sep) = y ∧ parts = done ++ (q, sep') :: rest := by simpa using hparts
    simp only [lineText, List.length_append] at hkq
    omega

/-- What is left behind the first path and the character after it. -/
theorem OnlyKo.rest {d : Char} (h : OnlyKo u ((p, d :: sep) :: parts)) : OnlyKo sep parts := by
  intro k hk
  have hk' : ((u ++ lineText ((p, d :: sep) :: parts)).drop (u.length + p.stem.length + 4 + k)).take
      3 = ['.', 'k', 'o'] := by
    rw [← hk, lineText]
    simp only [← List.drop_drop, List.drop_left, List.cons_append]
    rfl
  obtain ⟨done, q, sep', rest, hparts, hkq⟩ := h _ hk'
  cases done with
  | nil =>
    obtain ⟨⟨rfl, -⟩, -⟩ : (p = q ∧ d :: sep = sep') ∧ parts = rest := by simpa using hparts
    simp only [lineText, List.length_nil] at hkq
    omega
  | cons y done =>
    obtain ⟨rfl, hparts'⟩ : (p, d :: sep) = y ∧ parts = done ++ (q, sep') :: rest := by
      simpa using hparts
    refine ⟨done, q, sep', rest, hparts', ?_⟩
    simp only [lineText, List.length_append, List.length_cons] at hkq
    omega

/-- The names of a list of paths, scanned with a text `u` before it that is left of
the text behind an earlier path. -/
theorem scanText_lineText (u : List Char) (hsep : ∀ x ∈ parts.dropLast, x.2 ≠ [])
    (hko : OnlyKo u parts) :
    scanText 0 none (u ++ lineText parts) = parts.map fun x => x.1.file := by
  induction parts generalizing u with
  | nil =>
    rw [scanText_append none fun k _ => hko.nil k, lineText, scanText]
    rfl
  | cons x parts ih =>
    obtain ⟨p, sep⟩ := x
    have hscan := scanText_append none hko.stem
    rw [List.append_assoc, List.foldl_append, foldl_nextKey_path, scanText_ko] at hscan
    rw [lineText, hscan, List.map_cons]
    refine congrArg _ ?_
    cases sep with
    | nil =>
      obtain rfl : parts = [] := by
        by_contra hne
        refine hsep (p, []) ?_ rfl
        rw [List.dropLast_cons_of_ne_nil hne]
        exact List.mem_cons_self
      rfl
    | cons d sep =>
      -- the first character behind the extension is stepped over
      refine ih sep ?_ hko.rest
      rintro x hx
      refine hsep x ?_
      rw [List.dropLast_cons_of_ne_nil (by rintro rfl; simp at hx)]
      exact List.mem_cons_of_mem _ hx

/-- A well-formed line holds no NUL. -/
theorem nul_not_mem_lineText (h : ∀ x ∈ parts, nul ∉ x.2) : nul ∉ lineText parts := by
  induction parts with
  | nil => exact List.not_mem_nil
  | cons x parts ih =>
    obtain ⟨p, sep⟩ := x
    have hsep : nul ∉ sep := h (p, sep) List.mem_cons_self
    have hrest := ih fun x hx => h x (List.mem_cons_of_mem _ hx)
    have hko : nul ≠ '.' ∧ nul ≠ 'k' ∧ nul ≠ 'o' ∧ nul ≠ '/' := by decide
    simp [lineText, ModulePath.stem, p.dir_chars.1, p.base_chars.2.2.1, hsep, hrest, hko]

/-- **Scanning a well-formed line yields its file names**, in the order of the
paths. -/
theorem scanBuffer_depLine (l : DepLine) (stale : List Char) :
    ∃ s, scanBuffer (lineText l.parts ++ nul :: stale) = some s ∧
      s.keys.map (cstr s.cline) = l.parts.map fun x => x.1.file := by
  obtain ⟨s, hs, hnames⟩ := scanBuffer_names (lineText l.parts) stale
  have hnul : nul ∉ lineText l.parts := nul_not_mem_lineText fun x hx => (l.sep_chars x hx).1
  have hall : (lineText l.parts).takeWhile (· ≠ nul) = lineText l.parts := by
    rw [List.takeWhile_eq_self_iff]
    rintro c hc
    simpa using fun heq : c = nul => hnul (heq ▸ hc)
  refine ⟨s, hs, ?_⟩
  rw [hnames, lineNames, hall]
  exact scanText_lineText [] l.sep_ne fun k hk => by
    simpa only [List.length_nil, Nat.zero_add] using l.ko_only k hk

/-- Behind a text without a `.`, the first `.` is the one that follows it. -/
theorem eq_of_dot {u v : List Char} {k : ℕ} (hu : '.' ∉ u) (hk : (u ++ '.' :: v)[k]? = some '.') :
    k = u.length ∨ ∃ m, k = u.length + (m + 1) ∧ v[m]? = some '.' := by
  rcases Nat.lt_or_ge k u.length with hlt | hge
  · rw [List.getElem?_append_left hlt] at hk
    exact absurd (List.mem_of_getElem? hk) hu
  · obtain ⟨m, rfl⟩ := Nat.exists_eq_add_of_le hge
    rw [getElem?_behind] at hk
    cases m with
    | zero => exact Or.inl rfl
    | succ m => exact Or.inr ⟨m, rfl, hk⟩

/-- **A line that says that one module needs another**, in directories without a
`.`. -/
def DepLine.pair (p q : ModulePath) (hp : '.' ∉ p.dir) (hq : '.' ∉ q.dir) : DepLine where
  parts := [(p, [':', ' ']), (q, [])]
  parts_ne := List.cons_ne_nil _ _
  sep_chars := by simp [nul]
  sep_ne := by simp
  ko_only := by
    intro k hk
    have hstem : '.' ∉ p.stem ∧ '.' ∉ 'k' :: 'o' :: ':' :: ' ' :: q.stem := by
      simp [ModulePath.stem, hp, hq, p.base_chars.1, q.base_chars.1]
    have hdot : (lineText [(p, [':', ' ']), (q, [])])[k]? = some '.' := by
      have hhead := congrArg List.head? hk
      rwa [List.head?_take, if_neg (by decide), List.head?_drop] at hhead
    -- the two dots are those of the extensions
    rcases eq_of_dot hstem.1 hdot with rfl | ⟨m, rfl, hm⟩
    · exact ⟨[], p, _, _, rfl, by simp [lineText]⟩
    · rcases eq_of_dot hstem.2 hm with rfl | ⟨_, -, hend⟩
      · refine ⟨[(p, [':', ' '])], q, _, _, rfl, ?_⟩
        simp only [lineText, List.length_append, List.length_cons, List.length_nil]
        omega
      · exact absurd (List.mem_of_getElem? hend) (by decide)

/-- A line of two paths under a directory of a version, the first file name
beginning with a digit. -/
def v9fsLine : DepLine where
  parts := [(⟨"kernel/4.0.0-311c/fs".toList, "9p".toList, by decide, by decide, by decide,
      "kernel/4.0.0-311c/".toList, 'f', ['s'], by decide, by decide, by decide⟩, ": ".toList),
    (⟨"kernel/4.0.0-311c/net".toList, "9pnet".toList, by decide, by decide, by decide,
      "kernel/4.0.0-311c/n".toList, 'e', ['t'], by decide, by decide, by decide⟩, [])]
  parts_ne := List.cons_ne_nil _ _
  sep_chars := by decide
  sep_ne := by decide
  ko_only := by
    intro k hk
    have hlt : k < 58 := by
      by_contra hge
      rw [List.drop_eq_nil_of_le (by simpa [lineText, ModulePath.stem] using hge)] at hk
      simp at hk
    have hends : ∀ k < 58, ("kernel/4.0.0-311c/fs/9p.ko: kernel/4.0.0-311c/net/9pnet.ko".toList.drop
        k).take 3 = ['.', 'k', 'o'] → k = 23 ∨ k = 55 := by decide
    rcases hends k hlt hk with rfl | rfl
    · exact ⟨[], _, _, _, rfl, rfl⟩
    · exact ⟨[_], _, _, _, rfl, rfl⟩

/-- The two file names of `KernelConfiguration.v9fsLine`. -/
theorem scanBuffer_v9fsLine :
    ∃ s, scanBuffer (lineText v9fsLine.parts ++ [nul]) = some s ∧
      s.keys.map (cstr s.cline) = ["9p.ko".toList, "9pnet.ko".toList] :=
  scanBuffer_depLine v9fsLine []

end KernelConfiguration
